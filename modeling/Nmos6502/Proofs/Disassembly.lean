import Nmos6502.Instruction.Text
import Nmos6502.Proofs.Aliases
import Nmos6502.Proofs.Cycle

/-! What the text of an instruction tells.

A text begins with the three letters of a mnemonic, and what follows has a shape of its own in
each mode: with digits and signs blanked out (`Instruction.blank`), any two operands of one mode
read alike and operands of two modes never do. So the text gives the family and the mode, and the
digits give the operand. Opcodes with the same text are then aliases of one instruction
(`Instruction.Same`).

The distance in the text of a branch is the one from its own address to its target, although the
operand counts from the instruction after it (`Instruction.BranchesBy`). -/
namespace Nmos6502

/-! ### Digits -/

/-- The hexadecimal digits, each at its value. -/
def hexAlphabet : List Char :=
  ['0', '1', '2', '3', '4', '5', '6', '7', '8', '9', 'A', 'B', 'C', 'D', 'E', 'F']

theorem getElem?_hexAlphabet : ∀ n : BitVec 4, hexAlphabet[n.toNat]? = some (hexDigit n) := by
  decide

theorem Byte.length_hex (b : Byte) : b.hex.toList.length = 2 := by
  rw [hex, String.toList_ofList]
  rfl

/-- A number below 256 is written in two digits, sixteens first. -/
theorem Byte.hex_ofNat {n : Nat} (h : n < 256) :
    ∃ high low, hexAlphabet[n / 16]? = some high ∧ hexAlphabet[n % 16]? = some low ∧
      Byte.hex (BitVec.ofNat 8 n) = String.ofList [high, low] := by
  have hhigh := getElem?_hexAlphabet ((BitVec.ofNat 8 n).extractLsb' 4 4)
  have hlow := getElem?_hexAlphabet ((BitVec.ofNat 8 n).extractLsb' 0 4)
  have hdiv : ((BitVec.ofNat 8 n).extractLsb' 4 4).toNat = n / 16 := by
    rw [BitVec.extractLsb'_toNat, BitVec.toNat_ofNat, Nat.shiftRight_eq_div_pow]
    omega
  have hmod : ((BitVec.ofNat 8 n).extractLsb' 0 4).toNat = n % 16 := by
    rw [BitVec.extractLsb'_toNat, BitVec.toNat_ofNat, Nat.shiftRight_zero]
    omega
  rw [hdiv] at hhigh
  rw [hmod] at hlow
  exact ⟨_, _, hhigh, hlow, rfl⟩

namespace Family

theorem length_mnemonic (f : Family) : f.mnemonic.toList.length = 3 := by
  cases f <;> rfl

/-- A family is the first, and so the only one, with its mnemonic. -/
theorem find?_mnemonic (f : Family) : all.find? (·.mnemonic == f.mnemonic) = some f := by
  have hall : ∀ f ∈ all, all.find? (·.mnemonic == f.mnemonic) = some f := by decide
  exact hall f f.mem_all

theorem mnemonic_inj {f g : Family} (h : f.mnemonic = g.mnemonic) : f = g := by
  have hf := find?_mnemonic f
  rw [h, find?_mnemonic g] at hf
  exact (Option.some.inj hf).symm

/-- The families that go a distance if the flags say so. -/
def branches : List Family := [bcc, bcs, beq, bne, bmi, bpl, bvc, bvs]

theorem effect_of_mem_branches {f : Family} (h : f ∈ branches) :
    f.effect = .direct (Cpu.branch f.takes) ∧ ∀ e ∈ f.encodings, e.mode = .relative := by
  have hmode : ∀ f ∈ branches, ∀ e ∈ f.encodings, e.mode = .relative := by decide
  refine ⟨?_, hmode f h⟩
  simp only [branches, List.mem_cons, List.not_mem_nil, or_false] at h
  rcases h with rfl | rfl | rfl | rfl | rfl | rfl | rfl | rfl <;> rfl

end Family

/-- A branch that is taken goes to its operand's distance from the program counter. -/
theorem Cpu.pc_branch {condition : Flags → Bool} {s : Cpu} (h : condition s.flags = true)
    (operand : Word) :
    (branch condition operand s).registers.pc = s.registers.pc + operand.low.toSignedWord := by
  unfold branch
  rw [if_pos h]

namespace Instruction
variable {i j : Instruction} {m n : AddressingMode} {v w : Word} {s : Cpu}

/-! ### Distances -/

theorem distance_bounds (offset : Byte) : -126 ≤ distance offset ∧ distance offset ≤ 129 := by
  have hlow := offset.le_toInt
  have hhigh := offset.toInt_lt
  unfold distance
  omega

/-- Two further on, the operand leads as far as the distance does from here. -/
theorem toNat_next_add (address : Word) (offset : Byte) :
    ((address + 2 + offset.toSignedWord).toNat : Int) =
      (address.toNat + distance offset) % 65536 := by
  have hoffset : (offset.toSignedWord.toNat : Int) = offset.toInt % 65536 := by
    rw [Byte.toSignedWord, BitVec.signExtend, BitVec.toNat_ofInt]
    exact Int.toNat_of_nonneg (Int.emod_nonneg _ (by decide))
  have hnext : (address + 2).toNat = (address.toNat + 2) % 65536 := BitVec.toNat_add _ _
  rw [BitVec.toNat_add, hnext, distance]
  omega

/-- Different distances have different texts. -/
theorem distanceText_inj {a b : Byte} (h : distanceText a = distanceText b) : a = b := by
  have ha := distance_bounds a
  have hb := distance_bounds b
  have hlists := congrArg String.toList h
  simp only [distanceText, String.toList_append] at hlists
  obtain ⟨hsigns, hdigits⟩ := List.append_inj' hlists (by rw [Byte.length_hex, Byte.length_hex])
  have hbyte := Byte.hex_inj (String.toList_injective hdigits)
  have hmagnitude : (distance a).natAbs = (distance b).natAbs := by
    have := congrArg BitVec.toNat hbyte
    rw [BitVec.toNat_ofNat, BitVec.toNat_ofNat] at this
    omega
  have hside : distance a < 0 ↔ distance b < 0 := by
    by_cases hna : distance a < 0 <;> by_cases hnb : distance b < 0 <;>
      simp [hna, hnb] at hsigns ⊢
  have hdistance : distance a = distance b := by omega
  apply BitVec.eq_of_toInt_eq
  unfold distance at hdistance
  omega

/-! ### Shapes -/

/-- A digit or a sign, whichever it is. -/
def blank (c : Char) : Char := if c ∈ hexAlphabet then '0' else if c = '-' then '+' else c

theorem blank_hexDigit : ∀ n : BitVec 4, blank (hexDigit n) = '0' := by
  decide

theorem map_blank_byte (b : Byte) : b.hex.toList.map blank = ['0', '0'] := by
  simp [Byte.hex, Byte.hexDigits, blank_hexDigit]

theorem map_blank_word (w : Word) : w.hex.toList.map blank = ['0', '0', '0', '0'] := by
  simp [Word.hex, Byte.hexDigits, blank_hexDigit]

theorem map_blank_distance (offset : Byte) :
    (distanceText offset).toList.map blank = ['+', '$', '0', '0'] := by
  simp only [distanceText, String.toList_append, List.map_append, map_blank_byte]
  split <;> decide

/-- Blanked out, an operand is like any other in its mode. -/
theorem map_blank_operandText (mode : AddressingMode) (v w : Word) :
    (operandText mode v).toList.map blank = (operandText mode w).toList.map blank := by
  cases mode <;>
    simp only [operandText, String.toList_append, List.map_append, map_blank_byte, map_blank_word,
      map_blank_distance]

/-- Operands of different modes have different texts. -/
theorem mode_of_operandText (h : operandText m v = operandText n w) : m = n := by
  have hall : ∀ m ∈ AddressingMode.all, ∀ n ∈ AddressingMode.all,
      (operandText m 0).toList.map blank = (operandText n 0).toList.map blank → m = n := by
    decide
  apply hall m m.mem_all n n.mem_all
  rw [map_blank_operandText m 0 v, h, map_blank_operandText n w 0]

/-! ### Operands -/

/-- The digits of a fetched operand are all there is to it. -/
theorem operandAt_inj {mode : AddressingMode} {m₁ m₂ : Memory} {a₁ a₂ : Word}
    (h : operandText mode (operandAt m₁ a₁ mode.operandBytes) =
      operandText mode (operandAt m₂ a₂ mode.operandBytes)) :
    operandAt m₁ a₁ mode.operandBytes = operandAt m₂ a₂ mode.operandBytes := by
  cases mode with
  | implicit | accumulator => rfl
  | relative =>
    simp only [operandText, AddressingMode.operandBytes, operandAt, Word.low_toWord,
      String.append_right_inj] at h ⊢
    rw [distanceText_inj h]
  | immediate | zeroPage | zeroPageX | zeroPageY | indirectX | indirectY =>
    simp only [operandText, AddressingMode.operandBytes, operandAt, Word.low_toWord,
      String.append_right_inj, String.append_left_inj] at h ⊢
    rw [Byte.hex_inj h]
  | absolute | absoluteX | absoluteY | indirect =>
    simp only [operandText, String.append_right_inj, String.append_left_inj] at h
    exact Word.hex_inj h

/-- The text of a fetched instruction gives its family, its mode and its operand. -/
theorem eq_of_text {s₁ s₂ : Cpu} (hi : s₁.fetch = .ok i) (hj : s₂.fetch = .ok j)
    (h : i.text = j.text) :
    i.encoding.family = j.encoding.family ∧ i.encoding.mode = j.encoding.mode ∧
      i.operand = j.operand := by
  have hlists := congrArg String.toList h
  simp only [text, String.toList_append] at hlists
  obtain ⟨hmnemonic, hrest⟩ :=
    List.append_inj hlists (by rw [Family.length_mnemonic, Family.length_mnemonic])
  have hfamily := Family.mnemonic_inj (String.toList_injective hmnemonic)
  have hoperand := String.toList_injective hrest
  have hmode := mode_of_operandText hoperand
  obtain ⟨-, -, hw₁⟩ := fetch_eq_ok_iff.mp hi
  obtain ⟨-, -, hw₂⟩ := fetch_eq_ok_iff.mp hj
  refine ⟨hfamily, hmode, ?_⟩
  rw [hw₁, hw₂, ← hmode] at hoperand
  rw [hw₁, hw₂, ← hmode]
  exact operandAt_inj hoperand

/-! ### Instructions with one text -/

/-- Two instructions that are one but for the opcode, which is documented once. -/
structure Same (i j : Instruction) : Prop where
  mnemonic : i.encoding.family.mnemonic = j.encoding.family.mnemonic
  mode : i.encoding.mode = j.encoding.mode
  size : i.encoding.size = j.encoding.size
  cycles : i.encoding.cycles = j.encoding.cycles
  operand : i.operand = j.operand
  opcode : i.encoding.documented = true → j.encoding.documented = true →
    i.encoding.opcode = j.encoding.opcode
  /-- Each with its own opcode on record, they do the same to any state but for the opcode. -/
  execute : ∀ s : Cpu, ∃ t : Cpu,
    i.execute (s.withOpcode i.encoding.opcode) = .ok () (t.withOpcode i.encoding.opcode) ∧
    j.execute (s.withOpcode j.encoding.opcode) = .ok () (t.withOpcode j.encoding.opcode)

theorem same_of_text {s₁ s₂ : Cpu} (hi : s₁.fetch = .ok i) (hj : s₂.fetch = .ok j)
    (h : i.text = j.text) : i.Same j := by
  obtain ⟨hfamily, hmode, hoperand⟩ := eq_of_text hi hj h
  have h₁ := mem_encodings_of_fetch hi
  have h₂ : j.encoding ∈ i.encoding.family.encodings := hfamily ▸ mem_encodings_of_fetch hj
  refine ⟨congrArg _ hfamily, hmode, congrArg AddressingMode.size hmode,
    Family.cycles_of_mode h₁ h₂ hmode, hoperand, Family.opcode_of_documented h₁ h₂ hmode,
    fun s => ?_⟩
  obtain ⟨t, ht₁, ht₂⟩ := Family.execute_of_mode h₁ h₂ hmode i.operand s
  refine ⟨t, ht₁, ?_⟩
  rw [Instruction.execute, ← hfamily, ← hoperand]
  exact ht₂

theorem text_of_same (h : i.Same j) : i.text = j.text := by
  rw [text, text, h.mnemonic, h.mode, h.operand]

/-! ### Branches -/

/-- A branch by a distance from its own address: its text names the distance, by a sign and two
digits, and taken it goes there. -/
structure BranchesBy (i : Instruction) (d : Int) : Prop where
  ge : -126 ≤ d
  le : d ≤ 129
  text : ∃ high low, hexAlphabet[d.natAbs / 16]? = some high ∧
    hexAlphabet[d.natAbs % 16]? = some low ∧
    i.text = i.encoding.family.mnemonic ++ " *" ++ (if d < 0 then "-" else "+") ++ "$" ++
      String.ofList [high, low]
  target : ∀ s : Cpu, i.encoding.family.takes s.flags = true →
    ∃ t, i.execute (i.begin s) = .ok () t ∧
      (t.registers.pc.toNat : Int) = (i.address.toNat + d) % 65536

theorem branchesBy_distance (hi : s.fetch = .ok i) (h : i.encoding.family ∈ Family.branches) :
    i.BranchesBy (distance i.operand.low) := by
  obtain ⟨heffect, hmodes⟩ := Family.effect_of_mem_branches h
  have hmode := hmodes _ (mem_encodings_of_fetch hi)
  obtain ⟨hge, hle⟩ := distance_bounds i.operand.low
  refine ⟨hge, hle, ?text, fun s htaken => ?target⟩
  case text =>
    have hlt : (distance i.operand.low).natAbs < 256 := by omega
    obtain ⟨high, low, hhigh, hlow, htext⟩ := Byte.hex_ofNat hlt
    refine ⟨high, low, hhigh, hlow, ?_⟩
    simp only [Instruction.text, hmode, operandText, distanceText, htext, String.append_assoc]
  case target =>
    have hnext : i.next = i.address + 2 := by
      rw [next, Encoding.size, hmode]
      rfl
    have hflags : i.encoding.family.takes (i.begin s).flags = true := htaken
    have hpc : (Cpu.branch i.encoding.family.takes i.operand (i.begin s)).registers.pc =
        i.address + 2 + i.operand.low.toSignedWord := by
      rw [Cpu.pc_branch hflags, ← hnext]
      rfl
    refine ⟨_, Family.execute_direct heffect i.operand (i.begin s), ?_⟩
    rw [hpc, toNat_next_add]

/-- **The text of an instruction tells what it is.** Instructions fetched anywhere have one text
exactly if they have the same mnemonic, mode, length, cycles and operand, the same opcode if the
manuals have both, and do the same to every state but for the opcode they record. The text of a
branch names how far it goes from its own address, which is where it goes when it is taken. -/
theorem text_exact {s₁ s₂ : Cpu} (hi : s₁.fetch = .ok i) (hj : s₂.fetch = .ok j) :
    (i.text = j.text ↔ i.Same j) ∧
    (i.encoding.family ∈ Family.branches →
      i.address = s₁.registers.pc ∧ i.BranchesBy (distance i.operand.low)) := by
  refine ⟨⟨same_of_text hi hj, text_of_same⟩, fun h => ⟨?_, branchesBy_distance hi h⟩⟩
  exact (fetch_eq_ok_iff.mp hi).2.1

/-- A branch as far back as one goes, and behind it a subtraction under each of its two opcodes. -/
def listing (pc : Word) : Cpu :=
  {Cpu.powerOn (Memory.zero.writeBytes 0x0010 [0xD0, 0x80, 0xE9, 0x01, 0xEB, 0x01]) with
    registers.pc := pc}

/-- The subtractions read the same and are the same. The branch goes to the last page. -/
theorem listing_read : ∃ i j k,
    (listing 0x0012).fetch = .ok i ∧ (listing 0x0014).fetch = .ok j ∧
    (listing 0x0010).fetch = .ok k ∧
    i.text = "SBC #$01" ∧ i.encoding.opcode ≠ j.encoding.opcode ∧ i.Same j ∧
    k.text = "BNE *-$7E" ∧ k.BranchesBy (-126) ∧
    ∃ t, k.execute (k.begin (listing 0x0010)) = .ok () t ∧ t.registers.pc = 0xFF92 := by
  have hi : (listing 0x0012).fetch = .ok ⟨0x0012, Family.sbc.official 0xE9 .immediate 2, 1⟩ :=
    fetch_eq_ok_iff.mpr ⟨by decide, rfl, by decide⟩
  have hj : (listing 0x0014).fetch = .ok ⟨0x0014, Family.sbc.unofficial 0xEB .immediate 2, 1⟩ :=
    fetch_eq_ok_iff.mpr ⟨by decide, rfl, by decide⟩
  have hk : (listing 0x0010).fetch = .ok ⟨0x0010, Family.bne.official 0xD0 .relative 2, 0x80⟩ :=
    fetch_eq_ok_iff.mpr ⟨by decide, rfl, by decide⟩
  obtain ⟨-, hbranches⟩ := (text_exact hk hk).2 (by decide)
  obtain ⟨t, ht, hpc⟩ := hbranches.target (listing 0x0010) rfl
  refine ⟨_, _, _, hi, hj, hk, rfl, by decide, (text_exact hi hj).1.mp rfl, rfl, hbranches, t, ht,
    ?_⟩
  apply BitVec.eq_of_toNat_eq
  exact Int.ofNat.inj hpc

end Instruction

end Nmos6502
