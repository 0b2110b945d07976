import Nmos6502.Proofs.Access

/-! Addressing modes in numbers.

What each mode makes of an operand is said once more without bytes and words, as a number below
65,536 with sums reduced at the end of the page or of memory (`Cpu.resolve`); the index leaves
the page when it carries out of the low byte of the base. `Cpu.effectiveAddress` finds just that
(`Cpu.effectiveAddress_eq_resolve`), also when a pointer wraps or the sum passes the last
address.

A byte is then read, written and changed at this address and nowhere else, whatever the mode
(`Cpu.OperandAt`). The accumulator and an immediate byte are operands without an address, and in
the modes left there is no byte to be had. -/
namespace Nmos6502

namespace Memory

/-- The byte at an address, all in numbers. -/
def cell (m : Memory) (address : Nat) : Nat := (m.read (BitVec.ofNat 16 address)).toNat

/-- The number in two cells. -/
def pair (m : Memory) (low high : Nat) : Nat := m.cell low + 256 * m.cell high

variable (m : Memory)

theorem cell_toNat (a : Word) : m.cell a.toNat = (m.read a).toNat := by
  rw [cell, BitVec.ofNat_toNat, BitVec.setWidth_eq]

theorem cell_toNat_byte (b : Byte) : m.cell b.toNat = (m.read b.toWord).toNat := by
  rw [← Word.toNat_toWord, cell_toNat]

theorem toNat_readZeroPageWord (pointer : Byte) :
    (m.readZeroPageWord pointer).toNat = m.pair pointer.toNat ((pointer.toNat + 1) % 256) := by
  have hnext : (pointer + 1).toNat = (pointer.toNat + 1) % 256 := BitVec.toNat_add _ _
  rw [readZeroPageWord, Word.toNat_ofBytes, pair, ← hnext, cell_toNat_byte, cell_toNat_byte,
    Nat.add_comm]

theorem toNat_readWordInPage (pointer : Word) :
    (m.readWordInPage pointer).toNat =
      m.pair pointer.toNat (pointer.toNat / 256 * 256 + (pointer.toNat + 1) % 256) := by
  have hnext : (Word.ofBytes (pointer + 1).low pointer.high).toNat =
      pointer.toNat / 256 * 256 + (pointer.toNat + 1) % 256 := by
    rw [Word.toNat_ofBytes, Word.toNat_low, Word.toNat_high, BitVec.toNat_add]
    show _ + (pointer.toNat + 1) % 65536 % 256 = _
    omega
  rw [readWordInPage, Word.toNat_ofBytes, pair, ← hnext, cell_toNat, cell_toNat, Nat.add_comm]

end Memory

namespace Target

/-- The address as a number. -/
def toNat (t : Target) : Nat × Bool := (t.address.toNat, t.crossed)

theorem toNat_indexed (base : Word) (index : Byte) :
    (indexed base index).toNat =
      ((base.toNat + index.toNat) % 65536, decide (256 ≤ base.toNat % 256 + index.toNat)) := by
  rw [toNat, indexed, Word.crossesPage_add, BitVec.toNat_add, Word.toNat_toWord]

theorem toNat_direct_byte (b : Byte) : (direct b.toWord).toNat = (b.toNat, false) := by
  rw [toNat, direct, Word.toNat_toWord]

end Target

namespace Cpu
variable {s : Cpu} {mode : AddressingMode} {operand : Word}

/-- The address of an operand, and whether the index carries out of the low byte of its base. -/
def resolve (s : Cpu) (mode : AddressingMode) (operand : Word) : Option (Nat × Bool) :=
  let w := operand.toNat
  let z := w % 256
  let x := s.registers.x.toNat
  let y := s.registers.y.toNat
  let plain (address : Nat) := some (address, false)
  let indexed (base index : Nat) :=
    some ((base + index) % 65536, decide (256 ≤ base % 256 + index))
  match mode with
  | .zeroPage => plain z
  | .zeroPageX => plain ((z + x) % 256)
  | .zeroPageY => plain ((z + y) % 256)
  | .absolute => plain w
  | .absoluteX => indexed w x
  | .absoluteY => indexed w y
  | .indirect => plain (s.memory.pair w (w / 256 * 256 + (w + 1) % 256))
  | .indirectX => plain (s.memory.pair ((z + x) % 256) (((z + x) % 256 + 1) % 256))
  | .indirectY => indexed (s.memory.pair z ((z + 1) % 256)) y
  | .implicit | .accumulator | .immediate | .relative => none

/-- **The address of an operand is the one in numbers**, and a mode without one is a fault. -/
theorem effectiveAddress_eq_resolve (s : Cpu) (mode : AddressingMode) (operand : Word) :
    (s.effectiveAddress mode operand).map Target.toNat =
      (s.resolve mode operand).elim (.error (.invalidMode s.opcode mode)) .ok := by
  have hz : operand.low.toNat = operand.toNat % 256 := operand.toNat_low
  have hindexed (index : Byte) : (operand.low + index).toNat =
      (operand.toNat % 256 + index.toNat) % 256 := by
    rw [BitVec.toNat_add, hz]
  cases mode with
  | implicit | accumulator | immediate | relative | absolute => rfl
  | zeroPage => exact congrArg Except.ok ((Target.toNat_direct_byte _).trans (by rw [hz]))
  | zeroPageX | zeroPageY =>
    exact congrArg Except.ok ((Target.toNat_direct_byte _).trans (by rw [hindexed]))
  | absoluteX | absoluteY => exact congrArg Except.ok (Target.toNat_indexed _ _)
  | indirect => exact congrArg (fun a => Except.ok (a, false)) (s.memory.toNat_readWordInPage _)
  | indirectX =>
    have h := s.memory.toNat_readZeroPageWord (operand.low + s.registers.x)
    rw [hindexed] at h
    exact congrArg (fun a => Except.ok (a, false)) h
  | indirectY =>
    have h := s.memory.toNat_readZeroPageWord operand.low
    rw [hz] at h
    have hi := Target.toNat_indexed (s.memory.readZeroPageWord operand.low) s.registers.y
    rw [h] at hi
    exact congrArg Except.ok hi

theorem resolve_of_effectiveAddress {target : Target}
    (h : s.effectiveAddress mode operand = .ok target) :
    s.resolve mode operand = some target.toNat := by
  have heq := s.effectiveAddress_eq_resolve mode operand
  rw [h] at heq
  cases hr : s.resolve mode operand with
  | none =>
    rw [hr] at heq
    cases heq
  | some r =>
    rw [hr] at heq
    exact congrArg some (Except.ok.inj heq).symm

/-! ### Operand bytes -/

/-- An operand that is the byte at an address: it is read there with the page that was left on
the way, and to write or change it leaves all else as it is. -/
structure OperandAt (s : Cpu) (mode : AddressingMode) (operand : Word) (target : Target) :
    Prop where
  read : s.readOperand mode operand = .ok (s.memory.read target.address, target.crossed)
  write : ∀ value, writeOperand mode operand value s =
    .ok () (s.withMemory (s.memory.write target.address value))
  modify : ∀ op, modifyOperand mode operand op s =
    let result := op s.flags (s.memory.read target.address)
    .ok result.value {s with
      flags := result.flags
      memory := s.memory.write target.address result.value}

/-- An operand that is the accumulator, which no index leads to. -/
structure OperandInAccumulator (s : Cpu) (mode : AddressingMode) (operand : Word) : Prop where
  read : s.readOperand mode operand = .ok (s.registers.a, false)
  write : ∀ value, writeOperand mode operand value s = .ok () {s with registers.a := value}
  modify : ∀ op, modifyOperand mode operand op s =
    let result := op s.flags s.registers.a
    .ok result.value {s with flags := result.flags, registers.a := result.value}

/-- An operand that is a byte at hand: it has no place, so it is not written, and a change of it
gets as far as the flags. -/
structure OperandAtHand (s : Cpu) (mode : AddressingMode) (operand : Word) : Prop where
  read : s.readOperand mode operand = .ok (operand.low, false)
  write : ∀ value, writeOperand mode operand value s = .error (.invalidMode s.opcode mode) s
  modify : ∀ op, modifyOperand mode operand op s =
    .error (.invalidMode s.opcode mode) {s with flags := (op s.flags operand.low).flags}

/-- No operand to read or write. -/
structure NoOperand (s : Cpu) (mode : AddressingMode) (operand : Word) : Prop where
  read : s.readOperand mode operand = .error (.invalidMode s.opcode mode)
  write : ∀ value, writeOperand mode operand value s = .error (.invalidMode s.opcode mode) s
  modify : ∀ op, modifyOperand mode operand op s = .error (.invalidMode s.opcode mode) s

/-- An operand with an address is the byte there, unless it is an address to go to itself. -/
theorem operandAt_of_effectiveAddress (hm : mode ≠ .indirect) {target : Target}
    (h : s.effectiveAddress mode operand = .ok target) : s.OperandAt mode operand target := by
  have hr : mode.isReadable = true := by
    cases mode <;> first | rfl | exact absurd rfl hm | cases h
  obtain ⟨l, hp, rfl, hread⟩ := place_of_effectiveAddress h (.inl hr)
  refine ⟨hread, fun value => ?_, fun op => ?_⟩
  · simp only [writeOperand, hp]
    rfl
  · -- the new flags do not move the operand
    have hp' (flags : Flags) : Cpu.place {s with flags} mode operand = .ok (.cell l) := hp
    simp only [modifyOperand, writeOperand, hread, hp']
    rfl

theorem effectiveAddress_isError_iff :
    (∃ fault, s.effectiveAddress mode operand = .error fault) ↔
      mode ∈ [.implicit, .accumulator, .immediate, .relative] := by
  cases mode <;> simp [effectiveAddress, location, AddressingMode.location?, Except.map]

/-- **How an instruction gets at its operand**: at the address that its mode resolves to in
numbers, where the byte is read, written or changed and nothing else is; in the accumulator; at
hand, which is no place to write to; or not at all. -/
theorem operand_access (s : Cpu) (mode : AddressingMode) (operand : Word) :
    (s.effectiveAddress mode operand).map Target.toNat =
      (s.resolve mode operand).elim (.error (.invalidMode s.opcode mode)) .ok ∧
    ((∃ fault, s.effectiveAddress mode operand = .error fault) ↔
      mode ∈ [.implicit, .accumulator, .immediate, .relative]) ∧
    (∀ target, mode ≠ .indirect → s.effectiveAddress mode operand = .ok target →
      s.OperandAt mode operand target) ∧
    s.OperandInAccumulator .accumulator operand ∧ s.OperandAtHand .immediate operand ∧
    (mode ∈ [.implicit, .relative, .indirect] → s.NoOperand mode operand) := by
  refine ⟨s.effectiveAddress_eq_resolve mode operand, effectiveAddress_isError_iff,
    fun target hm h => operandAt_of_effectiveAddress hm h, ⟨rfl, fun _ => rfl, fun _ => rfl⟩,
    ⟨rfl, fun _ => rfl, fun _ => rfl⟩, fun hm => ?_⟩
  simp only [List.mem_cons, List.not_mem_nil, or_false] at hm
  rcases hm with rfl | rfl | rfl <;> exact ⟨rfl, fun _ => rfl, fun _ => rfl⟩

/-- An index of 32, and a byte at address 16. -/
def indexedPast : Cpu :=
  {Cpu.powerOn (Memory.zero.write 0x0010 0x7F) with registers := ⟨0, 0x20, 0, 0xFF, 0x0600⟩}

/-- Past the last address the index leads to the first page, which is another one. -/
theorem indexedPast_wraps :
    indexedPast.resolve .absoluteX 0xFFF0 = some (16, true) ∧
    indexedPast.OperandAt .absoluteX 0xFFF0 ⟨0x0010, true⟩ ∧
    indexedPast.readOperand .absoluteX 0xFFF0 = .ok (0x7F, true) ∧
    indexedPast.NoOperand .relative 0xFFF0 := by
  obtain ⟨-, -, hat, -⟩ := operand_access indexedPast .absoluteX 0xFFF0
  obtain ⟨-, -, -, -, -, hno⟩ := operand_access indexedPast .relative 0xFFF0
  have hoperand := hat ⟨0x0010, true⟩ (by decide) rfl
  have hbyte : indexedPast.memory.read 0x0010 = 0x7F := Memory.read_write_self _ _ _
  exact ⟨rfl, hoperand, hbyte ▸ hoperand.read, hno (by decide)⟩

end Cpu

end Nmos6502
