import Nmos6502.Proofs.Addressing
import Nmos6502.Proofs.Resolution

/-! What a store writes, and where.

Four stores write a byte of the registers as it is and four put a mask on it, one more than the page
that their operand starts from (`Family.store?`). The page is the one before indexing, wherever the
index leads, and past the last page the mask is zero (`Cpu.pageMask`). Address and mask both belong
to the state a store begins in, so it may well write over the pointer it went through or, when it
moves the stack pointer too, onto the stack. -/
namespace Nmos6502

namespace Cpu

/-- One more than the page that an operand's address has before indexing, all in numbers. -/
def pageMask (s : Cpu) (mode : AddressingMode) (operand : Word) : Byte :=
  let w := operand.toNat
  let z := w % 256
  let base := if mode = .indirectY then s.memory.pair z ((z + 1) % 256) else w
  BitVec.ofNat 8 (base / 256 + 1)

theorem high_base_add_one (s : Cpu) (mode : AddressingMode) (operand : Word) :
    (Access.base s.memory mode operand).high + 1 = s.pageMask mode operand := by
  have hbase : (Access.base s.memory mode operand).toNat =
      if mode = .indirectY then
        s.memory.pair (operand.toNat % 256) ((operand.toNat % 256 + 1) % 256)
      else operand.toNat := by
    unfold Access.base
    split
    · rw [Memory.toNat_readZeroPageWord, Word.toNat_low]
    · rfl
  apply BitVec.eq_of_toNat_eq
  rw [BitVec.toNat_add, Word.toNat_high, hbase, pageMask, BitVec.toNat_ofNat]
  rfl

/-- A state in which one byte is new, the stack pointer may be, and all else is as it was. -/
structure Stored (s : Cpu) (address : Word) (value pointer : Byte) (t : Cpu) : Prop where
  byte : t.memory.read address = value
  others : ∀ a ≠ address, t.memory.read a = s.memory.read a
  rest : t = {s with memory := t.memory, registers.sp := pointer}

theorem stored_write (s : Cpu) (address : Word) (value pointer : Byte) :
    s.Stored address value pointer
      {s with memory := s.memory.write address value, registers.sp := pointer} where
  byte := Memory.read_write_self _ _ _
  others _ ha := Memory.read_write_of_ne _ _ ha.symm
  rest := rfl

end Cpu

namespace Family
variable {f : Family} {value : Registers → (mask : Byte) → Byte} {e : Encoding} {s : Cpu}

/-- The byte that a store makes of the registers and the mask. -/
def store? : Family → Option (Registers → (mask : Byte) → Byte)
  | sta => some fun r _ => r.a
  | stx => some fun r _ => r.x
  | sty => some fun r _ => r.y
  | sax => some fun r _ => r.a &&& r.x
  | sha | tas => some fun r mask => r.a &&& r.x &&& mask
  | shx => some fun r mask => r.x &&& mask
  | shy => some fun r mask => r.y &&& mask
  | _ => none

/-- The stack pointer that a store leaves: one of them moves it. -/
def pointerAfter (f : Family) (r : Registers) : Byte := if f = tas then r.a &&& r.x else r.sp

/-- A store is an access that writes its byte at an address and does nothing else. -/
theorem effect_of_store (h : f.store? = some value) :
    ∃ access, f.effect = .through access ∧
      (∀ target page s, access.performAt target page s = {s with
        memory := s.memory.write target.address (value s.registers (page + 1))
        registers.sp := f.pointerAfter s.registers}) ∧
      ∀ e ∈ f.encodings, e.mode.isAddress = true := by
  cases f <;> cases h <;> exact ⟨_, rfl, fun _ _ _ => rfl, by decide⟩

/-- **A store writes its byte and no more.** Each declared opcode of a store succeeds on any state
and operand, and of all memory and registers only the byte at the address that its mode resolves to
is new, and for one of them the stack pointer; both are made of the registers and the page that the
store found. -/
theorem stores_exact (hf : f.store? = some value) (he : e ∈ f.encodings)
    (ho : s.opcode = e.opcode) (operand : Word) :
    ∃ target t, s.effectiveAddress e.mode operand = .ok target ∧
      s.resolve e.mode operand = some target.toNat ∧ f.execute operand s = .ok () t ∧
      s.Stored target.address (value s.registers (s.pageMask e.mode operand))
        (f.pointerAfter s.registers) t := by
  obtain ⟨access, heffect, hperform, haddress⟩ := effect_of_store hf
  obtain ⟨target, htarget⟩ := s.effectiveAddress_of_isAddress (haddress e he) operand
  refine ⟨target, _, htarget, Cpu.resolve_of_effectiveAddress htarget, ?_,
    s.stored_write _ _ _⟩
  rw [execute_through heffect (ho ▸ encoding?_of_mem_encodings he),
    Access.perform_eq_performAt (suits_of_mem_encodings heffect he) htarget, hperform,
    Cpu.high_base_add_one]

/-- A pointer to the last page, the index leading back to the pointer. -/
def pointedBack : Cpu :=
  {Cpu.powerOn (Memory.zero.writeBytes 0x0010 [0x20, 0xFF]) with
    registers := ⟨0xFF, 0xFF, 0xF0, 0xFF, 0x0600⟩
    opcode := 0x93}

/-- Past the last page the mask is zero, and the store writes it over the pointer. -/
theorem pointedBack_stores : ∃ t, sha.execute 0x0010 pointedBack = .ok () t ∧
    pointedBack.memory.readZeroPageWord 0x0010 = 0xFF20 ∧
    t.memory.readZeroPageWord 0x0010 = 0xFF00 ∧ t.registers = pointedBack.registers ∧
    t.cyclesLeft = 0 := by
  have he : (⟨0x93, .sha, .indirectY, 6, false⟩ : Encoding) ∈ sha.encodings := by decide
  have hpointer : pointedBack.memory.readZeroPageWord 0x0010 = 0xFF20 := by decide +kernel
  have htarget : pointedBack.effectiveAddress .indirectY 0x0010 = .ok ⟨0x0010, true⟩ :=
    congrArg (fun base => Except.ok (Target.indexed base 0xF0)) hpointer
  obtain ⟨target, t, ht, -, hexec, hstored⟩ :=
    stores_exact (f := sha) (s := pointedBack) rfl he rfl 0x0010
  obtain rfl := Except.ok.inj (htarget.symm.trans ht)
  have hmask : pointedBack.pageMask .indirectY 0x0010 = 0 := by decide +kernel
  have hlow : t.memory.read 0x0010 = 0 := by
    rw [hstored.byte, hmask]
    rfl
  have hhigh : t.memory.read 0x0011 = 0xFF := by
    rw [hstored.others 0x0011 (by decide)]
    decide +kernel
  refine ⟨t, hexec, hpointer, ?_, ?_, ?_⟩
  · show Word.ofBytes (t.memory.read 0x0010) (t.memory.read 0x0011) = _
    rw [hlow, hhigh]
    rfl
  · rw [hstored.rest]
    rfl
  · rw [hstored.rest]
    rfl

end Family

end Nmos6502
