import Nmos6502.Word

/-! The seven status flags and the byte they are packed into.

The byte is laid out NV1BDIZC from bit 7 to bit 0. Bit 5 stands for no flag: packing
sets it and unpacking ignores it, so a byte goes through the flags unchanged but for
that bit (`toByte_ofByte`), and the flags come back from their byte
(`ofByte_toByte`). -/
namespace Nmos6502

structure Flags where
  carry : Bool
  zero : Bool
  interruptDisable : Bool
  decimal : Bool
  /-- Set by a break and in the byte a software interrupt pushes. -/
  breakCommand : Bool
  overflow : Bool
  negative : Bool
deriving DecidableEq, Repr

namespace Flags

open BitVec (ofBool)

/-- All flags clear, as at power-on. -/
def clear : Flags := ⟨false, false, false, false, false, false, false⟩

instance : Inhabited Flags := ⟨clear⟩

def toByte (f : Flags) : Byte :=
  ofBool f.negative ++ ofBool f.overflow ++ 1#1 ++ ofBool f.breakCommand ++ ofBool f.decimal ++
    ofBool f.interruptDisable ++ ofBool f.zero ++ ofBool f.carry

def ofByte (b : Byte) : Flags where
  carry := b.getLsbD 0
  zero := b.getLsbD 1
  interruptDisable := b.getLsbD 2
  decimal := b.getLsbD 3
  breakCommand := b.getLsbD 4
  overflow := b.getLsbD 6
  negative := b.getLsbD 7

/-- Zero and negative as the result byte says, the other flags kept. -/
def withResult (f : Flags) (result : Byte) : Flags :=
  {f with zero := result == 0, negative := result.isNegative}

@[simp] theorem ofByte_toByte (f : Flags) : ofByte f.toByte = f := by
  obtain ⟨c, z, i, d, b, v, n⟩ := f
  revert c z i d b v n
  decide

theorem toByte_ofByte : ∀ b : Byte, (ofByte b).toByte = b ||| 0x20 := by
  decide

/-- The byte with the break bit set as well. -/
theorem ofByte_toByte_or (f : Flags) :
    ofByte (f.toByte ||| 0x30) = {f with breakCommand := true} := by
  obtain ⟨c, z, i, d, b, v, n⟩ := f
  revert c z i d b v n
  decide

end Flags

end Nmos6502
