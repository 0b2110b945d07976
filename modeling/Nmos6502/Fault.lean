import Nmos6502.AddressingMode
import Nmos6502.Word.Hex

/-! Why an instruction cannot be fetched or carried out. -/
namespace Nmos6502

inductive Fault where
  /-- No family declares the opcode, or not the one that was asked. -/
  | unknownOpcode (opcode : Byte)
  /-- The mode names no place the access could use. -/
  | invalidMode (opcode : Byte) (mode : AddressingMode)
deriving DecidableEq, Repr

def Fault.message : Fault → String
  | unknownOpcode opcode => s!"Opcode 0x{opcode.hex} is not a known instruction"
  | invalidMode opcode mode => s!"Opcode 0x{opcode.hex} cannot use {mode.name} addressing"

end Nmos6502
