import Nmos6502.Instruction

/-! Instructions as assembly text: the mnemonic, then the operand as its mode is
written.

The address of a branch is not in its text, so its target is written as a distance
from the branch itself: the operand byte counts from the instruction after it, which is
two further on. -/
namespace Nmos6502.Instruction

/-- How far a branch with this operand byte goes, from its own address. -/
def distance (offset : Byte) : Int := offset.toInt + 2

/-- The signed distance of a branch as a sign and two digits. -/
def distanceText (offset : Byte) : String :=
  let d := distance offset
  (if d < 0 then "-" else "+") ++ "$" ++ Byte.hex (BitVec.ofNat 8 d.natAbs)

/-- An operand as its mode is written, with the blank before it. -/
def operandText (mode : AddressingMode) (operand : Word) : String :=
  let byte := "$" ++ operand.low.hex
  let word := "$" ++ operand.hex
  match mode with
  | .implicit => ""
  | .accumulator => " A"
  | .immediate => " #" ++ byte
  | .zeroPage => " " ++ byte
  | .zeroPageX => " " ++ byte ++ ",X"
  | .zeroPageY => " " ++ byte ++ ",Y"
  | .relative => " *" ++ distanceText operand.low
  | .absolute => " " ++ word
  | .absoluteX => " " ++ word ++ ",X"
  | .absoluteY => " " ++ word ++ ",Y"
  | .indirect => " (" ++ word ++ ")"
  | .indirectX => " (" ++ byte ++ ",X)"
  | .indirectY => " (" ++ byte ++ "),Y"

def text (i : Instruction) : String :=
  i.encoding.family.mnemonic ++ operandText i.encoding.mode i.operand

end Nmos6502.Instruction
