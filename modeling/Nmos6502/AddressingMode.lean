/-! The thirteen addressing modes and the room their operands take. -/
namespace Nmos6502

inductive AddressingMode where
  | implicit
  | accumulator
  | immediate
  | zeroPage
  | zeroPageX
  | zeroPageY
  | relative
  | absolute
  | absoluteX
  | absoluteY
  | indirect
  | indirectX
  | indirectY
deriving DecidableEq, Repr

namespace AddressingMode

def all : List AddressingMode :=
  [implicit, accumulator, immediate, zeroPage, zeroPageX, zeroPageY, relative, absolute, absoluteX,
    absoluteY, indirect, indirectX, indirectY]

def name : AddressingMode → String
  | implicit => "Implicit"
  | accumulator => "Accumulator"
  | immediate => "Immediate"
  | zeroPage => "ZeroPage"
  | zeroPageX => "ZeroPageX"
  | zeroPageY => "ZeroPageY"
  | relative => "Relative"
  | absolute => "Absolute"
  | absoluteX => "AbsoluteX"
  | absoluteY => "AbsoluteY"
  | indirect => "Indirect"
  | indirectX => "IndirectX"
  | indirectY => "IndirectY"

/-- How many bytes follow the opcode. -/
def operandBytes : AddressingMode → Nat
  | implicit | accumulator => 0
  | immediate | zeroPage | zeroPageX | zeroPageY | relative | indirectX | indirectY => 1
  | absolute | absoluteX | absoluteY | indirect => 2

/-- The length of an instruction, its opcode included. -/
def size (mode : AddressingMode) : Nat := 1 + mode.operandBytes

theorem mem_all (mode : AddressingMode) : mode ∈ all := by
  cases mode <;> decide

end AddressingMode

end Nmos6502
