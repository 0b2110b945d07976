import Nmos6502.Cpu
import Nmos6502.Fault
import Nmos6502.Memory.Location

/-! How an instruction gets at its operand.

A mode, the index registers and the operand bytes name a location in memory, or none
(`location?`). A byte is read from and written to a `Place`: such a location, or the
accumulator. An immediate byte has no place and can only be read; an indirect operand
is an address to go to and not a place for a byte. A mode without what is asked for is
a fault.

An `Attempt` may fail and says in either case which state it leaves. Here only
`modifyOperand` can fail after a change: its operation may set flags before the
result turns out to have nowhere to go. -/
namespace Nmos6502

/-- The location that a mode makes of the operand bytes. -/
def AddressingMode.location? (mode : AddressingMode) (r : Registers) (operand : Word) :
    Option Location :=
  match mode with
  | zeroPage => some (.zeroPage operand.low)
  | zeroPageX => some (.zeroPageIndexed operand.low r.x)
  | zeroPageY => some (.zeroPageIndexed operand.low r.y)
  | absolute => some (.absolute operand)
  | absoluteX => some (.absoluteIndexed operand r.x)
  | absoluteY => some (.absoluteIndexed operand r.y)
  | indirect => some (.indirect operand)
  | indirectX => some (.indexedIndirect operand.low r.x)
  | indirectY => some (.indirectIndexed operand.low r.y)
  | implicit | accumulator | immediate | relative => none

/-- Where a byte can be put. -/
inductive Place where
  | accumulator
  | cell (location : Location)
deriving DecidableEq, Repr

/-- A computation on the state that may end in a fault. -/
abbrev Attempt (α : Type) := EStateM Fault Cpu α

namespace Cpu

/-- The location of an operand, a fault where the mode names none. -/
def location (s : Cpu) (mode : AddressingMode) (operand : Word) : Except Fault Location :=
  match mode.location? s.registers operand with
  | some location => .ok location
  | none => .error (.invalidMode s.opcode mode)

/-- The address an operand refers to. -/
def effectiveAddress (s : Cpu) (mode : AddressingMode) (operand : Word) : Except Fault Target :=
  (s.location mode operand).map (·.target s.memory)

/-! ### Places -/

/-- The place of an operand byte. -/
def place (s : Cpu) (mode : AddressingMode) (operand : Word) : Except Fault Place :=
  match mode with
  | .accumulator => .ok .accumulator
  | .indirect => .error (.invalidMode s.opcode mode)
  | _ => (s.location mode operand).map .cell

/-- The byte at a place, and whether indexing left a page on the way to it. -/
def get (s : Cpu) : Place → Byte × Bool
  | .accumulator => (s.registers.a, false)
  | .cell location => s.memory.fetch location

/-- Put a byte at a place. -/
def put (s : Cpu) (place : Place) (value : Byte) : Cpu :=
  match place with
  | .accumulator => {s with registers.a := value}
  | .cell location => {s with memory := s.memory.store location value}

/-! ### Operand bytes -/

/-- The byte to operate on, and whether indexing left a page on the way to it. -/
def readOperand (s : Cpu) (mode : AddressingMode) (operand : Word) : Except Fault (Byte × Bool) :=
  match mode with
  | .immediate => .ok (operand.low, false)
  | _ => (s.place mode operand).map s.get

/-- Put a byte where the operand was. -/
def writeOperand (mode : AddressingMode) (operand : Word) (value : Byte) : Attempt Unit := fun s =>
  match s.place mode operand with
  | .error fault => .error fault s
  | .ok place => .ok () (s.put place value)

/-- Change the operand in place; the new byte is the result. -/
def modifyOperand (mode : AddressingMode) (operand : Word) (op : Flags → Byte → Alu.Result) :
    Attempt Byte := fun s =>
  match s.readOperand mode operand with
  | .error fault => .error fault s
  | .ok (value, _) =>
    let result := op s.flags value
    match writeOperand mode operand result.value {s with flags := result.flags} with
    | .error fault s => .error fault s
    | .ok () s => .ok result.value s

end Cpu

end Nmos6502
