import Nmos6502.Alu
import Nmos6502.Interrupt
import Nmos6502.Registers
import Nmos6502.Stack

/-! The processor's whole state, memory included.

`cyclesLeft` is what the instruction begun last still has to spend; no instruction
begins while it is not zero. The two requests are latches that interrupts wait in.
Execution starts at the address in the reset vector and is over when the program
counter is the halt address. -/
namespace Nmos6502

structure Cpu where
  registers : Registers
  flags : Flags
  memory : Memory
  cyclesLeft : BitVec 32
  /-- The opcode of the instruction begun last. -/
  opcode : Byte
  hardwareRequest : Bool
  softwareRequest : Bool
  /-- Cycles since power-on. -/
  totalCycles : BitVec 64
deriving DecidableEq

namespace Cpu

/-- The program counter of a finished program. -/
def haltAddress : Word := 0xFFFF

/-- Everything but the memory as at power-on, the program counter from the reset vector. -/
def powerOn (memory : Memory) : Cpu where
  registers := .powerOn (memory.readWord Interrupt.software.vector)
  flags := .clear
  memory
  cyclesLeft := 0
  opcode := 0
  hardwareRequest := false
  softwareRequest := false
  totalCycles := 0

instance : Inhabited Cpu := ⟨powerOn .zero⟩

def isRunning (s : Cpu) : Bool := s.registers.pc != haltAddress

def isMidInstruction (s : Cpu) : Bool := s.cyclesLeft != 0

/-- Replace all of memory and nothing else. -/
def load (s : Cpu) (image : List Byte) : Except Memory.LoadError Cpu :=
  match Memory.ofList image with
  | .ok memory => .ok {s with memory}
  | .error e => .error e

/-! ### Cycles -/

/-- Give the instruction begun last more cycles to spend. -/
def charge (s : Cpu) (cycles : Nat) : Cpu :=
  {s with cyclesLeft := s.cyclesLeft + BitVec.ofNat 32 cycles}

/-- Let one cycle pass. -/
def tick (s : Cpu) : Cpu :=
  {s with
    cyclesLeft := if s.cyclesLeft = 0 then 0 else s.cyclesLeft - 1
    totalCycles := s.totalCycles + 1}

/-! ### Registers -/

/-- Put a byte into the accumulator, zero and negative following it. -/
def loadA (s : Cpu) (value : Byte) : Cpu :=
  {s with registers.a := value, flags := s.flags.withResult value}

def loadX (s : Cpu) (value : Byte) : Cpu :=
  {s with registers.x := value, flags := s.flags.withResult value}

def loadY (s : Cpu) (value : Byte) : Cpu :=
  {s with registers.y := value, flags := s.flags.withResult value}

/-- Take the byte of an arithmetic result into the accumulator, and its flags. -/
def accumulate (s : Cpu) (r : Alu.Result) : Cpu :=
  {s with registers.a := r.value, flags := r.flags}

/-! ### The stack -/

@[inline] def stack (s : Cpu) : Stack := ⟨s.memory, s.registers.sp⟩

/-- The state with its stack, memory and pointer, replaced. -/
@[inline] def withStack (s : Cpu) (stack : Stack) : Cpu :=
  {s with memory := stack.memory, registers.sp := stack.pointer}

def push (s : Cpu) (value : Byte) : Cpu := s.withStack (s.stack.push value)

def pushWord (s : Cpu) (value : Word) : Cpu := s.withStack (s.stack.pushWord value)

def pull (s : Cpu) : Byte × Cpu :=
  let (value, stack) := s.stack.pull
  (value, s.withStack stack)

def pullWord (s : Cpu) : Word × Cpu :=
  let (value, stack) := s.stack.pullWord
  (value, s.withStack stack)

end Cpu

end Nmos6502
