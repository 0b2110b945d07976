import Nmos6502.Word

/-! The two interrupts and their vectors.

A hardware interrupt cannot be masked. A software interrupt is raised by the break
instruction or from outside, and its vector is the reset vector too. -/
namespace Nmos6502

inductive Interrupt where
  | hardware
  | software
deriving DecidableEq, Repr

namespace Interrupt

/-- Where the address of the handler is kept. -/
def vector : Interrupt → Word
  | hardware => 0xFFFA
  | software => 0xFFFE

/-- What the break flag says in the pushed status byte. -/
def isBreak : Interrupt → Bool
  | hardware => false
  | software => true

/-- Cycles for pushing the frame and going through the vector. -/
def cycles : Nat := 7

end Interrupt

end Nmos6502
