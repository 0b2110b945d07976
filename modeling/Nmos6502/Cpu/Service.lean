import Nmos6502.Cpu

/-! Servicing interrupts.

A hardware request is served whenever it is looked for and takes a waiting software
request with it; a software request waits while the interrupt-disable flag is set.
Service pushes the status byte, then the program counter, its high byte first, and goes
through the vector with the interrupt-disable flag set. -/
namespace Nmos6502.Cpu

/-- The interrupt that may be served now. -/
def pendingInterrupt (s : Cpu) : Option Interrupt :=
  if s.hardwareRequest then some .hardware
  else if s.softwareRequest && !s.flags.interruptDisable then some .software
  else none

/-- Push a frame and go to the handler. The cycles of the service replace what is left. -/
def enter (interrupt : Interrupt) (s : Cpu) : Cpu :=
  let returnAddress := s.registers.pc
  let s := {s with flags.breakCommand := interrupt.isBreak}
  let s := (s.push s.flags.toByte).pushWord returnAddress
  {s with
    flags.interruptDisable := true
    registers.pc := s.memory.readWord interrupt.vector
    cyclesLeft := BitVec.ofNat 32 Interrupt.cycles}

/-- Serve the interrupt that may be served, if there is one. A service leaves no
request behind: the hardware request outranks the software request and clears it, and
the software request is served only without a hardware request. -/
def takeInterrupt (s : Cpu) : Cpu :=
  match s.pendingInterrupt with
  | none => s
  | some interrupt => {s.enter interrupt with hardwareRequest := false, softwareRequest := false}

end Nmos6502.Cpu
