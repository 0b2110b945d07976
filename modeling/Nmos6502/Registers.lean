import Nmos6502.Word

/-! The register file: accumulator, two index registers, stack pointer, program
counter. -/
namespace Nmos6502

structure Registers where
  a : Byte
  x : Byte
  y : Byte
  /-- The low byte of the next free stack address. -/
  sp : Byte
  /-- The address of the next instruction. -/
  pc : Word
deriving DecidableEq, Repr

/-- Data registers clear, the stack empty, execution starting at `pc`. -/
def Registers.powerOn (pc : Word) : Registers := ⟨0, 0, 0, 0xFF, pc⟩

end Nmos6502
