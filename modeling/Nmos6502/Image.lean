import Nmos6502.Interrupt
import Nmos6502.Memory
import Nmos6502.Word.Hex

/-! Program images: a binary placed in otherwise zeroed memory, with the reset vector
pointing at it. The vector is written last, so it wins over a binary that reaches it. -/
namespace Nmos6502.Image

/-- Where a program goes unless an address is given. -/
def defaultAddress : Word := 0x0600

/-- Why no image is built. -/
inductive BuildError where
  | empty
  | tooLarge (address : Word) (length : Nat)
deriving DecidableEq, Repr

def BuildError.message : BuildError → String
  | empty => "program is empty"
  | tooLarge address length => s!"program of {length} bytes does not fit at 0x{address.hex}"

/-- The memory of a program at an address. -/
def memory (address : Word) (binary : List Byte) : Memory :=
  let vector := Interrupt.software.vector
  ((Memory.zero.writeBytes address binary).write vector address.low).write (vector + 1) address.high

/-- The image of a program at an address, up to the end of memory. -/
def build (address : Word) (binary : List Byte) : Except BuildError (List Byte) :=
  if binary.isEmpty then .error .empty
  else if Memory.size < address.toNat + binary.length then
    .error (.tooLarge address binary.length)
  else .ok (memory address binary).toList

end Nmos6502.Image
