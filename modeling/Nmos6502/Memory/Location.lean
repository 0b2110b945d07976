import Nmos6502.Memory

/-! Where in memory an operand lies.

A `Location` is an addressing form with its operand bytes and its index filled in;
`target` finds its address. Zero-page forms stay on the zero page: index and pointer
both wrap there. Indexing a full address may carry it onto another page, which the
target records (`crossed`), because that can cost a cycle. -/
namespace Nmos6502

inductive Location where
  | zeroPage (address : Byte)
  | zeroPageIndexed (base index : Byte)
  | absolute (address : Word)
  | absoluteIndexed (base : Word) (index : Byte)
  /-- Through a pointer anywhere, which does not leave its page. -/
  | indirect (pointer : Word)
  /-- Through the zero-page pointer at the indexed address. -/
  | indexedIndirect (pointer index : Byte)
  /-- The address in a zero-page pointer, indexed. -/
  | indirectIndexed (pointer index : Byte)
deriving DecidableEq, Repr

/-- An address, and whether indexing left the page of its base. -/
structure Target where
  address : Word
  crossed : Bool
deriving DecidableEq, Repr

/-- An address that no index was carried into. -/
def Target.direct (address : Word) : Target := ⟨address, false⟩

/-- A base address with an index added. -/
def Target.indexed (base : Word) (index : Byte) : Target :=
  let address := base + index.toWord
  ⟨address, base.crossesPage address⟩

namespace Location

def target (m : Memory) : Location → Target
  | zeroPage address => .direct address.toWord
  | zeroPageIndexed base index => .direct (base + index).toWord
  | absolute address => .direct address
  | absoluteIndexed base index => .indexed base index
  | indirect pointer => .direct (m.readWordInPage pointer)
  | indexedIndirect pointer index => .direct (m.readZeroPageWord (pointer + index))
  | indirectIndexed pointer index => .indexed (m.readZeroPageWord pointer) index

end Location

namespace Memory

/-- The byte at a location, and whether indexing left the page. -/
def fetch (m : Memory) (location : Location) : Byte × Bool :=
  let target := location.target m
  (m.read target.address, target.crossed)

def store (m : Memory) (location : Location) (value : Byte) : Memory :=
  m.write (location.target m).address value

end Memory

end Nmos6502
