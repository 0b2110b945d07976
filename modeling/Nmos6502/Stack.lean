import Nmos6502.Memory

/-! The stack on page one.

The pointer is the low byte of the next free address, and the stack grows downwards:
a push writes there and steps the pointer down, a pull steps it up and reads. Both
wrap within the page, so the 257th push overwrites the oldest byte. A word goes on
high byte first and comes off low byte first. What is pushed is pulled again and the
pointer is where it was (`pull_push`, `pullWord_pushWord`). -/
namespace Nmos6502

structure Stack where
  memory : Memory
  pointer : Byte
deriving DecidableEq

namespace Stack

/-- The first address of the stack's page. -/
def base : Word := 0x0100

/-- The stack address with this low byte. -/
def slot (pointer : Byte) : Word := base ||| pointer.toWord

@[inline] def push (s : Stack) (value : Byte) : Stack :=
  ⟨s.memory.write (slot s.pointer) value, s.pointer - 1⟩

@[inline] def pull (s : Stack) : Byte × Stack :=
  let pointer := s.pointer + 1
  (s.memory.read (slot pointer), {s with pointer})

@[inline] def pushWord (s : Stack) (value : Word) : Stack := (s.push value.high).push value.low

@[inline] def pullWord (s : Stack) : Word × Stack :=
  let (low, s) := s.pull
  let (high, s) := s.pull
  (.ofBytes low high, s)

/-- The byte the next pull returns. -/
def peek (s : Stack) : Byte := s.memory.read (slot (s.pointer + 1))

theorem slot_eq (pointer : Byte) : slot pointer = .ofBytes pointer 0x01 := by
  revert pointer
  decide

/-- Different pointers have different slots. -/
theorem slot_inj {p q : Byte} (h : slot p = slot q) : p = q := by
  rw [slot_eq, slot_eq] at h
  simpa using congrArg Word.low h

theorem pull_push (s : Stack) (value : Byte) :
    (s.push value).pull = (value, {s.push value with pointer := s.pointer}) := by
  simp only [push, pull, BitVec.sub_add_cancel, Memory.read_write_self]

theorem pullWord_pushWord (s : Stack) (value : Word) :
    (s.pushWord value).pullWord = (value, {s.pushWord value with pointer := s.pointer}) := by
  have hne : slot (s.pointer - 1) ≠ slot s.pointer := fun h => by
    have := slot_inj h
    bv_omega
  simp only [pushWord, pullWord, push, pull, BitVec.sub_add_cancel, Memory.read_write_self,
    Memory.read_write, if_neg hne, Word.ofBytes_low_high]

end Stack

end Nmos6502
