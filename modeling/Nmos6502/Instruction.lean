import Nmos6502.Instruction.Execute

/-! An instruction as fetched from memory: its declaration in the opcode matrix, the
operand bytes after the opcode, and the address it came from.

Fetching depends on the memory and the address alone and changes nothing. Beginning an
instruction moves the program counter past it, records its opcode and charges its base
cycles; executing it is then its family's work. A fetched instruction is its family's
own declaration of the byte at its address (`encoding?_of_fetch`), so its family knows
the recorded opcode. -/
namespace Nmos6502

structure Instruction where
  address : Word
  encoding : Encoding
  /-- The operand bytes, little-endian, with zero for none. -/
  operand : Word
deriving DecidableEq, Repr

namespace Instruction

/-- The operand of so many bytes at an address. -/
def operandAt (m : Memory) (address : Word) : Nat → Word
  | 0 => 0
  | 1 => (m.read address).toWord
  | _ => m.readWord address

/-- The instruction at an address, a fault if no family declares the byte there. -/
def fetch (m : Memory) (address : Word) : Except Fault Instruction :=
  match Encoding.ofOpcode? (m.read address) with
  | none => .error (.unknownOpcode (m.read address))
  | some encoding =>
    .ok ⟨address, encoding, operandAt m (address + 1) encoding.mode.operandBytes⟩

/-- The address after the instruction. -/
def next (i : Instruction) : Word := i.address + BitVec.ofNat 16 i.encoding.size

/-- Take up the instruction: pass it by, record its opcode, charge its base cycles. -/
def begin (i : Instruction) (s : Cpu) : Cpu :=
  {s.charge i.encoding.cycles with
    registers.pc := i.next
    opcode := i.encoding.opcode}

def execute (i : Instruction) : Attempt Unit := i.encoding.family.execute i.operand

theorem fetch_eq_ok_iff {m : Memory} {address : Word} {i : Instruction} :
    fetch m address = .ok i ↔
      Encoding.ofOpcode? (m.read address) = some i.encoding ∧ i.address = address ∧
        i.operand = operandAt m (address + 1) i.encoding.mode.operandBytes := by
  unfold fetch
  split <;> rename_i h
  · simp [h]
  · simp only [h, Except.ok.injEq, Option.some.injEq]
    constructor
    · rintro rfl
      exact ⟨rfl, rfl, rfl⟩
    · rintro ⟨rfl, rfl, hw⟩
      rw [← hw]

/-- A fetched instruction is its family's own declaration of the byte it was fetched from. -/
theorem encoding?_of_fetch {m : Memory} {address : Word} {i : Instruction}
    (h : fetch m address = .ok i) :
    i.encoding.family.encoding? i.encoding.opcode = some i.encoding := by
  have hi := (fetch_eq_ok_iff.mp h).1
  rw [Encoding.opcode_of_ofOpcode? hi]
  exact Encoding.encoding?_of_ofOpcode? hi

theorem mem_encodings_of_fetch {m : Memory} {address : Word} {i : Instruction}
    (h : fetch m address = .ok i) : i.encoding ∈ i.encoding.family.encodings :=
  List.mem_of_find?_eq_some (encoding?_of_fetch h)

end Instruction

namespace Cpu

/-- The instruction at the program counter. -/
def fetch (s : Cpu) : Except Fault Instruction := Instruction.fetch s.memory s.registers.pc

end Cpu

end Nmos6502
