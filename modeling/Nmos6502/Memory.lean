import Nmos6502.Word

/-! Memory: 65,536 bytes, one to every word.

There are no bus errors and no aliases, so `read` tells everything about a memory
(`ext_read`) and a write is read back at its own address and nowhere else
(`read_write`). A run of bytes is written from its start upwards, wrapping from the
last address to the first; where a long run comes round to an address again, the
later byte wins (`writeBytes_append`). An image is all of memory as a list, and
nothing shorter or longer loads (`ofList_toList`, `toList_of_ofList`). -/
namespace Nmos6502

structure Memory where
  cells : Vector Byte 65536
deriving DecidableEq

namespace Memory

/-- The number of bytes in the address space. -/
def size : Nat := 65536

def zero : Memory := ⟨Vector.replicate size 0⟩

instance : Inhabited Memory := ⟨zero⟩

def read (m : Memory) (address : Word) : Byte := m.cells[address.toNat]

def write (m : Memory) (address : Word) (value : Byte) : Memory :=
  ⟨m.cells.set address.toNat value address.isLt⟩

/-- Memories that read alike are equal. -/
theorem ext_read {m n : Memory} (h : ∀ a, m.read a = n.read a) : m = n := by
  obtain ⟨m⟩ := m
  obtain ⟨n⟩ := n
  congr 1
  apply Vector.ext
  intro i hi
  have hcell : m[(BitVec.ofNat 16 i).toNat] = n[(BitVec.ofNat 16 i).toNat] :=
    h (BitVec.ofNat 16 i)
  have hi' : (BitVec.ofNat 16 i).toNat = i := by
    rw [BitVec.toNat_ofNat]
    exact Nat.mod_eq_of_lt hi
  simpa only [hi'] using hcell

@[simp] theorem read_zero (a : Word) : zero.read a = 0 :=
  Vector.getElem_replicate a.isLt

theorem read_write (m : Memory) (a b : Word) (v : Byte) :
    (m.write a v).read b = if a = b then v else m.read b := by
  simp [read, write, Vector.getElem_set, BitVec.toNat_inj]

@[simp] theorem read_write_self (m : Memory) (a : Word) (v : Byte) : (m.write a v).read a = v := by
  simp [read_write]

theorem read_write_of_ne (m : Memory) {a b : Word} (v : Byte) (h : a ≠ b) :
    (m.write a v).read b = m.read b := by
  simp [read_write, h]

theorem write_comm (m : Memory) {a b : Word} (v w : Byte) (h : a ≠ b) :
    (m.write a v).write b w = (m.write b w).write a v := by
  apply ext_read
  intro c
  by_cases ha : a = c
  · simp [read_write, ha, show b ≠ c from fun hb => h (ha.trans hb.symm)]
  · simp [read_write, ha]

/-! ### Words -/

/-- The little-endian word at an address and the one after it. -/
def readWord (m : Memory) (address : Word) : Word :=
  .ofBytes (m.read address) (m.read (address + 1))

theorem readWord_write_of_ne (m : Memory) {a b : Word} (v : Byte) (h : a ≠ b) (h' : a ≠ b + 1) :
    (m.write a v).readWord b = m.readWord b := by
  simp only [readWord, read_write_of_ne _ _ h, read_write_of_ne _ _ h']

/-- The word at an address of the zero page, its high byte wrapping to address 0. -/
def readZeroPageWord (m : Memory) (address : Byte) : Word :=
  .ofBytes (m.read address.toWord) (m.read (address + 1).toWord)

/-- The word at an address, its high byte fetched from the same page: at the last
address of a page it comes from the first. -/
def readWordInPage (m : Memory) (address : Word) : Word :=
  .ofBytes (m.read address) (m.read (.ofBytes (address + 1).low address.high))

/-! ### Runs of bytes -/

/-- Write a run of bytes upwards from an address. -/
def writeBytes (m : Memory) (start : Word) : List Byte → Memory
  | [] => m
  | b :: rest => (m.write start b).writeBytes (start + 1) rest

theorem writeBytes_append (m : Memory) (start : Word) (bs cs : List Byte) :
    m.writeBytes start (bs ++ cs) =
      (m.writeBytes start bs).writeBytes (start + BitVec.ofNat 16 bs.length) cs := by
  induction bs generalizing m start with
  | nil => simp [writeBytes]
  | cons b rest ih =>
    have h : start + 1 + BitVec.ofNat 16 rest.length =
        start + BitVec.ofNat 16 (rest.length + 1) := by
      rw [BitVec.ofNat_add, BitVec.add_comm (BitVec.ofNat 16 _), ← BitVec.add_assoc]
      rfl
    simp only [List.cons_append, writeBytes, ih, List.length_cons, h]

/-- A run that does not come round to its start holds each byte at its distance from there. -/
theorem read_writeBytes (m : Memory) (start : Word) {bytes : List Byte}
    (h : bytes.length ≤ size) (a : Word) :
    (m.writeBytes start bytes).read a = bytes[(a - start).toNat]?.getD (m.read a) := by
  induction bytes generalizing m start with
  | nil => rfl
  | cons b rest ih =>
    have hrest : rest.length < size := h
    rw [writeBytes, ih _ _ (Nat.le_of_lt hrest)]
    by_cases ha : a = start
    · -- the rest is too short to come round to the first byte
      subst ha
      have hlast : (a - (a + 1)).toNat = size - 1 := by
        show _ = 65535
        bv_omega
      have hnone : rest[(a - (a + 1)).toNat]? = none := by
        rw [hlast]
        exact List.getElem?_eq_none (Nat.le_pred_of_lt hrest)
      rw [hnone, BitVec.sub_self, BitVec.toNat_zero, List.getElem?_cons_zero]
      exact m.read_write_self a b
    · have hnext : (a - start).toNat = (a - (start + 1)).toNat + 1 := by bv_omega
      rw [hnext, List.getElem?_cons_succ, read_write_of_ne _ _ (Ne.symm ha)]

/-- Read a run of bytes upwards from an address, wrapping likewise. -/
def readBytes (m : Memory) (start : Word) : Nat → List Byte
  | 0 => []
  | n + 1 => m.read start :: m.readBytes (start + 1) n

/-- The 256 bytes of a page. -/
def page (m : Memory) (page : Byte) : List Byte := m.readBytes (.ofBytes 0 page) 256

/-! ### Images -/

/-- Two numbers of bytes, of which the second should have been the first. -/
structure Lengths where
  expected : Nat
  actual : Nat
deriving DecidableEq, Repr

/-- Why a list of bytes is not loaded. -/
inductive LoadError where
  | missingData
  | lengthMismatch (lengths : Lengths)
deriving DecidableEq, Repr

def LoadError.message : LoadError → String
  | missingData => "no memory image was supplied"
  | lengthMismatch ⟨expected, actual⟩ =>
    s!"memory image must be exactly {expected} bytes, got {actual}"

/-- All of memory, from address 0 up. -/
def toList (m : Memory) : List Byte := m.cells.toList

/-- The memory with this image. -/
def ofList (image : List Byte) : Except LoadError Memory :=
  if h : image.length = size then .ok ⟨⟨image.toArray, h⟩⟩
  else .error (.lengthMismatch ⟨size, image.length⟩)

@[simp] theorem length_toList (m : Memory) : m.toList.length = size := m.cells.length_toList

@[simp] theorem ofList_toList (m : Memory) : ofList m.toList = .ok m := by
  rw [ofList, dif_pos m.length_toList]
  obtain ⟨⟨⟨cells⟩, h⟩⟩ := m
  rfl

theorem toList_of_ofList {image : List Byte} {m : Memory} (h : ofList image = .ok m) :
    m.toList = image := by
  unfold ofList at h
  split at h
  · cases h
    rfl
  · cases h

/-- An image holds each byte at its address. -/
theorem getElem?_toList (m : Memory) (a : Word) : m.toList[a.toNat]? = some (m.read a) := by
  simp [read, toList]

/-- The zero page and the three vectors in decimal. -/
def describe (m : Memory) : String :=
  let decimals (start : Word) (n : Nat) : String :=
    ", ".intercalate ((m.readBytes start n).map fun b => toString b.toNat)
  "Memory \x7b zero_page: [" ++ decimals 0 256 ++ "], vectors: [" ++ decimals 0xFFFA 6 ++
    "], .. \x7d"

end Memory

end Nmos6502
