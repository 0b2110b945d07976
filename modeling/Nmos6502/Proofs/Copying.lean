import Nmos6502.Proofs.Restart
import Nmos6502.Proofs.Snapshot.Acceptance

/-! Copying a run of bytes into memory.

A run may be longer than memory, and then it comes round to its first address and goes on over
its own bytes. So each address holds the last byte that came to it (`Memory.LastAt`), or what it
held before if none did (`Memory.Missed`); one of the two is the case for every address
(`Memory.read_writeBytes_cases`). A run as long as memory leaves nothing of what was there, and
from address zero it is the image of the memory it makes, which is how the memory of a snapshot
comes from its bytes (`Snapshot.toList_memory_of_decode`). -/
namespace Nmos6502

namespace Memory
variable {start a : Word} {length i : Nat}

/-- The byte of this number, in a run of so many, is the last that comes to the address. -/
structure LastAt (start : Word) (length : Nat) (a : Word) (i : Nat) : Prop where
  lt : i < length
  reaches : (start.toNat + i) % 65536 = a.toNat
  last : ∀ j < length, (start.toNat + j) % 65536 = a.toNat → j ≤ i

/-- No byte of a run of so many comes to the address. -/
def Missed (start : Word) (length : Nat) (a : Word) : Prop :=
  ∀ j < length, (start.toNat + j) % 65536 ≠ a.toNat

/-- The second byte starts where the run comes to next. -/
theorem toNat_next_add (start : Word) (i : Nat) :
    ((start + 1).toNat + i) % 65536 = (start.toNat + (i + 1)) % 65536 := by
  have hnext : (start + 1).toNat = (start.toNat + 1) % 65536 := BitVec.toNat_add _ _
  omega

/-- A byte in front of a run puts off the last one. -/
theorem LastAt.cons (h : LastAt (start + 1) length a i) : LastAt start (length + 1) a (i + 1) where
  lt := Nat.succ_lt_succ h.lt
  reaches := by
    rw [← toNat_next_add]
    exact h.reaches
  last j hj hreaches := by
    cases j with
    | zero => exact Nat.zero_le _
    | succ j =>
      rw [← toNat_next_add] at hreaches
      exact Nat.succ_le_succ (h.last j (Nat.lt_of_succ_lt_succ hj) hreaches)

/-- Where the rest does not come, the byte in front of it is the last. -/
theorem LastAt.head (h : Missed (start + 1) length start) : LastAt start (length + 1) start 0 where
  lt := Nat.zero_lt_succ _
  reaches := Nat.mod_eq_of_lt start.isLt
  last j hj hreaches := by
    cases j with
    | zero => exact Nat.le_refl _
    | succ j =>
      rw [← toNat_next_add] at hreaches
      exact absurd hreaches (h j (Nat.lt_of_succ_lt_succ hj))

theorem Missed.cons (h : Missed (start + 1) length a) (ha : a ≠ start) :
    Missed start (length + 1) a := by
  intro j hj hreaches
  cases j with
  | zero =>
    have hstart : start.toNat = a.toNat := (Nat.mod_eq_of_lt start.isLt).symm.trans hreaches
    exact ha (BitVec.eq_of_toNat_eq hstart.symm)
  | succ j =>
    rw [← toNat_next_add] at hreaches
    exact h j (Nat.lt_of_succ_lt_succ hj) hreaches

/-- An address holds the last byte that came to it, or what it held. -/
theorem read_writeBytes_cases (m : Memory) (start : Word) (bytes : List Byte) (a : Word) :
    (∃ i, LastAt start bytes.length a i ∧
      bytes[i]? = some ((m.writeBytes start bytes).read a)) ∨
    (Missed start bytes.length a ∧ (m.writeBytes start bytes).read a = m.read a) := by
  induction bytes generalizing m start with
  | nil => exact .inr ⟨fun j hj => absurd hj (Nat.not_lt_zero j), rfl⟩
  | cons b rest ih =>
    rcases ih (m.write start b) (start + 1) with ⟨i, hlast, hbyte⟩ | ⟨hmissed, hkept⟩
    · exact .inl ⟨i + 1, hlast.cons, hbyte⟩
    · -- what the rest misses, the byte in front of it may have come to
      by_cases ha : a = start
      · subst ha
        refine .inl ⟨0, .head hmissed, ?_⟩
        rw [writeBytes, hkept, read_write_self]
        rfl
      · refine .inr ⟨hmissed.cons ha, ?_⟩
        rw [writeBytes, hkept, read_write_of_ne _ _ (Ne.symm ha)]

/-- A run as long as memory leaves at each address the byte at its distance from the start. -/
theorem getElem?_of_length_eq (m : Memory) (start : Word) {bytes : List Byte}
    (h : bytes.length = size) (a : Word) :
    bytes[(a - start).toNat]? = some ((m.writeBytes start bytes).read a) := by
  have hlt : (a - start).toNat < bytes.length := h ▸ (a - start).isLt
  rw [read_writeBytes m start (Nat.le_of_eq h), List.getElem?_eq_getElem hlt, Option.getD_some]

/-- The image of a memory, copied from address zero, is that memory. -/
theorem writeBytes_toList (m n : Memory) : m.writeBytes 0 n.toList = n := by
  apply ext_read
  intro a
  have hdistance : a - 0 = a := BitVec.sub_zero a
  have hbyte := getElem?_of_length_eq m 0 n.length_toList a
  rw [hdistance, getElem?_toList] at hbyte
  exact (Option.some.inj hbyte).symm

end Memory

/-- The memory of a snapshot is the bytes after the header. -/
theorem Snapshot.toList_memory_of_decode {data : List Byte} {s : Snapshot}
    (h : decode data = .ok s) :
    s.memory.toList = (data.drop headerSize).take Memory.size := by
  cases verdict data with
  | refused e reason eq =>
    rw [eq] at h
    cases h
  | accepted s' fine eq encode =>
    obtain rfl := Except.ok.inj (eq.symm.trans h)
    have hheader : s'.header.length = headerSize := by
      simp [header, magic, headerSize]
    -- the spare request bits are in the header
    have hdrop : (canonical data).drop headerSize = (data.drop headerSize).take Memory.size := by
      rw [canonical, List.drop_modify_of_lt _ _ _ _ (by decide), List.drop_take]
      rfl
    rw [← hdrop, ← encode, Snapshot.encode, List.drop_left' hheader]

/-- **The last byte that comes to an address stays there.** However long the run is, each address
holds the last byte of it that came there, or what it held if none did. A run as long as memory
replaces every byte, each with the one at its distance from the start, and from address zero it is
the image of what it leaves. So the memory of a snapshot is its bytes after the header, copied
over any other. -/
theorem Memory.writeBytes_exact (m : Memory) (start : Word) (bytes : List Byte) :
    (∀ a, (∃ i, LastAt start bytes.length a i ∧
        bytes[i]? = some ((m.writeBytes start bytes).read a)) ∨
      (Missed start bytes.length a ∧ (m.writeBytes start bytes).read a = m.read a)) ∧
    (bytes.length = 65536 →
      (∀ a, bytes[(a - start).toNat]? = some ((m.writeBytes start bytes).read a)) ∧
      (m.writeBytes 0 bytes).toList = bytes) ∧
    ∀ data s, Snapshot.decode data = .ok s →
      s.memory = m.writeBytes 0 ((data.drop Snapshot.headerSize).take 65536) := by
  refine ⟨m.read_writeBytes_cases start bytes,
    fun h => ⟨m.getElem?_of_length_eq start h, ?_⟩, fun data s hdecode => ?_⟩
  · obtain ⟨n, rfl⟩ := exists_toList h
    rw [writeBytes_toList]
  · have hbytes : s.memory.toList = (data.drop Snapshot.headerSize).take 65536 :=
      Snapshot.toList_memory_of_decode hdecode
    rw [← hbytes, writeBytes_toList]

/-- As many ones as memory has bytes. -/
def Memory.ones : List Byte := List.replicate 65536 1

/-- A byte behind so many is copied over the first of them. The last of them is at the address
before, from address zero they are an image, and so are the bytes in a snapshot. -/
theorem Memory.ones_lapped :
    (zero.writeBytes 0x0010 (ones ++ [2])).read 0x0010 = 2 ∧
    (zero.writeBytes 0x0010 ones).read 0x000F = 1 ∧
    (zero.writeBytes 0 ones).toList = ones ∧
    Machine.blank.snapshot.memory =
      zero.writeBytes 0 ((Machine.blank.snapshot.encode.drop Snapshot.headerSize).take 65536) := by
  have hlength : ones.length = 65536 := List.length_replicate
  have hlonger : (ones ++ [2]).length = 65537 := by rw [List.length_append, hlength]; rfl
  obtain ⟨hlapped, -⟩ := writeBytes_exact zero 0x0010 (ones ++ [2])
  obtain ⟨-, hwhole, hdecoded⟩ := writeBytes_exact zero 0x0010 ones
  obtain ⟨hbyte, himage⟩ := hwhole hlength
  refine ⟨?lapped, ?last, himage, hdecoded _ _ ?decoded⟩
  case lapped =>
    rcases hlapped 0x0010 with ⟨i, hlast, h⟩ | ⟨hmissed, -⟩
    · have hle : 65536 ≤ i := hlast.last 65536 (by omega) (by decide)
      have hlt := hlast.lt
      have hi : i = ones.length := by omega
      rw [hi, List.getElem?_concat_length] at h
      exact (Option.some.inj h).symm
    · exact absurd (by decide) (hmissed 65536 (by omega))
  case last =>
    have h := hbyte 0x000F
    have hdistance : ((0x000F : Word) - 0x0010).toNat = 65535 := by decide
    rw [hdistance, ones, List.getElem?_replicate_of_lt (by decide)] at h
    exact (Option.some.inj h).symm
  case decoded =>
    have h := Machine.blank.snapshot.decode_encode_append []
    rwa [List.append_nil] at h

end Nmos6502
