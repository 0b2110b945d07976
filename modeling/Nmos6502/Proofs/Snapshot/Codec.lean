import Nmos6502.Snapshot

/-! A snapshot comes back from its bytes.

Reading takes apart what `encode` put together: the header's fields one by one, each from
the bytes it was written to (`decodeBody?_body`), and the memory from the 65,536 bytes
after them. What follows is ignored, so it may be anything (`decode_encode_append`). -/
namespace Nmos6502.Snapshot

open BitVec (ofBool)

/-! ### Fields -/

theorem ofBytes_of_toNat (w : Word) :
    Word.ofBytes (BitVec.ofNat 8 w.toNat) (BitVec.ofNat 8 (w.toNat / 256)) = w := by
  apply BitVec.eq_of_toNat_eq
  rw [Word.toNat_ofBytes]
  simp only [BitVec.toNat_ofNat]
  omega

theorem ofNat_toNat_littleEndian {width : Nat} (n : Nat) (b : BitVec width)
    (h : b.toNat < LittleEndian.bound n) :
    BitVec.ofNat width (LittleEndian.toNat (LittleEndian.ofNat n b.toNat)) = b := by
  rw [LittleEndian.toNat_ofNat h, BitVec.ofNat_toNat, BitVec.setWidth_eq]

/-- The two latches in their byte. -/
def requests (s : Snapshot) : Byte := 0#6 ++ ofBool s.softwareRequest ++ ofBool s.hardwareRequest

theorem isBitSet_requests (s : Snapshot) :
    s.requests.isBitSet 0 = s.hardwareRequest ∧ s.requests.isBitSet 1 = s.softwareRequest := by
  unfold requests
  cases s.hardwareRequest <;> cases s.softwareRequest <;> decide

/-! ### The whole -/

/-- What follows the version in the bytes of a snapshot. -/
def body (s : Snapshot) : List Byte :=
  [s.registers.a, s.registers.x, s.registers.y, s.registers.sp] ++
    LittleEndian.ofNat 2 s.registers.pc.toNat ++ [s.status] ++
    LittleEndian.ofNat 4 s.cyclesLeft.toNat ++ [s.opcode, s.requests] ++
    LittleEndian.ofNat 8 s.totalCycles.toNat ++ s.memory.toList

theorem encode_eq (s : Snapshot) :
    s.encode = magic ++ (LittleEndian.ofNat 4 version ++ s.body) := by
  simp only [encode, header, body, requests, List.append_assoc]

theorem decodeBody?_body (s : Snapshot) (rest : List Byte) :
    decodeBody? (s.body ++ rest) = some s := by
  have hm : Memory.ofList ((s.memory.toList ++ rest).take Memory.size) = .ok s.memory := by
    rw [List.take_left' s.memory.length_toList, Memory.ofList_toList]
  have hl := ofNat_toNat_littleEndian 4 s.cyclesLeft s.cyclesLeft.isLt
  have ht := ofNat_toNat_littleEndian 8 s.totalCycles s.totalCycles.isLt
  obtain ⟨hh, hs⟩ := s.isBitSet_requests
  simp only [LittleEndian.ofNat] at hl ht
  simp only [body, LittleEndian.ofNat, List.cons_append, List.nil_append, decodeBody?, hm, hl, ht,
    hh, hs, ofBytes_of_toNat]

/-- A snapshot is read back from its bytes, whatever follows them. -/
theorem decode_encode_append (s : Snapshot) (rest : List Byte) :
    decode (s.encode ++ rest) = .ok s := by
  have hb := s.decodeBody?_body rest
  rw [encode_eq]
  simp only [magic, version, LittleEndian.ofNat, List.cons_append, List.nil_append, decode]
  rw [hb]
  rfl

end Nmos6502.Snapshot
