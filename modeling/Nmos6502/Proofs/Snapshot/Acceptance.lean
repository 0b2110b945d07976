import Nmos6502.Proofs.Snapshot.Codec

/-! Which bytes are a snapshot.

Three things decide: the magic, the version and the number of bytes. What is refused is
refused for the first of them that is wrong in the order the bytes come in (`refusal?`), so
bytes that end early are truncated only as far as what is there is right. What is accepted
is kept: written out again it is the bytes read, but for the six spare bits of the request
byte and whatever followed the memory (`Verdict`). -/
namespace Nmos6502.Snapshot

open BitVec (ofBool)

/-- The number in the four bytes after the magic. -/
def foundVersion (data : List Byte) : Nat := LittleEndian.toNat ((data.drop 4).take 4)

/-- What is wrong with bytes that are no snapshot, the first thing first. -/
def refusal? (data : List Byte) : Option DecodeError :=
  if data.length < 4 then some (.truncated ⟨size, data.length⟩)
  else if data.take 4 ≠ magic then some .badMagic
  else if data.length < 8 then some (.truncated ⟨size, data.length⟩)
  else if foundVersion data ≠ version then some (.unsupportedVersion (foundVersion data))
  else if data.length < size then some (.truncated ⟨size, data.length⟩)
  else none

/-- The bytes of a snapshot, cut off after the memory, with the spare request bits clear. -/
def canonical (data : List Byte) : List Byte := (data.take size).modify 20 (· &&& 3)

/-! ### Lengths -/

theorem length_body (s : Snapshot) : s.body.length = 21 + Memory.size := by
  simp only [body, List.length_append, List.length_cons, List.length_nil,
    LittleEndian.length_ofNat, Memory.length_toList]

theorem length_encode (s : Snapshot) : s.encode.length = size := by
  rw [encode_eq, List.length_append, List.length_append, length_body, LittleEndian.length_ofNat]
  rfl

/-! ### Fields -/

/-- As many bytes as a number is wide are the bytes of the number they make. -/
theorem ofNat_littleEndian (width : Nat) (bytes : List Byte)
    (h : LittleEndian.bound bytes.length = 1 <<< width) :
    LittleEndian.ofNat bytes.length (BitVec.ofNat width (LittleEndian.toNat bytes)).toNat =
      bytes := by
  have hlt := LittleEndian.toNat_lt bytes
  rw [h, Nat.one_shiftLeft] at hlt
  rw [BitVec.toNat_ofNat, Nat.mod_eq_of_lt hlt, LittleEndian.ofNat_toNat]

theorem ofNat_ofBytes (low high : Byte) :
    LittleEndian.ofNat 2 (Word.ofBytes low high).toNat = [low, high] := by
  have hl : BitVec.ofNat 8 (Word.ofBytes low high).toNat = low := by
    apply BitVec.eq_of_toNat_eq
    rw [Word.toNat_ofBytes, BitVec.toNat_ofNat]
    omega
  have hh : BitVec.ofNat 8 ((Word.ofBytes low high).toNat / 256) = high := by
    apply BitVec.eq_of_toNat_eq
    rw [Word.toNat_ofBytes, BitVec.toNat_ofNat]
    omega
  simp only [LittleEndian.ofNat, hl, hh]

/-- Only the two latches of a request byte are kept. -/
theorem requests_of_byte : ∀ b : Byte,
    0#6 ++ ofBool (b.isBitSet 1) ++ ofBool (b.isBitSet 0) = b &&& 3 := by
  decide

/-! ### What follows the version -/

theorem decodeBody?_of_short {body : List Byte} (h : body.length < 21 + Memory.size) :
    decodeBody? body = none := by
  unfold decodeBody?
  split
  · rename_i rest
    have hm : Memory.ofList (rest.take Memory.size) = .error _ :=
      dif_neg fun hl => by
        simp only [List.length_take, List.length_cons] at hl h
        omega
    rw [hm]
  · rfl

/-- Twenty-one bytes of fields and a memory are read, and written back but for the spare
request bits. -/
theorem decodeBody?_append {fields memory : List Byte} (hf : fields.length = 21)
    (hm : Memory.size ≤ memory.length) :
    ∃ s, decodeBody? (fields ++ memory) = some s ∧
      s.body = fields.modify 12 (· &&& 3) ++ memory.take Memory.size := by
  obtain ⟨cells, hc⟩ : ∃ cells, Memory.ofList (memory.take Memory.size) = .ok cells :=
    ⟨_, dif_pos (List.length_take_of_le hm)⟩
  match fields, hf with
  | [a, x, y, sp, pc₀, pc₁, status, left₀, left₁, left₂, left₃, opcode, requests, t₀, t₁, t₂, t₃,
      t₄, t₅, t₆, t₇], _ =>
    have hl := ofNat_littleEndian 32 [left₀, left₁, left₂, left₃] rfl
    have ht := ofNat_littleEndian 64 [t₀, t₁, t₂, t₃, t₄, t₅, t₆, t₇] rfl
    refine ⟨_, by simp only [List.cons_append, List.nil_append, decodeBody?, hc]; rfl, ?_⟩
    simp only [List.length_cons, List.length_nil] at hl ht
    simp only [body, Snapshot.requests, requests_of_byte, ofNat_ofBytes, hl, ht,
      Memory.toList_of_ofList hc]
    rfl

theorem decode_of_body {body : List Byte} {s : Snapshot} (h : decodeBody? body = some s) :
    decode (magic ++ (LittleEndian.ofNat 4 version ++ body)) = .ok s := by
  simp only [magic, version, LittleEndian.ofNat, List.cons_append, List.nil_append, decode]
  rw [h]
  rfl

theorem decode_of_no_body {body : List Byte} (h : decodeBody? body = none) :
    decode (magic ++ (LittleEndian.ofNat 4 version ++ body)) =
      .error (.truncated ⟨size, 8 + body.length⟩) := by
  simp only [magic, version, LittleEndian.ofNat, List.cons_append, List.nil_append, decode]
  rw [h]
  simp [LittleEndian.toNat]
  omega

/-! ### Bytes that are refused -/

theorem eq_magic_append {data : List Byte} (h : data.take 4 = magic) :
    data = magic ++ data.drop 4 := by
  rw [← h, List.take_append_drop]

theorem decode_of_lt_four {data : List Byte} (h : data.length < 4) :
    decode data = .error (.truncated ⟨size, data.length⟩) := by
  match data, h with
  | [], _ | [_], _ | [_, _], _ | [_, _, _], _ => rfl

theorem decode_of_magic_ne {data : List Byte} (h : 4 ≤ data.length) (hm : data.take 4 ≠ magic) :
    decode data = .error .badMagic := by
  match data, h with
  | _ :: _ :: _ :: _ :: _, _ => exact if_pos hm

theorem decode_of_lt_eight {data : List Byte} (hm : data.take 4 = magic) (h : data.length < 8) :
    decode data = .error (.truncated ⟨size, data.length⟩) := by
  rw [eq_magic_append hm]
  have hrest : (data.drop 4).length < 4 := by
    rw [List.length_drop]
    omega
  match data.drop 4, hrest with
  | [], _ | [_], _ | [_, _], _ | [_, _, _], _ => rfl

theorem decode_of_version_ne {data : List Byte} (hm : data.take 4 = magic) (h : 8 ≤ data.length)
    (hv : foundVersion data ≠ version) :
    decode data = .error (.unsupportedVersion (foundVersion data)) := by
  rw [eq_magic_append hm] at hv ⊢
  have hrest : 4 ≤ (data.drop 4).length := by
    rw [List.length_drop]
    omega
  match data.drop 4, hrest, hv with
  | _ :: _ :: _ :: _ :: _, _, hv => exact if_pos hv

/-! ### The verdict -/

theorem modify_append_of_lt {α : Type} (f : α → α) {l : List α} {i : Nat} (h : i < l.length)
    (r : List α) : (l ++ r).modify i f = l.modify i f ++ r := by
  induction l generalizing i with
  | nil => exact absurd h (Nat.not_lt_zero i)
  | cons a l ih =>
    cases i with
    | zero => rfl
    | succ i => simp [ih (Nat.lt_of_succ_lt_succ h)]

/-- What reading makes of bytes: it refuses them for what is wrong with them, or it reads a
snapshot, which is written as they are but for what reading ignores. -/
inductive Verdict (data : List Byte) : Prop where
  | refused (e : DecodeError) (reason : refusal? data = some e) (eq : decode data = .error e)
  | accepted (s : Snapshot) (fine : refusal? data = none) (eq : decode data = .ok s)
      (encode : s.encode = canonical data)

/-- With magic and version right, the number of bytes decides. -/
theorem verdict_of_version (body : List Byte) :
    Verdict (magic ++ (LittleEndian.ofNat 4 version ++ body)) := by
  have hlen : (magic ++ (LittleEndian.ofNat 4 version ++ body)).length = 8 + body.length := by
    simp [magic]
    omega
  have hr : refusal? (magic ++ (LittleEndian.ofNat 4 version ++ body)) =
      if 8 + body.length < size then some (.truncated ⟨size, 8 + body.length⟩) else none := by
    unfold refusal?
    rw [hlen, if_neg (by omega), if_neg (by simp [magic]), if_neg (by omega),
      if_neg (fun h => h rfl)]
  by_cases hb : 21 + Memory.size ≤ body.length
  · have hf : (body.take 21).length = 21 := List.length_take_of_le (by omega)
    have hm : Memory.size ≤ (body.drop 21).length := by
      rw [List.length_drop]
      omega
    obtain ⟨s, hs, he⟩ := decodeBody?_append hf hm
    rw [List.take_append_drop] at hs
    refine .accepted s (by rw [hr, if_neg (by unfold size headerSize; omega)])
      (decode_of_body hs) ?_
    have hc : canonical (magic ++ (LittleEndian.ofNat 4 version ++ body)) =
        magic ++ (LittleEndian.ofNat 4 version ++
          (body.take (21 + Memory.size)).modify 12 (· &&& 3)) := rfl
    have h12 : 12 < (body.take 21).length := by omega
    rw [encode_eq, hc, he, List.take_add, modify_append_of_lt _ h12]
  · have hd := decode_of_no_body (decodeBody?_of_short (Nat.lt_of_not_le hb))
    exact .refused _ (by rw [hr, if_pos (by unfold size headerSize; omega)]) hd

/-- Bytes with the right magic and version begin with them. -/
theorem eq_version_append {data : List Byte} (hm : data.take 4 = magic) (h : 8 ≤ data.length)
    (hv : foundVersion data = version) :
    data = magic ++ (LittleEndian.ofNat 4 version ++ data.drop 8) := by
  have hfour : ((data.drop 4).take 4).length = 4 := by
    rw [List.length_take, List.length_drop]
    omega
  have hn : LittleEndian.toNat ((data.drop 4).take 4) = version := hv
  have hb := LittleEndian.ofNat_toNat ((data.drop 4).take 4)
  rw [hfour, hn] at hb
  have hd : data.drop 8 = (data.drop 4).drop 4 := by rw [List.drop_drop]
  rw [hb, hd, List.take_append_drop]
  exact eq_magic_append hm

theorem verdict (data : List Byte) : Verdict data := by
  by_cases h4 : data.length < 4
  · exact .refused _ (if_pos h4) (decode_of_lt_four h4)
  by_cases hm : data.take 4 = magic
  · by_cases h8 : data.length < 8
    · exact .refused _ (by simp [refusal?, h4, hm, h8]) (decode_of_lt_eight hm h8)
    by_cases hv : foundVersion data = version
    · rw [eq_version_append hm (by omega) hv]
      exact verdict_of_version _
    · have hd := decode_of_version_ne hm (by omega) hv
      exact .refused _ (by simp [refusal?, h4, hm, h8, hv]) hd
  · exact .refused .badMagic (by simp [refusal?, h4, hm]) (decode_of_magic_ne (by omega) hm)

theorem refusal?_eq_none_iff {data : List Byte} :
    refusal? data = none ↔ size ≤ data.length ∧ data.take 4 = magic ∧ foundVersion data = 1 := by
  have hsize : size = 65565 := rfl
  have hversion : version = 1 := rfl
  grind [refusal?]

/-- **The snapshot codec is exact.** A snapshot is written in 65,565 bytes and read back from
them whatever follows. Bytes are read exactly when there are so many and they begin with the
magic and version one, and written back they are the same as far as the memory goes, but for
the spare bits of the request byte. All other bytes are refused, for the first thing that is
wrong with them. -/
theorem codec_exact :
    size = 65565 ∧
    (∀ (s : Snapshot) (rest : List Byte),
      s.encode.length = size ∧ decode (s.encode ++ rest) = .ok s) ∧
    ∀ data : List Byte,
      ((∃ s, decode data = .ok s) ↔
        size ≤ data.length ∧ data.take 4 = magic ∧ foundVersion data = 1) ∧
      (∀ s, decode data = .ok s → s.encode = (data.take size).modify 20 (· &&& 3)) ∧
      ∀ e, decode data = .error e ↔ refusal? data = some e := by
  refine ⟨rfl, fun s rest => ⟨s.length_encode, s.decode_encode_append rest⟩, fun data => ?_⟩
  rw [← refusal?_eq_none_iff]
  cases verdict data with
  | refused e reason eq =>
    simp [reason, eq]
  | accepted s fine eq encode =>
    simp [fine, eq, encode, canonical]

end Nmos6502.Snapshot
