import Nmos6502.Word

/-! Numbers as bytes, the least significant first.

A number below `bound n` is `n` bytes and comes back from them (`toNat_ofNat`), and
any bytes come back from the number they are (`ofNat_toNat`). -/
namespace Nmos6502.LittleEndian

/-- The low `n` bytes of a number. -/
def ofNat : Nat → Nat → List Byte
  | 0, _ => []
  | n + 1, k => BitVec.ofNat 8 k :: ofNat n (k / 256)

/-- The number with these bytes. -/
def toNat : List Byte → Nat
  | [] => 0
  | b :: rest => b.toNat + 256 * toNat rest

/-- The least number that `n` bytes do not hold. -/
def bound : Nat → Nat
  | 0 => 1
  | n + 1 => 256 * bound n

@[simp] theorem length_ofNat (n k : Nat) : (ofNat n k).length = n := by
  induction n generalizing k with
  | zero => rfl
  | succ n ih => simp [ofNat, ih]

theorem toNat_lt (bytes : List Byte) : toNat bytes < bound bytes.length := by
  induction bytes with
  | nil => decide
  | cons b rest ih =>
    have := b.isLt
    simp only [toNat, List.length_cons, bound]
    omega

theorem toNat_ofNat {n k : Nat} (h : k < bound n) : toNat (ofNat n k) = k := by
  induction n generalizing k with
  | zero =>
    simp only [bound] at h
    simp only [ofNat, toNat]
    omega
  | succ n ih =>
    have : k / 256 < bound n := by
      simp only [bound] at h
      omega
    simp only [ofNat, toNat, ih this, BitVec.toNat_ofNat]
    omega

theorem ofNat_toNat (bytes : List Byte) : ofNat bytes.length (toNat bytes) = bytes := by
  induction bytes with
  | nil => rfl
  | cons b rest ih =>
    have hb := b.isLt
    have hdiv : (b.toNat + 256 * toNat rest) / 256 = toNat rest := by omega
    have hlow : BitVec.ofNat 8 (b.toNat + 256 * toNat rest) = b := by
      apply BitVec.eq_of_toNat_eq
      rw [BitVec.toNat_ofNat]
      omega
    simp only [List.length_cons, toNat, ofNat, hdiv, hlow, ih]

end Nmos6502.LittleEndian
