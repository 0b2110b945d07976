import Nmos6502.Proofs.Arithmetic.Chain

/-! Binary numbers of many bytes.

Without the decimal flag a chain of sums or differences is exact to the base 256, and its last
flags tell about the numbers as a whole. In two's complement (`Numeral.signed`) the overflow flag
says that the exact result is out of range and the negative flag is the sign of the bytes left
(`Alu.Operation.overflow_chain`, `Alu.Operation.negative_chain`): what a chain adds below its last
byte is less than one unit there, so neither can come from it. After a difference without a borrow
to start with the flags compare the two numbers, the carry without signs and the other two
with them. -/
namespace Nmos6502

namespace Numeral

/-- The bytes as a number in two's complement. -/
def signed (bytes : List Byte) : Int :=
  if 2 * binary.value bytes < 256 ^ bytes.length then binary.value bytes
  else binary.value bytes - 256 ^ bytes.length

/-- A number is one of so many bytes in two's complement. -/
def Fits (length : Nat) (v : Int) : Prop := -256 ^ length ≤ 2 * v ∧ 2 * v < 256 ^ length

theorem binary_valid (bytes : List Byte) : binary.Valid bytes := fun _ _ => trivial

theorem signed_cases (bytes : List Byte) :
    signed bytes = binary.value bytes ∨
      signed bytes = binary.value bytes - 256 ^ bytes.length := by
  unfold signed
  split
  · exact .inl rfl
  · exact .inr rfl

theorem fits_signed (bytes : List Byte) : Fits bytes.length (signed bytes) := by
  have hlt : (binary.value bytes : Int) < 256 ^ bytes.length := by
    exact_mod_cast value_lt (binary_valid bytes)
  unfold signed Fits
  split <;> rename_i h
  · have : 2 * (binary.value bytes : Int) < 256 ^ bytes.length := by exact_mod_cast h
    omega
  · have : 256 ^ bytes.length ≤ 2 * (binary.value bytes : Int) := by exact_mod_cast Nat.not_lt.mp h
    omega

theorem signed_singleton (b : Byte) : signed [b] = b.toInt := by
  have hb := b.isLt
  have hv : binary.value [b] = b.toNat := rfl
  rw [signed, hv, BitVec.toInt_eq_toNat_cond]
  rfl

/-- The sign is that of the bytes above, if there are any. -/
theorem signed_cons (b : Byte) {bytes : List Byte} (h : bytes ≠ []) :
    signed (b :: bytes) = b.toNat + 256 * signed bytes := by
  obtain ⟨c, rest, rfl⟩ := List.exists_cons_of_ne_nil h
  have hb := b.isLt
  have hv : binary.value (b :: c :: rest) = b.toNat + 256 * binary.value (c :: rest) := rfl
  simp only [signed, hv, List.length_cons, pow_succ]
  split <;> split <;> push_cast <;> omega

/-- What is added below the bytes above does not matter to the range. -/
theorem fits_cons {length : Nat} (h : length ≠ 0) {r v : Int} (h0 : 0 ≤ r) (hr : r < 256) :
    Fits (length + 1) (r + 256 * v) ↔ Fits length v := by
  obtain ⟨k, rfl⟩ := Nat.exists_eq_succ_of_ne_zero h
  simp only [Fits, Nat.succ_eq_add_one, pow_succ]
  constructor <;> intro ⟨_, _⟩ <;> constructor <;> omega

end Numeral

namespace Alu.Operation

open Numeral (binary signed Fits)

variable {o : Operation} {flags : Flags} {a b : Byte} {xs ys : List Byte}

/-! ### The last byte -/

/-- A binary sum overflows when it is out of range. -/
theorem overflow_addBinary (flags : Flags) (a b : Byte) :
    (addBinary flags a b).flags.overflow = true ↔
      ¬Fits 1 (a.toInt + b.toInt + flags.carry.toNat) := by
  have ha := a.isLt
  have hb := b.isLt
  have hv := (addBinary flags a b).value.isLt
  have hsum := toNat_addBinary flags a b
  have hcarry := (addBinary flags a b).flags.carry.toNat_le
  have hc := flags.carry.toNat_le
  -- signs differ when the top bits do
  have hsigns (x y : Byte) : (x ^^^ y).msb = true ↔ (128 ≤ x.toNat ↔ ¬128 ≤ y.toNat) := by
    rw [BitVec.msb_xor, BitVec.msb_eq_decide, BitVec.msb_eq_decide, bne_iff_ne, ne_eq,
      decide_eq_decide]
    show ¬(128 ≤ _ ↔ 128 ≤ _) ↔ _
    omega
  have hoverflow : (addBinary flags a b).flags.overflow =
      ((a ^^^ (addBinary flags a b).value) &&& (b ^^^ (addBinary flags a b).value)).msb := rfl
  rw [hoverflow, BitVec.msb_and, Bool.and_eq_true, hsigns, hsigns, Fits, BitVec.toInt_eq_toNat_cond,
    BitVec.toInt_eq_toNat_cond]
  split <;> split <;> omega

theorem toInt_not (b : Byte) : (~~~b).toInt = -1 - b.toInt := by
  have hb := b.isLt
  rw [BitVec.toInt_eq_toNat_cond, BitVec.toInt_eq_toNat_cond, BitVec.toNat_not]
  split <;> split <;> omega

theorem overflow_run (o : Operation) (hd : flags.decimal = false) (a b : Byte) :
    (o.run flags a b).flags.overflow = true ↔
      ¬Fits 1 (o.exact a.toInt b.toInt flags.carry) := by
  cases o with
  | sum =>
    rw [run_sum hd]
    exact overflow_addBinary flags a b
  | difference =>
    have h : difference.exact a.toInt b.toInt flags.carry =
        a.toInt + (~~~b).toInt + flags.carry.toNat := by
      rw [toInt_not]
      simp only [exact]
      cases flags.carry <;> simp only [Bool.not_false, Bool.not_true, Bool.toNat_false,
        Bool.toNat_true] <;> omega
    rw [run_difference hd, h]
    exact overflow_addBinary flags a (~~~b)

theorem negative_run (o : Operation) (hd : flags.decimal = false) (a b : Byte) :
    (o.run flags a b).flags.negative = true ↔ (o.run flags a b).value.toInt < 0 := by
  have h : (o.run flags a b).flags.negative = (o.run flags a b).value.msb := by
    cases o with
    | sum =>
      rw [run_sum hd]
      rfl
    | difference =>
      rw [run_difference hd]
      rfl
  rw [h, BitVec.msb_eq_toInt, decide_eq_true_iff]

/-! ### The flags of a chain -/

/-- What the bytes above make of the first step's carry. -/
theorem exact_signed_cons (o : Operation) (hd : flags.decimal = false) (a b : Byte)
    (hx : xs ≠ []) (hy : ys ≠ []) :
    o.exact (signed (a :: xs)) (signed (b :: ys)) flags.carry =
      (o.run flags a b).value.toNat +
        256 * o.exact (signed xs) (signed ys) (o.run flags a b).flags.carry := by
  rw [Numeral.signed_cons a hx, Numeral.signed_cons b hy]
  exact o.exact_cons (o.step_binary hd a b) (signed xs) (signed ys)

theorem overflow_chain (o : Operation) (hd : flags.decimal = false)
    (hlen : xs.length = ys.length) (hne : xs ≠ []) :
    (o.chain flags xs ys).2.overflow = true ↔
      ¬Fits xs.length (o.exact (signed xs) (signed ys) flags.carry) := by
  induction xs generalizing flags ys with
  | nil => exact absurd rfl hne
  | cons a xs ih =>
    obtain ⟨b, ys, rfl⟩ := List.exists_cons_of_length_eq_add_one hlen.symm
    have hlen : xs.length = ys.length := Nat.succ.inj hlen
    by_cases hx : xs = []
    · subst hx
      obtain rfl := List.length_eq_zero_iff.mp hlen.symm
      rw [Numeral.signed_singleton, Numeral.signed_singleton]
      exact o.overflow_run hd a b
    · have hy : ys ≠ [] := by
        rintro rfl
        exact hx (List.length_eq_zero_iff.mp hlen)
      have hlow := (o.run flags a b).value.isLt
      rw [o.exact_signed_cons hd a b hx hy, List.length_cons,
        Numeral.fits_cons (mt List.length_eq_zero_iff.mp hx) (by omega) (by omega)]
      exact ih ((o.decimal_run flags a b).trans hd) hlen hx

theorem negative_chain (o : Operation) (hd : flags.decimal = false)
    (hlen : xs.length = ys.length) (hne : xs ≠ []) :
    (o.chain flags xs ys).2.negative = true ↔ signed (o.chain flags xs ys).1 < 0 := by
  induction xs generalizing flags ys with
  | nil => exact absurd rfl hne
  | cons a xs ih =>
    obtain ⟨b, ys, rfl⟩ := List.exists_cons_of_length_eq_add_one hlen.symm
    have hlen : xs.length = ys.length := Nat.succ.inj hlen
    have hrest := o.length_chain (o.run flags a b).flags hlen
    by_cases hx : xs = []
    · subst hx
      rw [show o.chain flags [a] (b :: ys) = ([(o.run flags a b).value], (o.run flags a b).flags)
        from rfl, Numeral.signed_singleton]
      exact o.negative_run hd a b
    · have hne : (o.chain (o.run flags a b).flags xs ys).1 ≠ [] := by
        intro h
        rw [h] at hrest
        exact hx (List.length_eq_zero_iff.mp hrest.symm)
      have hlow := (o.run flags a b).value.isLt
      have h := ih ((o.decimal_run flags a b).trans hd) hlen hx
      simp only [chain]
      rw [h, Numeral.signed_cons _ hne]
      omega

/-! ### Comparisons -/

/-- The bytes of a binary chain are below what its carry counts. -/
theorem value_chain_lt (o : Operation) (flags : Flags) (hlen : xs.length = ys.length) :
    (binary.value (o.chain flags xs ys).1 : Int) < 256 ^ xs.length := by
  have h := Numeral.value_lt (Numeral.binary_valid (o.chain flags xs ys).1)
  rw [o.length_chain flags hlen] at h
  exact_mod_cast h

theorem binary_difference (hd : flags.decimal = false) (hlen : xs.length = ys.length) :
    (binary.value (difference.chain flags xs ys).1 : Int) -
        256 ^ xs.length * (!(difference.chain flags xs ys).2.carry).toNat =
      binary.value xs - binary.value ys - (!flags.carry).toNat :=
  value_difference hd hlen (Numeral.binary_valid xs) (Numeral.binary_valid ys)

/-- Without a borrow to start with, none is left when the second number is not the greater. -/
theorem carry_difference (hd : flags.decimal = false) (hc : flags.carry = true)
    (hlen : xs.length = ys.length) :
    (difference.chain flags xs ys).2.carry = true ↔ binary.value ys ≤ binary.value xs := by
  have h := binary_difference hd hlen
  have hr := difference.value_chain_lt flags hlen
  rw [hc] at h
  cases hcarry : (difference.chain flags xs ys).2.carry <;> rw [hcarry] at h <;> simp at h ⊢ <;>
    omega

/-- The bytes left are the exact difference, or one turn away from it. -/
theorem signed_difference (hd : flags.decimal = false) (hc : flags.carry = true)
    (hlen : xs.length = ys.length) :
    signed (difference.chain flags xs ys).1 = signed xs - signed ys ∨
      signed (difference.chain flags xs ys).1 = signed xs - signed ys + 256 ^ xs.length ∨
      signed (difference.chain flags xs ys).1 = signed xs - signed ys - 256 ^ xs.length := by
  have hlength := difference.length_chain flags hlen
  have hbytes := Numeral.signed_cases (difference.chain flags xs ys).1
  have hfits := Numeral.fits_signed (difference.chain flags xs ys).1
  have hx := Numeral.signed_cases xs
  have hxfits := Numeral.fits_signed xs
  have hy := Numeral.signed_cases ys
  have hyfits := Numeral.fits_signed ys
  have h := binary_difference hd hlen
  rw [hlength] at hbytes hfits
  rw [← hlen] at hy hyfits
  rw [hc] at h
  unfold Fits at hfits hxfits hyfits
  cases hcarry : (difference.chain flags xs ys).2.carry <;> rw [hcarry] at h <;> simp at h <;>
    omega

/-- Overflow turns the sign of a difference round, so the two flags together compare the numbers in
two's complement. -/
theorem sign_difference (hd : flags.decimal = false) (hc : flags.carry = true)
    (hlen : xs.length = ys.length) (hne : xs ≠ []) :
    ((difference.chain flags xs ys).2.negative ≠ (difference.chain flags xs ys).2.overflow) ↔
      signed xs < signed ys := by
  have hexact : difference.exact (signed xs) (signed ys) flags.carry = signed xs - signed ys := by
    simp [exact, hc]
  have hturn := signed_difference hd hc hlen
  have hfits := Numeral.fits_signed (difference.chain flags xs ys).1
  have hx := Numeral.fits_signed xs
  have hy := Numeral.fits_signed ys
  rw [difference.length_chain flags hlen] at hfits
  rw [← hlen] at hy
  rw [ne_eq, Bool.eq_iff_iff, difference.negative_chain hd hlen hne,
    difference.overflow_chain hd hlen hne, hexact]
  unfold Fits at hfits hx hy ⊢
  omega

/-- A comparison is a binary difference without a borrow, but for the overflow flag. -/
theorem compare_eq (hd : flags.decimal = false) (a b : Byte) :
    compare flags a b =
      {(subtract {flags with carry := true} a b).flags with overflow := flags.overflow} := by
  let start : Flags := {flags with carry := true}
  have hstart : start.decimal = false := hd
  have hrun : subtract start a b = addBinary start a (~~~b) := run_difference hstart a b
  have hvalue : (addBinary start a (~~~b)).value = a - b := by
    rw [value_addBinary_not]
    exact BitVec.sub_zero (a - b)
  have hcarry : (addBinary start a (~~~b)).flags.carry = decide (b ≤ a) := by
    have hb := b.isLt
    show decide (0xFF < a.toNat + (~~~b).toNat + 1) = _
    rw [decide_eq_decide, BitVec.toNat_not, BitVec.le_def]
    omega
  show {flags.withResult (a - b) with carry := decide (b ≤ a)} = _
  rw [hrun, ← hvalue, ← hcarry]
  rfl

/-! ### Sums and differences as a whole -/

/-- What a chain of binary sums leaves: the sum of the numbers, and its range and sign. -/
structure BinarySum (flags : Flags) (xs ys : List Byte) : Prop where
  length : (sum.chain flags xs ys).1.length = xs.length
  value : binary.value (sum.chain flags xs ys).1 +
      256 ^ xs.length * (sum.chain flags xs ys).2.carry.toNat =
    binary.value xs + binary.value ys + flags.carry.toNat
  overflow : (sum.chain flags xs ys).2.overflow = true ↔
    ¬Fits xs.length (signed xs + signed ys + flags.carry.toNat)
  negative : (sum.chain flags xs ys).2.negative = true ↔ signed (sum.chain flags xs ys).1 < 0

/-- What a chain of binary differences leaves: the difference of the numbers, its range and sign,
and which of the numbers is the greater. -/
structure BinaryDifference (flags : Flags) (xs ys : List Byte) : Prop where
  length : (difference.chain flags xs ys).1.length = xs.length
  value : (binary.value (difference.chain flags xs ys).1 : Int) -
      256 ^ xs.length * (!(difference.chain flags xs ys).2.carry).toNat =
    binary.value xs - binary.value ys - (!flags.carry).toNat
  overflow : (difference.chain flags xs ys).2.overflow = true ↔
    ¬Fits xs.length (signed xs - signed ys - (!flags.carry).toNat)
  negative : (difference.chain flags xs ys).2.negative = true ↔
    signed (difference.chain flags xs ys).1 < 0
  compares : flags.carry = true →
    ((difference.chain flags xs ys).2.carry = true ↔ binary.value ys ≤ binary.value xs)
  comparesSigned : flags.carry = true →
    ((difference.chain flags xs ys).2.negative ≠ (difference.chain flags xs ys).2.overflow ↔
      signed xs < signed ys)

/-- **Binary arithmetic is exact at any length.** Sums and differences of numbers of as many bytes
as one likes come out of the steps on their bytes, and the last flags tell about the numbers as a
whole; a step of a difference is one of a sum with the complement, and a comparison is a step of a
difference that leaves the accumulator and the overflow flag alone. -/
theorem binary_exact {flags : Flags} (hd : flags.decimal = false) {xs ys : List Byte}
    (hlen : xs.length = ys.length) (hne : xs ≠ []) :
    BinarySum flags xs ys ∧ BinaryDifference flags xs ys ∧
    (∀ a b, subtract flags a b = add flags a (~~~b)) ∧
    ∀ a b, compare flags a b =
      {(subtract {flags with carry := true} a b).flags with overflow := flags.overflow} := by
  refine ⟨⟨sum.length_chain flags hlen, ?_, sum.overflow_chain hd hlen hne,
      sum.negative_chain hd hlen hne⟩,
    ⟨difference.length_chain flags hlen, binary_difference hd hlen,
      difference.overflow_chain hd hlen hne, difference.negative_chain hd hlen hne,
      fun hc => carry_difference hd hc hlen, fun hc => sign_difference hd hc hlen hne⟩,
    fun a b => ?_, compare_eq hd⟩
  · exact value_sum hd hlen (Numeral.binary_valid xs) (Numeral.binary_valid ys)
  · exact (run_difference hd a b).trans (run_sum hd a (~~~b)).symm

/-- The greatest word in two's complement less the least one: unsigned it is the lesser, so the
carry is clear, and signed the difference is out of range. -/
theorem widest_difference :
    let start := {Flags.clear with carry := true}
    BinaryDifference start [0xFF, 0x7F] [0x00, 0x80] ∧
    difference.chain start [0xFF, 0x7F] [0x00, 0x80] =
      ([0xFF, 0xFF], {Flags.clear with overflow := true, negative := true}) ∧
    signed [0xFF, 0x7F] - signed [0x00, 0x80] = 65535 ∧ ¬Fits 2 65535 := by
  intro start
  have hd : start.decimal = false := rfl
  have hlen : ([0xFF, 0x7F] : List Byte).length = ([0x00, 0x80] : List Byte).length := rfl
  obtain ⟨-, h, -⟩ := binary_exact hd hlen (by decide)
  have hrun : difference.chain start [0xFF, 0x7F] [0x00, 0x80] =
      ([0xFF, 0xFF], {Flags.clear with overflow := true, negative := true}) := by
    decide
  have hexact : signed [0xFF, 0x7F] - signed [0x00, 0x80] = 65535 := by
    decide
  have hrange := h.overflow.mp (congrArg (fun r => r.2.overflow) hrun)
  exact ⟨h, hrun, hexact, fun hfits => hrange (hexact ▸ hfits)⟩

end Alu.Operation

end Nmos6502
