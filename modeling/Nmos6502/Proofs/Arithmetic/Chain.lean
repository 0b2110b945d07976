import Mathlib.Data.Nat.Digits.Lemmas
import Mathlib.Tactic.LinearCombination
import Nmos6502.Proofs.RegisterFrame

/-! Numbers of many bytes, added and subtracted byte by byte.

A number is a list of bytes, the least significant first, read in one of two ways (`Numeral`): a
byte is a digit to the base 256, or a pair of decimal digits. Which of them a sum or difference
goes by is for the decimal flag to say. Taking the bytes in turn and leaving the carry of each
step to the next (`Alu.Operation.chain`) adds or subtracts the numbers: what one step does to two
digits and the carry (`Alu.Operation.step_exact`), the chain does to the numbers and the carry it
starts from (`Alu.Operation.chain_exact`). As numbers of one length are told apart by their values,
a difference takes back a sum (`Alu.Operation.difference_chain_sum`). -/
namespace Nmos6502

/-- A way to read bytes as digits. -/
structure Numeral where
  base : Nat
  IsDigit : Byte → Prop
  digit : Byte → Nat
  one_lt_base : 1 < base
  digit_lt : ∀ {b}, IsDigit b → digit b < base
  digit_inj : ∀ {a b}, IsDigit a → IsDigit b → digit a = digit b → a = b

theorem Byte.decimal_lt {b : Byte} (h : b.IsDecimal) : b.decimal < 100 := by
  obtain ⟨hhigh, hlow⟩ := h
  rw [decimal]
  omega

theorem Byte.decimal_inj {a b : Byte} (ha : a.IsDecimal) (hb : b.IsDecimal)
    (h : a.decimal = b.decimal) : a = b := by
  rw [← ofDecimal_decimal a ha, h, ofDecimal_decimal b hb]

namespace Numeral

/-- Every byte a digit. -/
def binary : Numeral where
  base := 256
  IsDigit _ := True
  digit := BitVec.toNat
  one_lt_base := by decide
  digit_lt _ := BitVec.isLt _
  digit_inj _ _ := BitVec.eq_of_toNat_eq

/-- Two decimal digits to a byte. -/
def packed : Numeral where
  base := 100
  IsDigit := Byte.IsDecimal
  digit := Byte.decimal
  one_lt_base := by decide
  digit_lt := Byte.decimal_lt
  digit_inj := Byte.decimal_inj

/-- The numeral that sums and differences go by under a decimal flag. -/
def under : (decimal : Bool) → Numeral
  | false => binary
  | true => packed

/-- All bytes are digits. -/
def Valid (n : Numeral) (bytes : List Byte) : Prop := ∀ b ∈ bytes, n.IsDigit b

instance : DecidablePred packed.IsDigit := inferInstanceAs (DecidablePred Byte.IsDecimal)

instance (n : Numeral) [DecidablePred n.IsDigit] (bytes : List Byte) : Decidable (n.Valid bytes) :=
  inferInstanceAs (Decidable (∀ b ∈ bytes, n.IsDigit b))

/-- The number with these bytes, the least significant first. -/
def value (n : Numeral) (bytes : List Byte) : Nat := Nat.ofDigits n.base (bytes.map n.digit)

variable {n : Numeral}

@[simp] theorem value_nil : n.value [] = 0 := rfl

@[simp] theorem value_cons (b : Byte) (bytes : List Byte) :
    n.value (b :: bytes) = n.digit b + n.base * n.value bytes := rfl

theorem value_lt {bytes : List Byte} (h : n.Valid bytes) :
    n.value bytes < n.base ^ bytes.length := by
  have hlt : ∀ d ∈ bytes.map n.digit, d < n.base := by
    rintro _ hd
    obtain ⟨b, hb, rfl⟩ := List.mem_map.mp hd
    exact n.digit_lt (h b hb)
  have := Nat.ofDigits_lt_base_pow_length n.one_lt_base hlt
  rwa [List.length_map] at this

/-- Numbers of one length that are equal have equal bytes. -/
theorem value_inj {xs ys : List Byte} (hx : n.Valid xs) (hy : n.Valid ys)
    (hlen : xs.length = ys.length) (h : n.value xs = n.value ys) : xs = ys := by
  induction xs generalizing ys with
  | nil => exact (List.length_eq_zero_iff.mp hlen.symm).symm
  | cons a xs ih =>
    obtain ⟨b, ys, rfl⟩ := List.exists_cons_of_length_eq_add_one hlen.symm
    obtain ⟨ha, hx⟩ := List.forall_mem_cons.mp hx
    obtain ⟨hb, hy⟩ := List.forall_mem_cons.mp hy
    rw [value_cons, value_cons] at h
    have hdigit : n.digit a = n.digit b := by
      have := congrArg (· % n.base) h
      simpa [Nat.mod_eq_of_lt (n.digit_lt ha), Nat.mod_eq_of_lt (n.digit_lt hb)] using this
    have hvalue : n.value xs = n.value ys := by
      rw [hdigit, Nat.add_left_cancel_iff] at h
      exact Nat.eq_of_mul_eq_mul_left (Nat.zero_lt_of_lt n.one_lt_base) h
    rw [n.digit_inj ha hb hdigit, ih hx hy (Nat.succ.inj hlen) hvalue]

end Numeral

namespace Alu

inductive Operation where
  | sum
  | difference
deriving DecidableEq, Repr

namespace Operation

def run : Operation → Flags → Byte → Byte → Result
  | sum => add
  | difference => subtract

/-- What a carry counts: one more in a sum, and in a difference one less while it is clear. -/
def weigh (carry : Bool) : Operation → Int
  | sum => carry.toNat
  | difference => -(!carry).toNat

/-- The sum or difference of two integers and a carry. -/
def exact (x y : Int) (carry : Bool) : Operation → Int
  | sum => x + y + carry.toNat
  | difference => x - y - (!carry).toNat

/-- Take two numbers byte by byte, each step with the flags of the one before it. -/
def chain (o : Operation) (flags : Flags) : List Byte → List Byte → List Byte × Flags
  | a :: as, b :: bs =>
    let r := o.run flags a b
    let rest := o.chain r.flags as bs
    (r.value :: rest.1, rest.2)
  | _, _ => ([], flags)

variable {o : Operation} {flags : Flags} {a b : Byte} {xs ys : List Byte}

/-! ### Steps -/

theorem decimal_run (o : Operation) (flags : Flags) (a b : Byte) :
    (o.run flags a b).flags.decimal = flags.decimal := by
  cases o with
  | sum => exact (shows_add flags a b).decimal
  | difference => exact (shows_subtract flags a b).decimal

/-- A binary sum and its carry are the sum of the bytes and the carry before. -/
theorem toNat_addBinary (flags : Flags) (a b : Byte) :
    (addBinary flags a b).value.toNat + 256 * (addBinary flags a b).flags.carry.toNat =
      a.toNat + b.toNat + flags.carry.toNat := by
  let sum := a.toNat + b.toNat + flags.carry.toNat
  have hlt : sum < 512 := by
    have := flags.carry.toNat_le
    omega
  have hvalue : (addBinary flags a b).value.toNat = sum % 256 := BitVec.toNat_ofNat _ _
  have hcarry : (addBinary flags a b).flags.carry.toNat = sum / 256 := by
    show (decide (0xFF < sum)).toNat = _
    by_cases h : 0xFF < sum
    · rw [decide_eq_true h, Bool.toNat_true]
      omega
    · rw [decide_eq_false h, Bool.toNat_false]
      omega
  rw [hvalue, hcarry]
  exact Nat.mod_add_div sum 256

theorem run_sum (hd : flags.decimal = false) (a b : Byte) :
    sum.run flags a b = addBinary flags a b := by
  simp [run, add, hd]

/-- A binary difference is the sum with the complement. -/
theorem run_difference (hd : flags.decimal = false) (a b : Byte) :
    difference.run flags a b = addBinary flags a (~~~b) := by
  simp [run, subtract, hd]

/-- A sum of packed digits has the byte and the carry from these, and its other flags from the
binary sum. -/
theorem run_sum_packed (hd : flags.decimal = true) (a b : Byte) :
    sum.run flags a b =
      let total := a.decimal + b.decimal + flags.carry.toNat
      ⟨.ofDecimal total, {(addBinary flags a b).flags with carry := 99 < total}⟩ := by
  simp [run, add, hd]

theorem run_difference_packed (hd : flags.decimal = true) (a b : Byte) :
    difference.run flags a b =
      let total : Int := a.decimal - b.decimal - (!flags.carry).toNat
      ⟨.ofDecimal (total % 100).toNat,
        {(addBinary flags a (~~~b)).flags with carry := 0 ≤ total}⟩ := by
  simp [run, subtract, hd]

theorem step_binary (o : Operation) (hd : flags.decimal = false) (a b : Byte) :
    ((o.run flags a b).value.toNat : Int) + 256 * o.weigh (o.run flags a b).flags.carry =
      o.exact a.toNat b.toNat flags.carry := by
  cases o with
  | sum =>
    have := toNat_addBinary flags a b
    rw [run_sum hd]
    simp only [weigh, exact]
    omega
  | difference =>
    have h := toNat_addBinary flags a (~~~b)
    have hb := b.isLt
    rw [BitVec.toNat_not] at h
    rw [run_difference hd]
    simp only [weigh, exact]
    cases hc : flags.carry <;> cases hr : (addBinary flags a (~~~b)).flags.carry <;>
      simp only [hc, hr, Bool.toNat_false, Bool.toNat_true, Bool.not_false, Bool.not_true] at h ⊢
    all_goals omega

/-- Packed digits are summed and carried to the base one hundred. -/
theorem step_packed (o : Operation) (hd : flags.decimal = true) (ha : a.IsDecimal)
    (hb : b.IsDecimal) :
    ((o.run flags a b).value.decimal : Int) + 100 * o.weigh (o.run flags a b).flags.carry =
      o.exact a.decimal b.decimal flags.carry := by
  have hx := Byte.decimal_lt ha
  have hy := Byte.decimal_lt hb
  have hc := flags.carry.toNat_le
  cases o with
  | sum =>
    let total := a.decimal + b.decimal + flags.carry.toNat
    rw [run_sum_packed hd, Byte.decimal_ofDecimal]
    show ((total % 100 : Nat) : Int) + 100 * ((decide (99 < total)).toNat : Int) = (total : Int)
    by_cases h : 99 < total
    · rw [decide_eq_true h, Bool.toNat_true]
      omega
    · rw [decide_eq_false h, Bool.toNat_false]
      omega
  | difference =>
    let total : Int := a.decimal - b.decimal - (!flags.carry).toNat
    have hborrow := (!flags.carry).toNat_le
    rw [run_difference_packed hd, Byte.decimal_ofDecimal]
    show (((total % 100).toNat % 100 : Nat) : Int) + 100 * -((!decide (0 ≤ total)).toNat : Int) =
      total
    by_cases h : 0 ≤ total
    · rw [decide_eq_true h, Bool.not_true, Bool.toNat_false]
      omega
    · rw [decide_eq_false h, Bool.not_false, Bool.toNat_true]
      omega

/-- A step under the decimal flag leaves a pair of digits, whatever the bytes it takes. -/
theorem isDecimal_run (o : Operation) (hd : flags.decimal = true) (a b : Byte) :
    (o.run flags a b).value.IsDecimal := by
  cases o <;> simp [run, add, subtract, hd, Byte.isDecimal_ofDecimal]

theorem isDigit_run (o : Operation) {d : Bool} (hd : flags.decimal = d) (a b : Byte) :
    (Numeral.under d).IsDigit (o.run flags a b).value := by
  cases d with
  | false => trivial
  | true => exact isDecimal_run o hd a b

/-- **A step is exact**: the digit it leaves and what its carry counts are the sum or difference
of the two digits and the carry before. -/
theorem step_exact (o : Operation) {d : Bool} (hd : flags.decimal = d)
    (ha : (Numeral.under d).IsDigit a) (hb : (Numeral.under d).IsDigit b) :
    ((Numeral.under d).digit (o.run flags a b).value : Int) +
        (Numeral.under d).base * o.weigh (o.run flags a b).flags.carry =
      o.exact ((Numeral.under d).digit a) ((Numeral.under d).digit b) flags.carry := by
  cases d with
  | false => exact step_binary o hd a b
  | true => exact step_packed o hd ha hb

/-! ### Chains -/

theorem length_chain (o : Operation) (flags : Flags) (hlen : xs.length = ys.length) :
    (o.chain flags xs ys).1.length = xs.length := by
  induction xs generalizing flags ys with
  | nil => rfl
  | cons a xs ih =>
    obtain ⟨b, ys, rfl⟩ := List.exists_cons_of_length_eq_add_one hlen.symm
    exact congrArg (· + 1) (ih (o.run flags a b).flags (Nat.succ.inj hlen))

theorem valid_chain (o : Operation) {d : Bool} (hd : flags.decimal = d) (xs ys : List Byte) :
    (Numeral.under d).Valid (o.chain flags xs ys).1 := by
  induction xs generalizing flags ys with
  | nil => exact fun _ h => absurd h List.not_mem_nil
  | cons a xs ih =>
    cases ys with
    | nil => exact fun _ h => absurd h List.not_mem_nil
    | cons b ys =>
      exact List.forall_mem_cons.mpr
        ⟨isDigit_run o hd a b, ih ((decimal_run o flags a b).trans hd) ys⟩

/-- What is done to two numbers is done to their first digits and, with the carry of these, to
the rest. -/
theorem exact_cons (o : Operation) {base x y r : Int} {carry next : Bool}
    (h : r + base * o.weigh next = o.exact x y carry) (xs ys : Int) :
    o.exact (x + base * xs) (y + base * ys) carry = r + base * o.exact xs ys next := by
  cases o with
  | sum =>
    simp only [exact, weigh] at h ⊢
    linear_combination -h
  | difference =>
    simp only [exact, weigh] at h ⊢
    linear_combination -h

/-- **A chain is exact**: the number it leaves and what its carry counts are the sum or difference
of the two numbers and the carry it starts from. -/
theorem chain_exact (o : Operation) {d : Bool} (hd : flags.decimal = d)
    (hlen : xs.length = ys.length) (hx : (Numeral.under d).Valid xs)
    (hy : (Numeral.under d).Valid ys) :
    ((Numeral.under d).value (o.chain flags xs ys).1 : Int) +
        (Numeral.under d).base ^ xs.length * o.weigh (o.chain flags xs ys).2.carry =
      o.exact ((Numeral.under d).value xs) ((Numeral.under d).value ys) flags.carry := by
  induction xs generalizing flags ys with
  | nil =>
    obtain rfl := List.length_eq_zero_iff.mp hlen.symm
    cases o <;> simp [chain, weigh, exact]
  | cons a xs ih =>
    obtain ⟨b, ys, rfl⟩ := List.exists_cons_of_length_eq_add_one hlen.symm
    obtain ⟨ha, hx⟩ := List.forall_mem_cons.mp hx
    obtain ⟨hb, hy⟩ := List.forall_mem_cons.mp hy
    have hstep := step_exact o hd ha hb
    have hrest := ih ((decimal_run o flags a b).trans hd) (Nat.succ.inj hlen) hx hy
    simp only [chain, Numeral.value_cons, List.length_cons, pow_succ, Nat.cast_add, Nat.cast_mul]
    rw [exact_cons o hstep, ← hrest]
    ring

theorem value_sum {d : Bool} (hd : flags.decimal = d) (hlen : xs.length = ys.length)
    (hx : (Numeral.under d).Valid xs) (hy : (Numeral.under d).Valid ys) :
    (Numeral.under d).value (sum.chain flags xs ys).1 +
        (Numeral.under d).base ^ xs.length * (sum.chain flags xs ys).2.carry.toNat =
      (Numeral.under d).value xs + (Numeral.under d).value ys + flags.carry.toNat := by
  have h := sum.chain_exact hd hlen hx hy
  simp only [weigh, exact] at h
  exact_mod_cast h

theorem value_difference {d : Bool} (hd : flags.decimal = d) (hlen : xs.length = ys.length)
    (hx : (Numeral.under d).Valid xs) (hy : (Numeral.under d).Valid ys) :
    ((Numeral.under d).value (difference.chain flags xs ys).1 : Int) -
        (Numeral.under d).base ^ xs.length * (!(difference.chain flags xs ys).2.carry).toNat =
      (Numeral.under d).value xs - (Numeral.under d).value ys - (!flags.carry).toNat := by
  have h := difference.chain_exact hd hlen hx hy
  simp only [weigh, exact] at h
  rw [← h]
  ring

/-- **A difference takes back a sum** when it starts from the opposite carry, and ends in the
opposite one. -/
theorem difference_chain_sum {d : Bool} {back : Flags} (hd : flags.decimal = d)
    (hback : back.decimal = d) (hc : back.carry = !flags.carry) (hlen : xs.length = ys.length)
    (hx : (Numeral.under d).Valid xs) (hy : (Numeral.under d).Valid ys) :
    (difference.chain back (sum.chain flags xs ys).1 ys).1 = xs ∧
      (difference.chain back (sum.chain flags xs ys).1 ys).2.carry =
        !(sum.chain flags xs ys).2.carry := by
  have hbytes := sum.length_chain flags hlen
  have hlength := (difference.length_chain back (hbytes.trans hlen)).trans hbytes
  have hvalid := difference.valid_chain hback (sum.chain flags xs ys).1 ys
  have hsum := value_sum hd hlen hx hy
  have hdifference := value_difference hback (hbytes.trans hlen) (sum.valid_chain hd xs ys) hy
  have hlt := Numeral.value_lt hx
  have hlt' := Numeral.value_lt hvalid
  rw [hlength] at hlt'
  rw [hbytes, hc, Bool.not_not] at hdifference
  zify at hsum hlt hlt'
  -- both numbers are below what a carry counts
  have hcarry : (difference.chain back (sum.chain flags xs ys).1 ys).2.carry =
      !(sum.chain flags xs ys).2.carry := by
    cases h : (sum.chain flags xs ys).2.carry <;>
      cases h' : (difference.chain back (sum.chain flags xs ys).1 ys).2.carry <;>
      simp [h, h'] at hsum hdifference ⊢ <;> omega
  have hvalue : (Numeral.under d).value (difference.chain back (sum.chain flags xs ys).1 ys).1 =
      (Numeral.under d).value xs := by
    rw [hcarry, Bool.not_not] at hdifference
    zify
    linear_combination hdifference + hsum
  exact ⟨Numeral.value_inj hvalid hx hlength hvalue, hcarry⟩

end Operation

end Alu

end Nmos6502
