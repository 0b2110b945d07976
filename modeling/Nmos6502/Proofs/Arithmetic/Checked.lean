import Nmos6502.Proofs.Arithmetic.Chain

/-! Sums and differences in bytes and words.

The operations on numbers take their sums without bounds. Here they are taken step by step in
bytes and words, and a step that leaves the range of its type has no result. Packed digits are
read into a byte and written from one, and summed in a word; a difference of them is a word in
two's complement. No step is ever without a result, on any bytes, and what comes of them is the
result of the operation (`Checked.run_eq`). -/
namespace Nmos6502.Checked

/-! ### Steps -/

section
variable {w : Nat}

/-- The sum of two numbers, if it is in range. -/
def add (x y : BitVec w) : Option (BitVec w) := if x.uaddOverflow y then none else some (x + y)

/-- The product of two numbers, if it is in range. -/
def multiply (x y : BitVec w) : Option (BitVec w) :=
  if x.umulOverflow y then none else some (x * y)

/-- The difference of two numbers in two's complement, if it is in range. -/
def subtract (x y : BitVec w) : Option (BitVec w) :=
  if x.ssubOverflow y then none else some (x - y)

/-- The bits moved up, if none is lost. -/
def shiftLeft (x : BitVec w) (n : Nat) : Option (BitVec w) :=
  if (x <<< n) >>> n = x then some (x <<< n) else none

theorem add_ofNat {m n : Nat} (h : m + n < 2 ^ w) :
    add (BitVec.ofNat w m) (BitVec.ofNat w n) = some (BitVec.ofNat w (m + n)) := by
  have hoverflow : (BitVec.ofNat w m).uaddOverflow (BitVec.ofNat w n) = false := by
    rw [BitVec.uaddOverflow, decide_eq_false_iff_not, BitVec.toNat_ofNat, BitVec.toNat_ofNat,
      Nat.mod_eq_of_lt (by omega), Nat.mod_eq_of_lt (by omega)]
    omega
  rw [add, hoverflow, BitVec.ofNat_add_ofNat]
  rfl

theorem ofNat_lt {m n : Nat} (hm : m < 2 ^ w) (hn : n < 2 ^ w) :
    decide (BitVec.ofNat w m < BitVec.ofNat w n) = decide (m < n) := by
  rw [decide_eq_decide, BitVec.lt_def, BitVec.toNat_ofNat, BitVec.toNat_ofNat, Nat.mod_eq_of_lt hm,
    Nat.mod_eq_of_lt hn]

end

/-- A word as a byte, if it is one. -/
def toByte (x : Word) : Option Byte := if x.high = 0 then some x.low else none

theorem subtract_ofInt {m n : Int} (hm : -2 ^ 15 ≤ m ∧ m < 2 ^ 15) (hn : -2 ^ 15 ≤ n ∧ n < 2 ^ 15)
    (h : -2 ^ 15 ≤ m - n ∧ m - n < 2 ^ 15) :
    subtract (BitVec.ofInt 16 m) (BitVec.ofInt 16 n) = some (BitVec.ofInt 16 (m - n)) := by
  have hm' : (BitVec.ofInt 16 m).toInt = m := BitVec.toInt_ofInt_eq_self (by decide) hm.1 hm.2
  have hn' : (BitVec.ofInt 16 n).toInt = n := BitVec.toInt_ofInt_eq_self (by decide) hn.1 hn.2
  have hoverflow : (BitVec.ofInt 16 m).ssubOverflow (BitVec.ofInt 16 n) = false := by
    rw [BitVec.ssubOverflow, hm', hn', Bool.or_eq_false_iff, decide_eq_false_iff_not,
      decide_eq_false_iff_not]
    omega
  have hvalue : BitVec.ofInt 16 m - BitVec.ofInt 16 n = BitVec.ofInt 16 (m - n) := by
    apply BitVec.eq_of_toInt_eq
    rw [BitVec.toInt_sub_of_not_ssubOverflow (by rw [hoverflow]; decide), hm', hn',
      BitVec.toInt_ofInt_eq_self (by decide) h.1 h.2]
  rw [subtract, hoverflow, hvalue]
  rfl

/-! ### Packed digits -/

/-- Ten times the high nibble plus the low one. -/
def decimal (b : Byte) : Option Byte := do
  let tens ← multiply b.highNibble 10
  add tens b.lowNibble

/-- The last two decimal digits of a number, one to a nibble. -/
def ofDecimal (n : Byte) : Option Byte := do
  let digits := n % 100
  let tens ← shiftLeft (digits / 10) 4
  return tens ||| digits % 10

/-- What a byte reads as, also one with a nibble above nine, is a byte. -/
theorem decimal_le : ∀ b : Byte, b.decimal ≤ 165 := by
  decide

theorem decimal_eq : ∀ b : Byte, decimal b = some (BitVec.ofNat 8 b.decimal) := by
  decide

/-! ### Operations -/

/-- The carry as a number to add. -/
def carryWord (flags : Flags) : Word := (BitVec.ofBool flags.carry).setWidth 16

/-- The binary sum with the carry. -/
def addBinary (flags : Flags) (a b : Byte) : Option Alu.Result := do
  let bytes ← add a.toWord b.toWord
  let sum : Word ← add bytes (carryWord flags)
  let value := sum.low
  let overflow := Byte.isNegative ((a ^^^ value) &&& (b ^^^ value))
  return ⟨value, {flags.withResult value with carry := (0xFF : Word) < sum, overflow}⟩

/-- The sum of packed digits and the carry. -/
def sumDigits (flags : Flags) (a b : Byte) : Option Word := do
  let x ← decimal a
  let y ← decimal b
  let bytes ← add x.toWord y.toWord
  add bytes (carryWord flags)

/-- The difference of packed digits less the borrow. -/
def subtractDigits (flags : Flags) (a b : Byte) : Option Word := do
  let borrow ← subtract 1 (carryWord flags)
  let x ← decimal a
  let y ← decimal b
  let bytes ← subtract x.toWord y.toWord
  subtract bytes borrow

/-- A number below one hundred, written as packed digits. -/
def write (x : Word) : Option Byte := do
  let last ← toByte x
  ofDecimal last

/-- A step of sums or differences: the digits decide the byte and the carry, if they are to. -/
def run : Alu.Operation → Flags → Byte → Byte → Option Alu.Result
  | .sum, flags, a, b => do
    let binary ← addBinary flags a b
    if flags.decimal then
      let sum ← sumDigits flags a b
      let value ← write (sum % 100)
      return ⟨value, {binary.flags with carry := (99 : Word) < sum}⟩
    else
      return binary
  | .difference, flags, a, b => do
    let binary ← addBinary flags a (~~~b)
    if flags.decimal then
      let difference ← subtractDigits flags a b
      let value ← write (difference.smod 100)
      return ⟨value, {binary.flags with carry := (0 : Word).sle difference}⟩
    else
      return binary

variable (flags : Flags) (a b : Byte)

theorem carryWord_eq : carryWord flags = BitVec.ofNat 16 flags.carry.toNat := by
  unfold carryWord
  cases flags.carry <;> rfl

theorem toWord_decimal : Byte.toWord (BitVec.ofNat 8 b.decimal) = BitVec.ofNat 16 b.decimal := by
  have := decimal_le b
  exact BitVec.setWidth_ofNat_of_le_of_lt (by decide) (by omega)

theorem write_ofNat {n : Nat} (h : n < 100) :
    write (BitVec.ofNat 16 n) = some (Byte.ofDecimal n) := by
  have hall : ∀ n : Fin 100, write (BitVec.ofNat 16 n) = some (Byte.ofDecimal n) := by
    decide
  exact hall ⟨n, h⟩

theorem addBinary_eq : addBinary flags a b = some (Alu.addBinary flags a b) := by
  have ha := a.isLt
  have hb := b.isLt
  have hc := flags.carry.toNat_le
  have hwords : add a.toWord b.toWord = some (BitVec.ofNat 16 (a.toNat + b.toNat)) := by
    rw [Byte.toWord, Byte.toWord, ← BitVec.ofNat_toNat, ← BitVec.ofNat_toNat]
    exact add_ofNat (by omega)
  let sum := a.toNat + b.toNat + flags.carry.toNat
  have hlt : sum < 2 ^ 16 := by omega
  have hlow : Word.low (BitVec.ofNat 16 sum) = BitVec.ofNat 8 sum := by
    apply BitVec.eq_of_toNat_eq
    rw [Word.toNat_low, BitVec.toNat_ofNat, BitVec.toNat_ofNat, Nat.mod_eq_of_lt hlt]
  have hcarry : decide ((0xFF : Word) < BitVec.ofNat 16 sum) = decide (0xFF < sum) :=
    ofNat_lt (by decide) hlt
  rw [addBinary, hwords, carryWord_eq]
  show (add _ _).bind _ = _
  rw [add_ofNat hlt]
  show some _ = _
  rw [hlow, hcarry]
  rfl

theorem sumDigits_eq :
    sumDigits flags a b = some (BitVec.ofNat 16 (a.decimal + b.decimal + flags.carry.toNat)) := by
  have ha := decimal_le a
  have hb := decimal_le b
  have hc := flags.carry.toNat_le
  have hwords : add (BitVec.ofNat 16 a.decimal) (BitVec.ofNat 16 b.decimal) =
      some (BitVec.ofNat 16 (a.decimal + b.decimal)) := add_ofNat (by omega)
  rw [sumDigits, decimal_eq, decimal_eq, carryWord_eq]
  show (add _ _).bind _ = _
  rw [toWord_decimal, toWord_decimal, hwords]
  exact add_ofNat (by omega)

theorem subtractDigits_eq : subtractDigits flags a b =
    some (BitVec.ofInt 16 (a.decimal - b.decimal - (!flags.carry).toNat)) := by
  have ha := decimal_le a
  have hb := decimal_le b
  have hborrow := (!flags.carry).toNat_le
  have hone : subtract 1 (carryWord flags) = some (BitVec.ofInt 16 (!flags.carry).toNat) := by
    unfold carryWord
    cases flags.carry <;> rfl
  have hwords : subtract (BitVec.ofInt 16 a.decimal) (BitVec.ofInt 16 b.decimal) =
      some (BitVec.ofInt 16 (a.decimal - b.decimal)) :=
    subtract_ofInt (by omega) (by omega) (by omega)
  rw [subtractDigits, decimal_eq, decimal_eq, hone]
  show (subtract _ _).bind _ = _
  rw [toWord_decimal, toWord_decimal, ← BitVec.ofInt_natCast, ← BitVec.ofInt_natCast, hwords]
  exact subtract_ofInt (by omega) (by omega) (by omega)

/-- The digits of a sum are those of its remainder. -/
theorem write_sum {n : Nat} (h : n < 2 ^ 16) :
    write (BitVec.ofNat 16 n % 100) = some (Byte.ofDecimal n) := by
  have hmod : BitVec.ofNat 16 n % 100 = BitVec.ofNat 16 (n % 100) := by
    apply BitVec.eq_of_toNat_eq
    rw [BitVec.toNat_umod, BitVec.toNat_ofNat, BitVec.toNat_ofNat, Nat.mod_eq_of_lt h]
    show n % 100 = n % 100 % 65536
    omega
  rw [hmod, write_ofNat (Nat.mod_lt n (by decide)), Byte.ofDecimal_mod]

theorem write_difference {d : Int} (h : -2 ^ 15 ≤ d ∧ d < 2 ^ 15) :
    write ((BitVec.ofInt 16 d).smod 100) = some (Byte.ofDecimal (d % 100).toNat) := by
  have hmod : (BitVec.ofInt 16 d).smod 100 = BitVec.ofInt 16 (d % 100) := by
    apply BitVec.eq_of_toInt_eq
    rw [BitVec.toInt_smod, BitVec.toInt_ofInt_eq_self (by decide) h.1 h.2,
      BitVec.toInt_ofInt_eq_self (by decide) (by omega) (by omega)]
    exact Int.fmod_eq_emod_of_nonneg d (by decide)
  have hnat : d % 100 = ((d % 100).toNat : Int) := by omega
  rw [hmod, hnat, BitVec.ofInt_natCast, write_ofNat (by omega)]
  rfl

/-- **No step overflows**: an operation on any two bytes is carried out in bytes and words. -/
theorem run_eq (o : Alu.Operation) : run o flags a b = some (o.run flags a b) := by
  have ha := decimal_le a
  have hb := decimal_le b
  cases o with
  | sum =>
    cases hd : flags.decimal with
    | false =>
      rw [Alu.Operation.run_sum hd, run, addBinary_eq, hd]
      rfl
    | true =>
      let sum := a.decimal + b.decimal + flags.carry.toNat
      have hlt : sum < 2 ^ 16 := by
        have := flags.carry.toNat_le
        omega
      have hcarry : decide ((99 : Word) < BitVec.ofNat 16 sum) = decide (99 < sum) :=
        ofNat_lt (by decide) hlt
      rw [Alu.Operation.run_sum_packed hd, run, addBinary_eq, sumDigits_eq, hd]
      show (write (BitVec.ofNat 16 sum % 100)).bind _ = _
      rw [write_sum hlt]
      show some _ = _
      rw [hcarry]
  | difference =>
    cases hd : flags.decimal with
    | false =>
      rw [Alu.Operation.run_difference hd, run, addBinary_eq, hd]
      rfl
    | true =>
      let difference : Int := a.decimal - b.decimal - (!flags.carry).toNat
      have hrange : -2 ^ 15 ≤ difference ∧ difference < 2 ^ 15 := by
        have := (!flags.carry).toNat_le
        omega
      have hcarry : (0 : Word).sle (BitVec.ofInt 16 difference) = decide (0 ≤ difference) := by
        rw [BitVec.sle_eq_decide, BitVec.toInt_ofInt_eq_self (by decide) hrange.1 hrange.2]
        rfl
      rw [Alu.Operation.run_difference_packed hd, run, addBinary_eq, subtractDigits_eq, hd]
      show (write ((BitVec.ofInt 16 difference).smod 100)).bind _ = _
      rw [write_difference hrange]
      show some _ = _
      rw [hcarry]

end Nmos6502.Checked
