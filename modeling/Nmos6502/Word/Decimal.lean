import Nmos6502.Word

/-! Packed decimal: two decimal digits in a byte, tens in the high nibble.

`decimal` reads any byte, also one with a nibble above nine, which then counts for
more than nine. `ofDecimal` writes the last two digits of a number, so what it writes
is always a pair of digits (`isDecimal_ofDecimal`) and reads back modulo one hundred
(`decimal_ofDecimal`). -/
namespace Nmos6502.Byte

/-- Ten times the high nibble plus the low one. -/
def decimal (b : Byte) : Nat := b.highNibble.toNat * 10 + b.lowNibble.toNat

/-- The last two decimal digits of a number, one to a nibble. -/
def ofDecimal (n : Nat) : Byte := BitVec.ofNat 4 (n % 100 / 10) ++ BitVec.ofNat 4 (n % 10)

/-- Both nibbles are decimal digits. -/
def IsDecimal (b : Byte) : Prop := b.highNibble.toNat ≤ 9 ∧ b.lowNibble.toNat ≤ 9

instance (b : Byte) : Decidable b.IsDecimal := inferInstanceAs (Decidable (_ ∧ _))

/-- Only the last two digits of the number matter. -/
theorem ofDecimal_mod (n : Nat) : ofDecimal (n % 100) = ofDecimal n := by
  simp [ofDecimal, Nat.mod_mod_of_dvd n (show 10 ∣ 100 by decide)]

theorem isDecimal_ofDecimal (n : Nat) : (ofDecimal n).IsDecimal := by
  rw [← ofDecimal_mod]
  have h : ∀ k : Fin 100, (ofDecimal k).IsDecimal := by decide
  exact h ⟨n % 100, Nat.mod_lt n (by decide)⟩

theorem decimal_ofDecimal (n : Nat) : (ofDecimal n).decimal = n % 100 := by
  rw [← ofDecimal_mod]
  have h : ∀ k : Fin 100, (ofDecimal k).decimal = k := by decide
  exact h ⟨n % 100, Nat.mod_lt n (by decide)⟩

/-- A pair of digits is what is written for the number it reads as. -/
theorem ofDecimal_decimal : ∀ b : Byte, b.IsDecimal → ofDecimal b.decimal = b := by
  decide

end Nmos6502.Byte
