/-! Rounding a number to so many significant bits.

The nearest number that ends in zeros below its leading bits is taken
(`roundToBits_near`), and of two equally near ones the one that is even there. A number
that fits is kept (`roundToBits_of_lt`). -/
namespace Nmos6502

/-- The weight of the last of the leading bits of a number. -/
def lastPlace (bits n : Nat) : Nat := 1 <<< (n.log2 + 1 - bits)

def roundToBits (bits n : Nat) : Nat :=
  let unit := lastPlace bits n
  let quotient := n / unit
  let rest := n % unit
  if unit < 2 * rest ∨ unit = 2 * rest ∧ quotient % 2 = 1 then (quotient + 1) * unit
  else quotient * unit

theorem lastPlace_pos (bits n : Nat) : 0 < lastPlace bits n := by
  rw [lastPlace, Nat.one_shiftLeft]
  exact Nat.two_pow_pos _

theorem dvd_roundToBits (bits n : Nat) : lastPlace bits n ∣ roundToBits bits n := by
  unfold roundToBits
  dsimp only
  split <;> exact Nat.dvd_mul_left _ _

/-- The rounded number is at most half a unit of its last place away. -/
theorem roundToBits_near (bits n : Nat) :
    2 * n ≤ 2 * roundToBits bits n + lastPlace bits n ∧
      2 * roundToBits bits n ≤ 2 * n + lastPlace bits n := by
  have hdiv := Nat.div_add_mod' n (lastPlace bits n)
  have hmod := Nat.mod_lt n (lastPlace_pos bits n)
  unfold roundToBits
  dsimp only
  split
  · rw [Nat.add_mul]
    omega
  · omega

theorem roundToBits_of_lt {bits n : Nat} (h : n < 1 <<< bits) : roundToBits bits n = n := by
  rcases Nat.eq_zero_or_pos n with rfl | hn
  · simp [roundToBits]
  · rw [Nat.one_shiftLeft] at h
    have := (Nat.log2_lt (by omega)).mpr h
    have hunit : n.log2 + 1 - bits = 0 := by omega
    simp [roundToBits, lastPlace, hunit, Nat.mod_one]

end Nmos6502
