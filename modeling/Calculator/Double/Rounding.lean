import Calculator.Power

/-!
# Rounding to the binary64 lattice

Every finite binary64 number is a whole multiple of `2^-1074`, so its magnitude is a natural
number of these *units*. A number of units is representable when it has at most 53 significant
bits and lies below `2^2098` units, that is below `2^1024`.

* `roundHalfEven a b`: the natural number nearest to `a / b`; a tie goes to the even neighbour.
* `roundToPrecision a b`: the same on the lattice of numbers with at most 53 significant bits.
* `keepsPrecision_roundToPrecision`: what it returns has at most 53 significant bits.
-/

namespace Calculator

/-- The natural number nearest to `a / b`; a tie goes to the even neighbour. -/
def roundHalfEven (a b : Nat) : Nat :=
  if 2 * (a % b) < b ∨ (2 * (a % b) = b ∧ a / b % 2 = 0) then a / b else a / b + 1

/-- The number of low bits that a number of `n` units has beyond its first 53. -/
def surplusBits (n : Nat) : Nat := n.log2 - 52

/-- `n` has at most 53 significant bits: all its surplus bits are zero. -/
def KeepsPrecision (n : Nat) : Prop := n % 2 ^ surplusBits n = 0

instance (n : Nat) : Decidable (KeepsPrecision n) := inferInstanceAs (Decidable (_ = _))

/-- `a / b` rounded to nearest, ties to even, among the numbers with at most 53 significant
bits. Below `2^53` these are all the natural numbers, which is how binary64 rounds its
subnormal range. -/
def roundToPrecision (a b : Nat) : Nat :=
  roundHalfEven a (b * 2 ^ surplusBits (a / b)) * 2 ^ surplusBits (a / b)

/-- The number of fraction bits of the units: one unit is `2^-1074`. -/
def unitPlaces : Nat := 1074

/-- The number of bits of the greatest magnitude, in units. -/
def rangeBits : Nat := 2098

/-- The end of the binary64 range, `2^1024`, in units. -/
def rangeEnd : Nat := 2 ^ rangeBits

theorem rangeEnd_pos : 0 < rangeEnd := Nat.two_pow_pos rangeBits

theorem roundHalfEven_le_succ (a b : Nat) : roundHalfEven a b ≤ a / b + 1 := by
  unfold roundHalfEven
  split <;> omega

theorem le_roundHalfEven (a b : Nat) : a / b ≤ roundHalfEven a b := by
  unfold roundHalfEven
  split <;> omega

theorem lt_two_pow_surplusBits (n : Nat) : n < 2 ^ (53 + surplusBits n) := by
  refine Nat.lt_of_lt_of_le (Nat.lt_log2_self (n := n)) (Nat.pow_le_pow_right (by decide) ?_)
  unfold surplusBits
  omega

/-- A multiple of `2^s` of at most `2^53` steps has at most 53 significant bits. -/
theorem keepsPrecision_mul_two_pow {k s : Nat} (hk : k ≤ 2 ^ 53) : KeepsPrecision (k * 2 ^ s) := by
  unfold KeepsPrecision
  rcases Nat.eq_zero_or_pos k with rfl | hpos
  · simp
  rcases Nat.lt_or_eq_of_le hk with hlt | rfl
  · refine Nat.mod_eq_zero_of_dvd (Nat.dvd_trans (Nat.pow_dvd_pow 2 ?_) (Nat.dvd_mul_left _ _))
    have hn : k * 2 ^ s < 2 ^ (53 + s) := by
      rw [Nat.pow_add]
      exact Nat.mul_lt_mul_of_pos_right hlt (Nat.two_pow_pos s)
    have := (Nat.log2_lt (Nat.mul_ne_zero (by omega) (by have := Nat.two_pow_pos s; omega))).2 hn
    unfold surplusBits
    omega
  · rw [← Nat.pow_add]
    have hl : (2 ^ (53 + s)).log2 = 53 + s := Nat.log2_two_pow
    refine Nat.mod_eq_zero_of_dvd (Nat.pow_dvd_pow 2 ?_)
    unfold surplusBits
    omega

theorem keepsPrecision_roundToPrecision (a b : Nat) : KeepsPrecision (roundToPrecision a b) := by
  refine keepsPrecision_mul_two_pow ?_
  refine Nat.le_trans (roundHalfEven_le_succ _ _) ?_
  have h : a / (b * 2 ^ surplusBits (a / b)) < 2 ^ 53 := by
    rw [← Nat.div_div_eq_div_mul]
    refine Nat.div_lt_of_lt_mul ?_
    rw [← Nat.pow_add, Nat.add_comm]
    exact lt_two_pow_surplusBits _
  omega

end Calculator
