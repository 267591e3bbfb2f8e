import Calculator.Proofs.Decimal.Value
import Calculator.Proofs.Digits

/-!
# The leading digit of the shortest decimal

A layout looks at the exponent of the leading digit of the shortest decimal, not at the magnitude
itself. The two lie on the same side of a power of ten, provided that this power is the shortest
decimal of a magnitude that is no less.

* `Decimal.leadingExponent`: the exponent of the first digit of a decimal.
* `Decimal.le_leadingExponent_iff`: what it tells about the value.
* `Decimal.ten_zpow_le_toRat_shortest_iff`: the sides of a power of ten.
* `Decimal.natAbs_leadingExponent_shortest_lt`: the exponents have at most three digits.
-/

namespace Calculator

namespace Decimal

open Double (overflowBound)

/-- The exponent of the leading digit. -/
def leadingExponent (d : Decimal) : ℤ := d.exponent + (decimalDigits d.digits).length - 1

theorem ten_pow_leadingExponent_le {d : Decimal} (hd : d.digits ≠ 0) :
    (10 : ℚ) ^ d.leadingExponent ≤ d.toRat := by
  have hpos := List.length_pos_iff.2 (decimalDigits_ne_nil d.digits)
  have hexp : d.leadingExponent = ((decimalDigits d.digits).length - 1 : ℕ) + d.exponent := by
    unfold leadingExponent
    omega
  have hle : (10 : ℚ) ^ ((decimalDigits d.digits).length - 1) ≤ d.digits := by
    exact_mod_cast ten_pow_length_le hd
  rw [hexp, zpow_add₀ (by norm_num), zpow_natCast, toRat]
  exact mul_le_mul_of_nonneg_right hle (by positivity)

theorem toRat_lt_ten_pow (d : Decimal) : d.toRat < (10 : ℚ) ^ (d.leadingExponent + 1) := by
  have hexp : d.leadingExponent + 1 = (decimalDigits d.digits).length + d.exponent := by
    unfold leadingExponent
    omega
  have hlt : (d.digits : ℚ) < 10 ^ (decimalDigits d.digits).length := by
    exact_mod_cast lt_ten_pow_length d.digits
  rw [hexp, zpow_add₀ (by norm_num), zpow_natCast, toRat]
  exact mul_lt_mul_of_pos_right hlt (by positivity)

/-- The exponent of the leading digit tells between which powers of ten the value lies. -/
theorem le_leadingExponent_iff {d : Decimal} (hd : d.digits ≠ 0) {k : ℤ} :
    k ≤ d.leadingExponent ↔ (10 : ℚ) ^ k ≤ d.toRat := by
  constructor
  · intro h
    exact (zpow_le_zpow_right₀ (by norm_num) h).trans (ten_pow_leadingExponent_le hd)
  · intro h
    have hlt := (zpow_lt_zpow_iff_right₀ (by norm_num)).1 (h.trans_lt d.toRat_lt_ten_pow)
    omega

/-! ## Shortest decimals -/

section

variable {m : Magnitude} {k : ℤ}

theorem digits_shortest_ne_zero (hm : m.units ≠ 0) : (shortest m.units).digits ≠ 0 := by
  intro h
  have := digits_shortest_mod_ten hm
  rw [h] at this
  exact this rfl

/-- A magnitude and its shortest decimal lie on the same side of a power of ten, if this power is
the shortest decimal of a magnitude that is no less. -/
theorem ten_zpow_le_toRat_shortest_iff (m₀ : Magnitude) (h₀ : shortest m₀.units = ⟨1, k⟩)
    (hle : (10 : ℚ) ^ k ≤ m₀.value) (m : Magnitude) :
    (10 : ℚ) ^ k ≤ (shortest m.units).toRat ↔ (10 : ℚ) ^ k ≤ m.value := by
  have hpower : (shortest m₀.units).toRat = 10 ^ k := by
    rw [h₀, toRat, Nat.cast_one, one_mul]
  have hround : roundNearest (10 ^ k) = m₀.value := by
    rw [← hpower, roundNearest_toRat_shortest]
  constructor
  · intro h
    calc (10 : ℚ) ^ k ≤ m₀.value := hle
      _ = roundNearest (10 ^ k) := hround.symm
      _ ≤ roundNearest (shortest m.units).toRat := roundNearest_mono h
      _ = m.value := roundNearest_toRat_shortest m
  · intro h
    by_contra! hlt
    -- Both would round to the power's magnitude, whose shortest decimal is the power itself.
    have hbelow : m.value ≤ m₀.value := by
      rw [← roundNearest_toRat_shortest m, ← hround]
      exact roundNearest_mono hlt.le
    have habove : m₀.value ≤ m.value := by
      rw [← hround, ← Double.roundNearest_value m]
      exact roundNearest_mono h
    rw [Magnitude.value_inj.1 (hbelow.antisymm habove), hpower] at hlt
    exact lt_irrefl _ hlt

/-- The shortest decimal of a number other than zero is no less than a quarter of a unit. -/
theorem le_toRat_shortest (hm : m.units ≠ 0) :
    1 / 2 ^ (unitPlaces + 2) ≤ (shortest m.units).toRat := by
  have hmove := abs_sub_roundNearest_le (shortest m.units).toRat
  have hunit : 1 / 2 ^ unitPlaces ≤ m.value := by
    rw [Magnitude.value]
    gcongr
    exact_mod_cast Nat.pos_of_ne_zero hm
  have hpos : (0 : ℚ) < 1 / 2 ^ unitPlaces := by positivity
  rw [roundNearest_toRat_shortest, abs_of_nonneg (toRat_nonneg _), pow_succ _ unitPlaces,
    ← div_div] at hmove
  rw [pow_add, ← div_div]
  have hvalue := (abs_le.1 hmove).1
  generalize (1 : ℚ) / 2 ^ unitPlaces = unit at *
  linarith

theorem two_pow_le_ten_pow_cast {i j : ℕ} (h : i ≤ 3 * j) : (2 : ℚ) ^ i ≤ 10 ^ j := by
  exact_mod_cast two_pow_le_ten_pow h

/-- The exponents of the leading digits have at most three digits. -/
theorem natAbs_leadingExponent_shortest_lt (hm : m.units ≠ 0) :
    (shortest m.units).leadingExponent.natAbs < 1000 := by
  have hd := digits_shortest_ne_zero hm
  have hlow {j : ℕ} (hj : unitPlaces + 2 ≤ 3 * j) :
      -(j : ℤ) ≤ (shortest m.units).leadingExponent := by
    rw [le_leadingExponent_iff hd, zpow_neg, zpow_natCast, ← one_div]
    exact (one_div_le_one_div_of_le (by positivity) (two_pow_le_ten_pow_cast hj)).trans
      (le_toRat_shortest hm)
  have hhigh {j : ℕ} (hj : 1024 ≤ 3 * j) : (shortest m.units).leadingExponent < j := by
    rw [← not_le, le_leadingExponent_iff hd, not_le, zpow_natCast]
    calc (shortest m.units).toRat < overflowBound := toRat_shortest_lt m
      _ < 2 ^ 1024 := sub_lt_self _ (by positivity)
      _ ≤ 10 ^ j := two_pow_le_ten_pow_cast hj
  have hfrom := hlow (j := 999) (by decide)
  have hto := hhigh (j := 1000) (by decide)
  omega

end

end Decimal

end Calculator
