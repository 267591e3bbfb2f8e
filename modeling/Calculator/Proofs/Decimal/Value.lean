import Calculator.Proofs.Decimal.Shortest
import Calculator.Proofs.Double.Operations

/-!
# Values of decimals

* `Decimal.toRat`: the rational number that a decimal is.
* `Decimal.isNearest_toDouble`: a decimal is read as the number nearest to its value.
* `Decimal.isNearest_toRat_shortest`, `Decimal.roundNearest_toRat_shortest`: a magnitude is the
  number nearest to its shortest decimal.
-/

namespace Calculator

namespace Decimal

open Double (overflowBound)

/-- The value. -/
def toRat (d : Decimal) : ℚ := d.digits * 10 ^ d.exponent

theorem toRat_nonneg (d : Decimal) : 0 ≤ d.toRat := by
  unfold toRat
  positivity

/-- A decimal is read as the number nearest to its value. -/
theorem isNearest_toDouble (d : Decimal) : d.toDouble.IsNearest d.toRat := by
  rw [toDouble_eq]
  refine Double.isNearest_ofRatio (ten_pow_pos _) ?_
  have hten : (10 : ℚ) ^ d.exponent * 10 ^ (-d.exponent).toNat = 10 ^ d.exponent.toNat := by
    rw [← zpow_natCast, ← zpow_natCast, ← zpow_add₀ (by norm_num)]
    congr 1
    omega
  simp only [Double.signed, Bool.false_eq_true, if_false]
  rw [Int.cast_natCast, Nat.cast_mul, Nat.cast_mul, Nat.cast_pow, Nat.cast_pow,
    Double.natCast_unitsPerOne, Nat.cast_ofNat, ← hten, toRat]
  ring

/-- A magnitude is the number nearest to its shortest decimal, -/
theorem isNearest_toRat_shortest (m : Magnitude) :
    (Double.finite false m).IsNearest (shortest m.units).toRat := by
  have h := isNearest_toDouble (shortest m.units)
  rwa [toDouble_shortest] at h

theorem toRat_shortest_lt (m : Magnitude) : (shortest m.units).toRat < overflowBound := by
  cases isNearest_toRat_shortest m with
  | finite hlt => exact (le_abs_self _).trans_lt hlt

/-- to which this one is rounded. -/
theorem roundNearest_toRat_shortest (m : Magnitude) :
    roundNearest (shortest m.units).toRat = m.value := by
  have hlt := toRat_shortest_lt m
  rw [← abs_of_nonneg (toRat_nonneg (shortest m.units))] at hlt
  rw [← ((isNearest_toRat_shortest m).toRat_eq hlt).2, Double.toRat_finite,
    if_neg Bool.false_ne_true]

end Decimal

end Calculator
