import Calculator.Double.Power
import Calculator.Proofs.Double.Operations

/-!
# Powers of floats by the values of their operands

* `Double.isIntegral_iff`, `Double.equal_one_iff`, `Double.isBelowZero_iff_or`: the tests on
  operands, as statements on values.
* `Double.pow_of_trivial`: an exponent of zero or a base of one gives one, whatever the other is.
* `Double.isNaN_pow_iff`: finite operands give NaN only for a negative base and a fractional
  exponent.
-/

namespace Calculator

namespace Double

variable {x y : Double}

/-! ## Tests on operands -/

theorem isIntegral_iff (hx : x.isFinite) : x.isIntegral ↔ ∃ k : ℤ, x.toRat = k := by
  obtain ⟨s, m, rfl⟩ := exists_eq_finite_of_isFinite hx
  rw [isIntegral, beq_iff_eq]
  constructor
  · intro h
    have hunits : m.units = m.units / unitsPerOne * unitsPerOne :=
      (Nat.div_mul_cancel (Nat.dvd_of_mod_eq_zero h)).symm
    exact ⟨_, toRat_eq_intCast s hunits⟩
  · rintro ⟨k, hk⟩
    have hvalue := toRat_mul_units s m
    rw [hk, ← natCast_unitsPerOne, ← Int.cast_natCast, ← Int.cast_mul, Int.cast_inj] at hvalue
    have habs : (signed s m.units).natAbs = m.units := by cases s <;> simp [signed]
    rw [← habs, ← hvalue, Int.natAbs_mul, Int.natAbs_natCast]
    exact Nat.mul_mod_left _ _

theorem equal_iff (hx : x.isFinite) (hy : y.isFinite) : x.equal y ↔ x.toRat = y.toRat := by
  obtain ⟨s, a, rfl⟩ := exists_eq_finite_of_isFinite hx
  obtain ⟨t, b, rfl⟩ := exists_eq_finite_of_isFinite hy
  have hpow : (2 : ℚ) ^ unitPlaces ≠ 0 := by positivity
  rw [equal, beq_iff_eq, toRat, toRat, div_left_inj' hpow, Int.cast_inj]

theorem equal_one_iff : x.equal one ↔ x.isFinite ∧ x.toRat = 1 := by
  obtain ⟨hone, hvalue⟩ := one_eq
  by_cases hx : x.isFinite
  · rw [equal_iff hx hone, hvalue]
    exact (and_iff_right hx).symm
  · refine iff_of_false (fun h => ?_) fun h => hx h.1
    obtain ⟨s, m, hm⟩ := exists_eq_finite_of_isFinite hone
    rw [hm] at h
    cases x with
    | nan | infinite s => cases h
    | finite s m => exact hx rfl

/-- Minus infinity is below zero as well. -/
theorem isBelowZero_iff_or : x.isBelowZero ↔ x = .infinite true ∨ x.isFinite ∧ x.toRat < 0 := by
  by_cases hx : x.isFinite
  · rw [isBelowZero_iff hx]
    refine ⟨fun h => .inr ⟨hx, h⟩, ?_⟩
    rintro (rfl | h)
    · cases hx
    · exact h.2
  · cases x with
    | nan => simp [isBelowZero, lt, isFinite]
    | infinite s => simp [isBelowZero, lt, zero, isFinite]
    | finite s m => exact absurd rfl hx

/-! ## Powers -/

/-- An exponent of zero or a base of one gives one, whatever the other operand is. -/
theorem pow_of_trivial (h : y.isZero ∨ x.equal one) : x.pow y = one := by
  unfold pow
  rw [if_pos]
  simpa using h

theorem not_isInfinite_of_isFinite (h : x.isFinite) : ¬x.isInfinite := by
  obtain ⟨s, m, rfl⟩ := exists_eq_finite_of_isFinite h
  exact Bool.false_ne_true

theorem not_isInfinite_pow_of_trivial (h : y.isZero ∨ x.equal one) : ¬(x.pow y).isInfinite := by
  rw [pow_of_trivial h]
  exact not_isInfinite_of_isFinite one_eq.1

/-- What is neither infinite nor NaN is finite. -/
theorem isFinite_of_not (hinfinite : ¬x.isInfinite) (hnan : ¬x.isNaN) : x.isFinite := by
  cases x with
  | nan => exact absurd rfl hnan
  | infinite s => exact absurd rfl hinfinite
  | finite s m => rfl

theorem not_isNaN_of_isFinite (h : x.isFinite) : ¬x.isNaN := by
  obtain ⟨s, m, rfl⟩ := exists_eq_finite_of_isFinite h
  exact Bool.false_ne_true

theorem not_isNaN_ofRatio (s : Bool) (a b : ℕ) : ¬(ofRatio s a b).isNaN := by
  unfold ofRatio
  split <;> exact Bool.false_ne_true

theorem not_isNaN_powMagnitude (s : Bool) (a : Magnitude) (t : Bool) (b : Magnitude) :
    ¬(powMagnitude s a t b).isNaN := by
  unfold powMagnitude Wide.toDouble
  dsimp only
  generalize (if t then _ else _ : Wide) = power
  split_ifs
  · exact Bool.false_ne_true
  · exact Bool.false_ne_true
  · exact not_isNaN_ofRatio _ _ _
  · exact not_isNaN_ofRatio _ _ _

/-- The sign bit of a base other than zero, and the exponent, decide whether there is a power. -/
theorem isNaN_pow_finite_iff {s t : Bool} {a b : Magnitude}
    (h : ¬((finite t b).isZero ∨ (finite s a).equal one)) :
    ((finite s a).pow (finite t b)).isNaN ↔ (a.units ≠ 0 ∧ s) ∧ ¬(finite t b).isIntegral := by
  unfold pow
  rw [if_neg (by simpa using h)]
  dsimp only
  split
  · next hzero =>
    refine iff_of_false ?_ fun h => h.1.1 hzero
    split <;> exact Bool.false_ne_true
  next hne =>
  split
  · next hnan =>
    rw [Bool.and_eq_true, Bool.not_eq_true', ← Bool.not_eq_true] at hnan
    exact iff_of_true rfl ⟨⟨hne, hnan.1⟩, hnan.2⟩
  · next hreal =>
    refine iff_of_false (not_isNaN_powMagnitude _ _ _ _) fun ⟨⟨_, hs⟩, hintegral⟩ => hreal ?_
    rw [Bool.and_eq_true, Bool.not_eq_true', ← Bool.not_eq_true]
    exact ⟨hs, hintegral⟩

theorem toRat_finite_lt_zero_iff (s : Bool) (m : Magnitude) :
    (finite s m).toRat < 0 ↔ m.units ≠ 0 ∧ s := by
  have hpow : (0 : ℚ) < 2 ^ unitPlaces := by positivity
  rw [toRat_finite]
  cases s with
  | false => simpa using value_nonneg m
  | true =>
    rw [if_pos rfl, neg_lt_zero, Magnitude.value, div_pos_iff_of_pos_right hpow, Nat.cast_pos,
      Nat.pos_iff_ne_zero, and_iff_left rfl]

/-- Finite operands give NaN for a negative base with a fractional exponent, and for no others. -/
theorem isNaN_pow_iff (hx : x.isFinite) (hy : y.isFinite) :
    (x.pow y).isNaN ↔ x.toRat < 0 ∧ ∀ k : ℤ, y.toRat ≠ k := by
  by_cases htrivial : y.isZero ∨ x.equal one
  · rw [pow_of_trivial htrivial]
    refine iff_of_false (not_isNaN_of_isFinite one_eq.1) fun ⟨hneg, hfraction⟩ => ?_
    rcases htrivial with hzero | hone
    · exact hfraction 0 (((isZero_iff hy).1 hzero).trans Int.cast_zero.symm)
    · rw [(equal_one_iff.1 hone).2] at hneg
      exact absurd hneg (by norm_num)
  · obtain ⟨s, a, rfl⟩ := exists_eq_finite_of_isFinite hx
    obtain ⟨t, b, rfl⟩ := exists_eq_finite_of_isFinite hy
    rw [isNaN_pow_finite_iff htrivial, toRat_finite_lt_zero_iff, isIntegral_iff rfl, not_exists]

end Double

end Calculator
