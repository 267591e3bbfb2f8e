import Calculator.Proofs.Double.Rounding
import Calculator.Proofs.Double.Significant
import Mathlib.Data.Rat.Floor

/-!
# The nearest magnitude

What rounding to units comes to as a rational number, and that it gives the nearest magnitude.

* `natCast_roundToPrecision`: the rounding of a ratio of natural numbers is `roundUnits` of their
  quotient.
* `abs_sub_roundUnits_lt_or`: every other number of at most 53 significant bits is farther, or as
  far and with an odd significand.
* `Magnitude.isNearest_iff`: the nearest magnitude is the rounded number of units.
* `Magnitude.isNearest_iff_not_roundsTwice`: when it is still found by rounding to significant bits
  first.
-/

namespace Calculator

/-- `y` rounded to 53 significant bits or to an integer, whichever is coarser. -/
def roundUnits (y : ℚ) : ℚ := nearestMultiple (2 ^ max (Int.log 2 y - 52) 0) y

/-! ## Rounding units -/

theorem roundUnits_of_le {y : ℚ} (h : 2 ^ 52 ≤ y) : roundUnits y = roundSignificant y := by
  have hlog := (natCast_le_log_iff (lt_of_lt_of_le (by norm_num) h)).2 h
  rw [roundUnits, max_eq_left (by omega), roundSignificant]

theorem roundUnits_of_lt {y : ℚ} (hy : 0 ≤ y) (h : y < 2 ^ 53) :
    roundUnits y = nearestInteger y := by
  have hlog : Int.log 2 y < 53 := by
    rcases hy.eq_or_lt with rfl | hy
    · rw [Int.log_zero_right]
      decide
    · exact (log_lt_natCast_iff hy (n := 53)).2 h
  rw [roundUnits, max_eq_right (by omega), zpow_zero, nearestMultiple_one]

/-- Rounding natural ratios is rounding their quotients. -/
theorem natCast_roundHalfEven (a : ℕ) {b : ℕ} (hb : 0 < b) :
    (roundHalfEven a b : ℤ) = nearestInteger (a / b) := by
  have hbq : (0 : ℚ) < b := Nat.cast_pos.2 hb
  have hfloor : ⌊(a / b : ℚ)⌋ = (a / b : ℕ) := by
    rw [Rat.floor_natCast_div_natCast, Int.natCast_div]
  have hfract : 2 * Int.fract (a / b : ℚ) = (2 * (a % b) : ℕ) / b := by
    rw [Int.fract_div_natCast_eq_div_natCast_mod]
    push_cast
    ring
  have hlt : 2 * Int.fract (a / b : ℚ) < 1 ↔ 2 * (a % b) < b := by
    rw [hfract, div_lt_one hbq, Nat.cast_lt]
  have heq : 2 * Int.fract (a / b : ℚ) = 1 ↔ 2 * (a % b) = b := by
    rw [hfract, div_eq_one_iff_eq hbq.ne', Nat.cast_inj]
  unfold roundHalfEven nearestInteger
  simp only [hlt, heq, hfloor, Int.even_coe_nat, Nat.even_iff]
  split <;> push_cast <;> rfl

theorem natCast_surplusBits (a b : ℕ) :
    (surplusBits (a / b) : ℤ) = max (Int.log 2 (a / b : ℚ) - 52) 0 := by
  unfold surplusBits
  rcases lt_or_ge (a / b : ℚ) 1 with h | h
  · have hfloor : a / b = 0 := by
      rw [← Rat.natFloor_natCast_div_natCast]
      exact Nat.floor_eq_zero.2 h
    rw [Int.log_of_right_le_one 2 h.le, hfloor, Nat.log2_zero]
    omega
  · rw [Int.log_of_one_le_right 2 h, Rat.natFloor_natCast_div_natCast, Nat.log2_eq_log_two]
    omega

theorem natCast_roundToPrecision (a : ℕ) {b : ℕ} (hb : 0 < b) :
    (roundToPrecision a b : ℚ) = roundUnits (a / b) := by
  have hround := natCast_roundHalfEven a (b := b * 2 ^ surplusBits (a / b)) (by positivity)
  have hround : (roundHalfEven a (b * 2 ^ surplusBits (a / b)) : ℚ) =
      nearestInteger (a / b / 2 ^ surplusBits (a / b)) := by
    rw [div_div]
    exact_mod_cast hround
  rw [roundUnits, ← natCast_surplusBits, nearestMultiple, zpow_natCast, ← hround, roundToPrecision]
  push_cast
  rfl

/-! ## The nearest magnitude -/

/-- The significand of a number of units: its steps, as many as its first 53 bits say. -/
def significand (n : ℕ) : ℕ := n / 2 ^ surplusBits n

theorem significand_mul_two_pow {k s : ℕ} (hk : k < 2 ^ 53) (hs : s = 0 ∨ 2 ^ 52 ≤ k) :
    significand (k * 2 ^ s) = k := by
  have hsurplus : surplusBits (k * 2 ^ s) = s := by
    refine surplusBits_eq ?_ (hs.imp id fun h => ?_)
    · rw [Nat.pow_add]
      exact Nat.mul_lt_mul_of_pos_right hk (Nat.two_pow_pos s)
    · rw [Nat.pow_add]
      exact Nat.mul_le_mul_right _ h
  rw [significand, hsurplus, Nat.mul_div_cancel _ (Nat.two_pow_pos s)]

theorem even_significand_mul_two_pow {k s : ℕ} (hk : k ≤ 2 ^ 53) (hs : s = 0 ∨ 2 ^ 52 ≤ k)
    (heven : Even k) : Even (significand (k * 2 ^ s)) := by
  rcases hk.lt_or_eq with hk | rfl
  · rwa [significand_mul_two_pow hk hs]
  · rw [show 2 ^ 53 * 2 ^ s = 2 ^ 52 * 2 ^ (s + 1) by rw [Nat.pow_succ]; omega,
      significand_mul_two_pow (by norm_num) (.inr (Nat.le_refl _))]
    decide

theorem odd_significand_mul_two_pow {k s : ℕ} (hk : k ≤ 2 ^ 53) (hs : s = 0 ∨ 2 ^ 52 ≤ k)
    (hodd : Odd k) : Odd (significand (k * 2 ^ s)) := by
  have hne : k ≠ 2 ^ 53 := by
    rintro rfl
    exact absurd hodd (by decide)
  rwa [significand_mul_two_pow (by omega) hs]

/-- So many steps of `2^s` lie in the binade that has this step. -/
structure InBinade (z : ℚ) (s : ℕ) : Prop where
  nonneg : 0 ≤ z
  lt : z < 2 ^ 53
  le : s = 0 ∨ 2 ^ 52 ≤ z

/-- The rounding in units of the step. -/
theorem exists_steps {y : ℚ} (hy : 0 ≤ y) :
    ∃ (s : ℕ) (z : ℚ), InBinade z s ∧ y = z * 2 ^ s ∧
      roundUnits y = nearestInteger z * 2 ^ s := by
  rcases lt_or_ge y (2 ^ 53) with h | h
  · refine ⟨0, y, ⟨hy, h, .inl rfl⟩, by simp, ?_⟩
    rw [roundUnits_of_lt hy h, pow_zero, mul_one]
  have hpos : 0 < y := lt_of_lt_of_le (by norm_num) h
  have hlog := (natCast_le_log_iff hpos).2 h
  obtain ⟨s, hs⟩ := Int.eq_ofNat_of_zero_le (show 0 ≤ Int.log 2 y - 52 by omega)
  have hbounds := div_step_bounds hpos
  rw [hs, zpow_natCast] at hbounds
  refine ⟨s, y / 2 ^ s, ⟨by positivity, hbounds.2, .inr hbounds.1⟩, by field_simp, ?_⟩
  rw [roundUnits, max_eq_left (by omega), hs, zpow_natCast, nearestMultiple]

/-- An integer at most half a step away is a significand, or the first of the next binade. -/
theorem InBinade.of_abs_sub_le {z : ℚ} {s k : ℕ} (h : InBinade z s) (hk : 2 * |z - k| ≤ 1) :
    k ≤ 2 ^ 53 ∧ (s = 0 ∨ 2 ^ 52 ≤ k) := by
  obtain ⟨hlow, hhigh⟩ := abs_le.1 (show |z - k| ≤ 1 / 2 by linarith)
  refine ⟨Nat.lt_succ_iff.1 ?_, h.le.imp id fun hz => Nat.lt_succ_iff.1 ?_⟩
  · have hlt : (k : ℚ) < (2 ^ 53 + 1 : ℕ) := by
      have := h.lt
      push_cast
      linarith
    exact Nat.cast_lt.1 hlt
  · have hlt : ((2 ^ 52 : ℕ) : ℚ) < (k + 1 : ℕ) := by
      push_cast
      linarith
    exact Nat.cast_lt.1 hlt

theorem abs_sub_steps (z : ℚ) (s k : ℕ) :
    |z * 2 ^ s - (k * 2 ^ s : ℕ)| = |z - k| * 2 ^ s := by
  have hpow : (0 : ℚ) < 2 ^ s := by positivity
  push_cast
  rw [← sub_mul, abs_mul, abs_of_pos hpow]

/-- No number of at most 53 significant bits is nearer than the rounded one, and one as near has an
odd significand. -/
theorem abs_sub_roundUnits_lt_or {y : ℚ} (hy : 0 ≤ y) {n n' : ℕ} (hround : (n : ℚ) = roundUnits y)
    (hn' : KeepsPrecision n') (hne : n' ≠ n) :
    |y - n| < |y - n'| ∨
      |y - n| = |y - n'| ∧ Even (significand n) ∧ Odd (significand n') := by
  obtain ⟨s, z, hz, rfl, hs⟩ := exists_steps hy
  have hpow : (0 : ℚ) < 2 ^ s := by positivity
  obtain ⟨k, hk⟩ := Int.eq_ofNat_of_zero_le
    (le_nearestInteger (k := 0) (by exact_mod_cast hz.nonneg))
  have hhalf := two_mul_abs_sub_nearestInteger_le z
  rw [hs, hk] at hround
  rw [hk, Int.cast_natCast] at hhalf
  obtain rfl : n = k * 2 ^ s := by exact_mod_cast hround
  by_cases hdvd : 2 ^ s ∣ n'
  · obtain ⟨j, rfl⟩ := exists_eq_mul_left_of_dvd hdvd
    have hjk : (j : ℤ) ≠ nearestInteger z := by
      rw [hk]
      intro h
      exact hne (by rw [Int.ofNat_inj.1 h])
    rw [abs_sub_steps, abs_sub_steps]
    rcases abs_sub_nearestInteger_lt_or hjk with hlt | ⟨heq, heven, hodd⟩
    · rw [hk] at hlt
      exact .inl (mul_lt_mul_of_pos_right (by exact_mod_cast hlt) hpow)
    · rw [hk, Int.even_coe_nat] at heven
      rw [Int.odd_coe_nat] at hodd
      rw [hk, Int.cast_natCast, Int.cast_natCast] at heq
      obtain ⟨hk53, hk52⟩ := hz.of_abs_sub_le hhalf
      obtain ⟨hj53, hj52⟩ := hz.of_abs_sub_le (heq ▸ hhalf)
      exact .inr ⟨by rw [heq], even_significand_mul_two_pow hk53 hk52 heven,
        odd_significand_mul_two_pow hj53 hj52 hodd⟩
  -- The bottom of the binade is a multiple of the step and lies between `n'` and `y`.
  · have hs0 : s ≠ 0 := by
      rintro rfl
      exact hdvd (Nat.one_dvd n')
    have hlt : n' < 2 ^ 52 * 2 ^ s := by
      by_contra! hle
      exact hdvd (hn'.two_pow_dvd (by rwa [Nat.pow_add]))
    have hlt : (n' : ℚ) < 2 ^ 52 * 2 ^ s := by exact_mod_cast hlt
    have hle : 2 ^ 52 * 2 ^ s ≤ z * 2 ^ s :=
      mul_le_mul_of_nonneg_right (hz.le.resolve_left hs0) hpow.le
    have hbottom := abs_sub_nearestInteger_le z (2 ^ 52 : ℕ)
    rw [hk, Int.cast_natCast, Int.cast_natCast] at hbottom
    left
    calc |z * 2 ^ s - (k * 2 ^ s : ℕ)| ≤ |z * 2 ^ s - (2 ^ 52 * 2 ^ s : ℕ)| := by
          rw [abs_sub_steps, abs_sub_steps]
          exact mul_le_mul_of_nonneg_right hbottom hpow.le
      _ < |z * 2 ^ s - n'| := by
          push_cast
          rw [abs_of_nonneg (by linarith), abs_of_nonneg (by linarith)]
          linarith

/-- The value of a magnitude. -/
def Magnitude.value (m : Magnitude) : ℚ := m.units / 2 ^ unitPlaces

/-- `m` is the magnitude nearest to `x`, the one with the even significand of two equally near. -/
structure Magnitude.IsNearest (m : Magnitude) (x : ℚ) : Prop where
  le (m' : Magnitude) : |x - m.value| ≤ |x - m'.value|
  even {m' : Magnitude} : m' ≠ m → |x - m.value| = |x - m'.value| → Even (significand m.units)

theorem Magnitude.abs_sub_value (m : Magnitude) (x : ℚ) :
    |x - m.value| = |x * 2 ^ unitPlaces - m.units| / 2 ^ unitPlaces := by
  have hpow : (0 : ℚ) < 2 ^ unitPlaces := by positivity
  have hsplit : x - m.value = (x * 2 ^ unitPlaces - m.units) / 2 ^ unitPlaces := by
    rw [Magnitude.value]
    field_simp
  rw [hsplit, abs_div, abs_of_pos hpow]

theorem Magnitude.units_inj {m m' : Magnitude} : m.units = m'.units ↔ m = m' := by
  refine ⟨fun h => ?_, fun h => h ▸ rfl⟩
  obtain ⟨_, _, _⟩ := m
  obtain ⟨_, _, _⟩ := m'
  subst h
  rfl

theorem Magnitude.value_inj {m m' : Magnitude} : m.value = m'.value ↔ m = m' := by
  have hpow : (2 : ℚ) ^ unitPlaces ≠ 0 := by positivity
  rw [value, value, div_left_inj' hpow, Nat.cast_inj, units_inj]

theorem exists_natCast_eq_roundUnits {y : ℚ} (hy : 0 ≤ y) :
    ∃ n : ℕ, KeepsPrecision n ∧ (n : ℚ) = roundUnits y := by
  obtain ⟨s, z, hz, -, hs⟩ := exists_steps hy
  obtain ⟨k, hk⟩ := Int.eq_ofNat_of_zero_le
    (le_nearestInteger (k := 0) (by exact_mod_cast hz.nonneg))
  have hhalf := two_mul_abs_sub_nearestInteger_le z
  rw [hk, Int.cast_natCast] at hhalf
  refine ⟨k * 2 ^ s, keepsPrecision_mul_two_pow (hz.of_abs_sub_le hhalf).1, ?_⟩
  rw [hs, hk]
  push_cast
  rfl

/-- **The nearest magnitude is the rounded number of units.** -/
theorem Magnitude.isNearest_iff {m : Magnitude} {x : ℚ} (hx : 0 ≤ x)
    (hlt : roundUnits (x * 2 ^ unitPlaces) < rangeEnd) :
    m.IsNearest x ↔ (m.units : ℚ) = roundUnits (x * 2 ^ unitPlaces) := by
  have hpow : (0 : ℚ) < 2 ^ unitPlaces := by positivity
  have hy : 0 ≤ x * 2 ^ unitPlaces := by positivity
  obtain ⟨n, hn, hround⟩ := exists_natCast_eq_roundUnits hy
  rw [← hround] at hlt ⊢
  let rounded : Magnitude := ⟨n, hn, Nat.cast_lt.1 hlt⟩
  rw [Nat.cast_inj]
  constructor
  · intro h
    by_contra hne
    have hle := h.le rounded
    rw [abs_sub_value, abs_sub_value, div_le_div_iff_of_pos_right hpow] at hle
    obtain hlt | ⟨heq, -, hodd⟩ := abs_sub_roundUnits_lt_or hy hround m.keepsPrecision hne
    · exact absurd hle (not_le.2 hlt)
    · have hne' : rounded ≠ m := by
        rintro rfl
        exact hne rfl
      refine Nat.not_even_iff_odd.2 hodd (h.even hne' ?_)
      rw [abs_sub_value, abs_sub_value, heq]
  · rintro rfl
    have hnearest {m' : Magnitude} (hne : m' ≠ m) :=
      abs_sub_roundUnits_lt_or hy hround m'.keepsPrecision (mt Magnitude.units_inj.1 hne)
    constructor
    · intro m'
      obtain rfl | hne := eq_or_ne m' m
      · exact le_rfl
      rw [abs_sub_value, abs_sub_value, div_le_div_iff_of_pos_right hpow]
      exact (hnearest hne).elim le_of_lt fun h => h.1.le
    · intro m' hne heq
      rw [abs_sub_value, abs_sub_value, div_left_inj' hpow.ne'] at heq
      exact ((hnearest hne).resolve_left heq.not_lt).2.1

/-! ## Rounding to significant bits first -/

/-- Rounding `x` to 53 significant bits moves it onto the middle between two neighbouring multiples
of `2^-1074`, and the tie then goes to the one that is not on its own side. -/
def RoundsTwice (x : ℚ) : Prop :=
  ∃ k : ℤ, roundSignificant x = (k + 1 / 2) * 2 ^ (-1074 : ℤ) ∧
    if Even k then roundSignificant x < x else x < roundSignificant x

theorem two_zpow_neg_units : (2 : ℚ) ^ (-1074 : ℤ) = (2 ^ unitPlaces)⁻¹ := by
  rw [show (-1074 : ℤ) = -((unitPlaces : ℕ) : ℤ) from rfl, zpow_neg, zpow_natCast]

/-- The least number above the subnormal range, in units. -/
theorem two_pow_le_mul_units_iff {x : ℚ} : 2 ^ 52 ≤ x * 2 ^ unitPlaces ↔ 2 ^ (-1022 : ℤ) ≤ x := by
  have hpow : (0 : ℚ) < 2 ^ unitPlaces := by positivity
  have hunits : (2 : ℚ) ^ 52 = 2 ^ (-1022 : ℤ) * 2 ^ unitPlaces := by
    rw [← zpow_natCast 2 52, ← zpow_natCast 2 unitPlaces, ← zpow_add₀ two_ne_zero]
    congr 1
  rw [hunits, mul_le_mul_iff_left₀ hpow]

theorem Magnitude.value_eq_nearestMultiple {m : Magnitude} {r : ℚ}
    (hm : (m.units : ℚ) = nearestInteger (r * 2 ^ unitPlaces)) :
    m.value = nearestMultiple (2 ^ (-1074 : ℤ)) r := by
  rw [value, nearestMultiple, two_zpow_neg_units, div_inv_eq_mul, hm, div_eq_mul_inv]

theorem roundSignificant_mul_units {x : ℚ} (hx : 0 ≤ x) :
    roundSignificant (x * 2 ^ unitPlaces) = roundSignificant x * 2 ^ unitPlaces := by
  rw [← zpow_natCast, roundSignificant_mul_zpow hx]

/-- The same in units. -/
theorem roundsTwice_iff {x : ℚ} (hx : 0 ≤ x) :
    RoundsTwice x ↔ ∃ k : ℤ, roundSignificant (x * 2 ^ unitPlaces) = k + 1 / 2 ∧
      if Even k then roundSignificant (x * 2 ^ unitPlaces) < x * 2 ^ unitPlaces
      else x * 2 ^ unitPlaces < roundSignificant (x * 2 ^ unitPlaces) := by
  have hpow : (0 : ℚ) < 2 ^ unitPlaces := by positivity
  simp only [RoundsTwice, two_zpow_neg_units, roundSignificant_mul_units hx,
    mul_lt_mul_iff_left₀ hpow, eq_mul_inv_iff_mul_eq₀ hpow.ne']

/-- From `2^52` units on, 53 significant bits leave no fraction. -/
theorem exists_natCast_eq_roundSignificant {y : ℚ} (h : 2 ^ 52 ≤ y) :
    ∃ n : ℕ, (n : ℚ) = roundSignificant y := by
  obtain ⟨n, -, hn⟩ := exists_natCast_eq_roundUnits (le_trans (by norm_num) h)
  exact ⟨n, hn.trans (roundUnits_of_le h)⟩

/-- What is rounded to `2^52` units or more has no fraction of a unit after that. -/
theorem nearestInteger_roundSignificant_of_le {y : ℚ} (hy : 0 ≤ y)
    (h : 2 ^ 52 ≤ roundSignificant y) :
    (nearestInteger (roundSignificant y) : ℚ) = roundSignificant y := by
  rcases hy.eq_or_lt with rfl | hy
  · simp
  obtain ⟨n, hn⟩ : ∃ n : ℕ, (n : ℚ) = roundSignificant y := by
    rcases lt_or_ge y (2 ^ 52) with hsmall | hlarge
    · have hle := roundSignificant_le hy hsmall (j := 2 ^ 53) (by push_cast; linarith)
      refine ⟨2 ^ 52, ?_⟩
      push_cast at hle ⊢
      linarith
    · exact exists_natCast_eq_roundSignificant hlarge
  rw [← hn, ← Int.cast_natCast, nearestInteger_intCast]

/-- Above the subnormal range the number rounded to significant bits is a magnitude. -/
theorem Magnitude.value_eq_roundSignificant {m : Magnitude} {x : ℚ} (hx : 0 ≤ x)
    (hm : (m.units : ℚ) = nearestInteger (roundSignificant x * 2 ^ unitPlaces))
    (h : 2 ^ (-1022 : ℤ) ≤ roundSignificant x) : m.value = roundSignificant x := by
  have hpow : (0 : ℚ) < 2 ^ unitPlaces := by positivity
  rw [← two_pow_le_mul_units_iff, ← roundSignificant_mul_units hx] at h
  rw [← roundSignificant_mul_units hx, nearestInteger_roundSignificant_of_le (by positivity) h,
    roundSignificant_mul_units hx] at hm
  rw [value, hm, mul_div_cancel_right₀ _ hpow.ne']

/-- Only in the subnormal range is there anything to round twice. -/
theorem RoundsTwice.lt {x : ℚ} (hx : 0 ≤ x) (h : RoundsTwice x) : x < 2 ^ (-1022 : ℤ) := by
  obtain ⟨k, hk, -⟩ := (roundsTwice_iff hx).1 h
  by_contra! hle
  obtain ⟨n, hn⟩ := exists_natCast_eq_roundSignificant (two_pow_le_mul_units_iff.2 hle)
  rw [hk] at hn
  have hdouble : ((2 * n : ℤ) : ℚ) = (2 * k + 1 : ℤ) := by
    push_cast
    linarith
  have := Int.cast_inj.1 hdouble
  omega

/-- **When rounding to significant bits first still gives the nearest magnitude.** -/
theorem Magnitude.isNearest_iff_not_roundsTwice {m : Magnitude} {x : ℚ} (hx : 0 ≤ x)
    (hlt : roundSignificant x * 2 ^ unitPlaces < rangeEnd)
    (hm : (m.units : ℚ) = nearestInteger (roundSignificant x * 2 ^ unitPlaces)) :
    m.IsNearest x ↔ ¬RoundsTwice x := by
  have hy : 0 ≤ x * 2 ^ unitPlaces := by positivity
  rw [← roundSignificant_mul_units hx] at hlt hm
  rcases lt_or_ge (x * 2 ^ unitPlaces) (2 ^ 52) with hsmall | hlarge
  · have hround := roundUnits_of_lt hy (lt_trans hsmall (by norm_num))
    have hend : ((nearestInteger (x * 2 ^ unitPlaces) : ℤ) : ℚ) < rangeEnd := by
      have hle : nearestInteger (x * 2 ^ unitPlaces) ≤ (2 ^ 52 : ℕ) :=
        nearestInteger_le (by exact_mod_cast hsmall.le)
      have hlt : 2 ^ 52 < rangeEnd := Nat.pow_lt_pow_right (by decide) (by decide)
      exact_mod_cast lt_of_le_of_lt hle (Int.ofNat_lt.2 hlt)
    rw [isNearest_iff hx (hround ▸ hend), hround, hm, Int.cast_inj,
      nearestInteger_roundSignificant_eq_iff hy hsmall, roundsTwice_iff hx]
  · have hround := roundUnits_of_le hlarge
    obtain ⟨n, hn⟩ := exists_natCast_eq_roundSignificant hlarge
    rw [isNearest_iff hx (hround ▸ hlt), hround, hm]
    refine iff_of_true ?_ fun h => (h.lt hx).not_ge (two_pow_le_mul_units_iff.1 hlarge)
    rw [← hn, ← Int.cast_natCast, nearestInteger_intCast]

/-! ## The end of the range -/

theorem two_pow_1024_mul : ((rangeEnd : Nat) : ℚ) = 2 ^ 1024 * 2 ^ unitPlaces := by
  rw [rangeEnd, show rangeBits = 1024 + unitPlaces from rfl, Nat.cast_pow, pow_add]
  rfl

/-- Rounding to significant bits leads out of the range from the point halfway to its end on. -/
theorem two_pow_1024_le_roundSignificant_iff {x : ℚ} (hx : 0 ≤ x) :
    2 ^ 1024 ≤ roundSignificant x ↔ 2 ^ 1024 - 2 ^ 970 ≤ x := by
  have hiff := two_zpow_le_roundSignificant_iff hx 1024
  rw [show (1024 : ℤ) - 54 = ((970 : ℕ) : ℤ) from rfl, show (1024 : ℤ) = ((1024 : ℕ) : ℤ) from rfl,
    zpow_natCast, zpow_natCast] at hiff
  exact hiff

end Calculator
