import Calculator.Proofs.Number.ScaledQuotient

/-!
# Division of integers

The quotient of two integers is rounded to 53 significant bits and then to units of `2^-1074`. Both
ways of computing it come to that.

* `divideIntegers_eq`: dividing directly gives what the scaled quotient gives.
* `div_eq_error_iff`, `exists_div_eq`: when a quotient is too large, and what it is otherwise.
* `div_integers_rounded`: the quotient of any two integers.
* `div_integers_nearest_iff`: when it is the number nearest to the exact quotient; `div_half_unit`
  is one that is not.
-/

namespace Calculator

/-! ## Integers as floats -/

namespace Double

theorem ofRatio_congr {s : Bool} {a b a' b' : Nat}
    (h : roundToPrecision a b = roundToPrecision a' b') : ofRatio s a b = ofRatio s a' b' := by
  unfold ofRatio
  simp only [h]

/-- `2^53` and what lies below it, in units. -/
theorem mul_units_lt {n : Nat} (h : n < 2 ^ 53) : n * 2 ^ unitPlaces < 2 ^ (53 + unitPlaces) := by
  rw [Nat.pow_add]
  exact Nat.mul_lt_mul_of_pos_right h (Nat.two_pow_pos unitPlaces)

theorem two_pow_units_lt_rangeEnd : 2 ^ (53 + unitPlaces) < rangeEnd :=
  Nat.pow_lt_pow_right (by decide) (by decide)

theorem isInfinite_ofRatio {a b : Nat} (s : Bool) (h : a < 2 ^ 53) :
    (ofRatio s (a * 2 ^ unitPlaces) b).isInfinite = false := by
  have hlt : a * 2 ^ unitPlaces / b < 2 ^ (53 + unitPlaces) :=
    Nat.lt_of_le_of_lt (Nat.div_le_self _ _) (mul_units_lt h)
  have hround := roundToPrecision_le hlt (Nat.le_add_right _ _)
  rw [ofRatio, dif_pos (Nat.lt_of_le_of_lt hround two_pow_units_lt_rangeEnd)]
  rfl

/-- The sign may be attached to the rounded number. -/
theorem signed_ofRatio (s : Bool) (a b : Nat) :
    (if s then -ofRatio false a b else ofRatio false a b) = ofRatio s a b := by
  cases s with
  | false => rw [if_neg Bool.false_ne_true]
  | true =>
    rw [if_pos rfl]
    show neg (ofRatio false a b) = _
    rcases Nat.lt_or_ge (roundToPrecision a b) rangeEnd with h | h
    · rw [ofRatio, ofRatio, dif_pos h, dif_pos h, neg, Bool.not_false]
    · rw [ofRatio, ofRatio, dif_neg h.not_gt, dif_neg h.not_gt, neg, Bool.not_false]

/-- Integers of at most 53 bits are exact as floats. -/
theorem exists_ofInt_eq {n : Int} (h : Number.bitLength n ≤ Number.significandBits) :
    ∃ m : Magnitude, ofInt n = .finite (n < 0) m ∧ m.units = n.natAbs * unitsPerOne := by
  have hlt : n.natAbs < 2 ^ 53 := Number.bitLength_le_iff.1 h
  have hrange := Nat.lt_trans (mul_units_lt hlt) two_pow_units_lt_rangeEnd
  let m : Magnitude :=
    ⟨n.natAbs * unitsPerOne, keepsPrecision_mul_two_pow (Nat.le_of_lt hlt), hrange⟩
  exact ⟨m, (ofInt_eq n).trans (ofRatio_units _ m), rfl⟩

/-- The quotient of two integers of at most 53 bits is rounded once. -/
theorem ofInt_div_ofInt {a b : Int} (ha : Number.bitLength a ≤ Number.significandBits)
    (hb : Number.bitLength b ≤ Number.significandBits) (hb0 : b ≠ 0) :
    ofInt a / ofInt b =
      ofRatio (decide (a < 0) != decide (b < 0)) (a.natAbs * unitsPerOne) b.natAbs := by
  have hunits : 0 < unitsPerOne := Nat.two_pow_pos unitPlaces
  obtain ⟨m, hm, ham⟩ := exists_ofInt_eq ha
  obtain ⟨m', hm', hbm⟩ := exists_ofInt_eq hb
  have hne : m'.units ≠ 0 := by
    rw [hbm]
    exact Nat.mul_ne_zero (Int.natAbs_ne_zero.2 hb0) (Nat.ne_of_gt hunits)
  rw [hm, hm']
  show div _ _ = _
  rw [div, if_neg hne, ham, hbm, ofRatio_mul_right hunits]

end Double

namespace Number

/-! ## The magnitude of a quotient -/

/-- From `2^-1022` on, and at zero, the scaled quotient is the ratio rounded once. -/
theorem scaledQuotient_eq_ofRatio {a b : Nat} (hb : 0 < b)
    (h : a = 0 ∨ 2 ^ 52 * b ≤ a * 2 ^ unitPlaces) :
    scaledQuotient a b = Double.ofRatio false (a * 2 ^ unitPlaces) b := by
  rcases h with rfl | h
  · have hzero : Double.ofRatio false 0 b = .zero false := Double.ofRatio_eq_zero hb
    rw [scaledQuotient_zero, Nat.zero_mul, hzero]
  obtain ⟨n, u, -, hscaled, hn⟩ := exists_scaledQuotient_eq a hb
  have hdiv : ((a * 2 ^ unitPlaces : Nat) / b : ℚ) = a / b * 2 ^ unitPlaces := by
    push_cast
    rw [mul_div_right_comm]
  have hlow := two_pow_le_div hb ((Nat.le_div_iff_mul_le hb).2 h)
  have hround : n = roundToPrecision (a * 2 ^ unitPlaces) b * 2 ^ u := by
    have hx : (0 : ℚ) ≤ a / b := div_nonneg (Nat.cast_nonneg a) (Nat.cast_nonneg b)
    rw [hdiv] at hlow
    rw [← roundSignificant_mul_units hx, ← roundUnits_of_le hlow, ← hdiv,
      ← natCast_roundToPrecision _ hb] at hn
    exact_mod_cast hn
  have hexact : n * 1 = roundToPrecision (a * 2 ^ unitPlaces) b * 2 ^ u := by
    rw [Nat.mul_one, hround]
  rw [hscaled, Double.ofRatio_eq_of_mul_eq (Nat.two_pow_pos u) Nat.one_pos hexact]
  exact Double.ofRatio_congr (roundToPrecision_self (keepsPrecision_roundToPrecision _ _))

theorem scaledQuotient_eq_infinite {a b : Nat} (hb : 0 < b)
    (h : 2 ^ 1024 ≤ roundSignificant (a / b : ℚ)) : scaledQuotient a b = .infinite false := by
  obtain ⟨n, u, -, hscaled, hn⟩ := exists_scaledQuotient_eq a hb
  have hle : ((rangeEnd * 2 ^ u : Nat) : ℚ) ≤ n := by
    rw [hn, Nat.cast_mul, two_pow_1024_mul, Nat.cast_pow, Nat.cast_ofNat]
    gcongr
  rw [hscaled, Double.ofRatio_eq_infinite (Nat.two_pow_pos u) (Nat.cast_le.1 hle)]

theorem exists_scaledQuotient_eq_finite {a b : Nat} (hb : 0 < b)
    (h : roundSignificant (a / b : ℚ) < 2 ^ 1024) :
    ∃ m : Magnitude, scaledQuotient a b = .finite false m ∧
      (m.units : ℚ) = nearestInteger (roundSignificant (a / b) * 2 ^ unitPlaces) := by
  obtain ⟨n, u, hkeeps, hscaled, hn⟩ := exists_scaledQuotient_eq a hb
  have hpow : (0 : ℚ) < 2 ^ u := by positivity
  have hlt : (n : ℚ) < (rangeEnd * 2 ^ u : Nat) := by
    rw [hn, Nat.cast_mul, two_pow_1024_mul, Nat.cast_pow, Nat.cast_ofNat]
    gcongr
  obtain ⟨m, hm, hunits⟩ := Double.exists_ofRatio_two_pow (s := false) hkeeps (Nat.cast_lt.1 hlt)
  refine ⟨m, hscaled.trans hm, ?_⟩
  have hround := natCast_roundHalfEven n (Nat.two_pow_pos u)
  rw [Nat.cast_pow, Nat.cast_ofNat, hn, mul_div_cancel_right₀ _ hpow.ne', ← hunits] at hround
  rw [← hround, Int.cast_natCast]

/-! ## The two ways to divide -/

variable {a b : Int}

theorem abs_div_eq (a b : Int) : |(a / b : ℚ)| = a.natAbs / b.natAbs := by
  rw [abs_div, Nat.cast_natAbs, Nat.cast_natAbs, Int.cast_abs, Int.cast_abs]

/-- For operands of at most 53 bits the scaled quotient is the one that is computed directly. -/
theorem divideScaled_eq (ha : bitLength a ≤ significandBits) (hb : bitLength b ≤ significandBits)
    (hb0 : b ≠ 0) : divideScaled a b = .ok (.float (Double.ofInt a / Double.ofInt b)) := by
  have hpos : 0 < b.natAbs := Int.natAbs_pos.2 hb0
  have hunits : 105 ≤ unitPlaces := by decide
  have hlow : a.natAbs = 0 ∨ 2 ^ 52 * b.natAbs ≤ a.natAbs * 2 ^ unitPlaces := by
    refine (Nat.eq_zero_or_pos a.natAbs).imp id fun hapos => ?_
    calc 2 ^ 52 * b.natAbs ≤ 2 ^ 52 * 2 ^ 53 :=
          Nat.mul_le_mul_left _ (Nat.le_of_lt (bitLength_le_iff.1 hb))
      _ ≤ 2 ^ unitPlaces := by
          rw [← Nat.pow_add]
          exact Nat.pow_le_pow_right Nat.two_pos hunits
      _ ≤ a.natAbs * 2 ^ unitPlaces := Nat.le_mul_of_pos_left _ hapos
  have hfinite := Double.isInfinite_ofRatio (b := b.natAbs) false (bitLength_le_iff.1 ha)
  rw [divideScaled, scaledQuotient_eq_ofRatio hpos hlow, hfinite, if_neg Bool.false_ne_true,
    Double.signed_ofRatio, Double.ofInt_div_ofInt ha hb hb0, Double.unitsPerOne]

/-- Both ways to divide give the same. -/
theorem divideIntegers_eq (hb : b ≠ 0) : divideIntegers a b = divideScaled a b := by
  unfold divideIntegers
  split
  · next h => rw [divideScaled_eq h.1 h.2 hb]
  · rfl

theorem div_integer_integer (hb : b ≠ 0) :
    div (.integer a) (.integer b) = divideScaled a b := by
  rw [div, if_neg (by simpa [isZero] using hb)]
  exact divideIntegers_eq hb

/-! ## The quotient -/

/-- The quotient is too large when rounding it to significant bits leads out of the range. -/
theorem div_of_le (hb : b ≠ 0) (h : 2 ^ 1024 ≤ roundSignificant |(a / b : ℚ)|) :
    div (.integer a) (.integer b) = .error .integerQuotientTooLarge := by
  rw [abs_div_eq] at h
  rw [div_integer_integer hb, divideScaled, scaledQuotient_eq_infinite (Int.natAbs_pos.2 hb) h]
  rfl

/-- Otherwise it is finite, of the sign that the signs of the operands give. -/
theorem exists_div_eq (hb : b ≠ 0) (h : roundSignificant |(a / b : ℚ)| < 2 ^ 1024) :
    ∃ m : Magnitude,
      div (.integer a) (.integer b) =
        .ok (.float (.finite (decide (a < 0) != decide (b < 0)) m)) ∧
      (m.units : ℚ) = nearestInteger (roundSignificant |(a / b : ℚ)| * 2 ^ unitPlaces) := by
  rw [abs_div_eq] at h ⊢
  obtain ⟨m, hm, hunits⟩ := exists_scaledQuotient_eq_finite (Int.natAbs_pos.2 hb) h
  refine ⟨m, ?_, hunits⟩
  rw [div_integer_integer hb, divideScaled, hm]
  cases decide (a < 0) != decide (b < 0) <;> rfl

theorem div_eq_error_iff (hb : b ≠ 0) :
    div (.integer a) (.integer b) = .error .integerQuotientTooLarge ↔
      2 ^ 1024 ≤ roundSignificant |(a / b : ℚ)| := by
  refine ⟨fun h => ?_, div_of_le hb⟩
  by_contra! hlt
  obtain ⟨m, hm, -⟩ := exists_div_eq hb hlt
  rw [hm] at h
  exact absurd h nofun

/-- **What dividing integers gives.** The quotient rounded to 53 significant bits decides whether
the result is in the range, and rounded once more, to units, it is the result. Dividing directly,
which is done for operands of at most 53 bits, gives the same. -/
theorem div_integers_rounded (hb : b ≠ 0) :
    (div (.integer a) (.integer b) = .error .integerQuotientTooLarge ↔
      2 ^ 1024 ≤ roundSignificant |(a / b : ℚ)|) ∧
    (2 ^ 1024 ≤ roundSignificant |(a / b : ℚ)| ↔ 2 ^ 1024 - 2 ^ 970 ≤ |(a / b : ℚ)|) ∧
    (roundSignificant |(a / b : ℚ)| < 2 ^ 1024 → ∃ m : Magnitude,
      div (.integer a) (.integer b) =
        .ok (.float (.finite (decide (a < 0) != decide (b < 0)) m)) ∧
      m.value = nearestMultiple (2 ^ (-1074 : ℤ)) (roundSignificant |(a / b : ℚ)|) ∧
      (2 ^ (-1022 : ℤ) ≤ roundSignificant |(a / b : ℚ)| →
        m.value = roundSignificant |(a / b : ℚ)|)) ∧
    (bitLength a ≤ significandBits → bitLength b ≤ significandBits →
      divideScaled a b = .ok (.float (Double.ofInt a / Double.ofInt b))) := by
  have hx : 0 ≤ |(a / b : ℚ)| := abs_nonneg _
  refine ⟨div_eq_error_iff hb, two_pow_1024_le_roundSignificant_iff hx, fun hlt => ?_,
    fun ha hb' => divideScaled_eq ha hb' hb⟩
  obtain ⟨m, hm, hunits⟩ := exists_div_eq hb hlt
  refine ⟨m, hm, Magnitude.value_eq_nearestMultiple hunits, fun hnormal => ?_⟩
  exact Magnitude.value_eq_roundSignificant hx hunits hnormal

theorem div_integers_rounded_powers :
    (2 ^ 201 : ℤ) ≠ 0 ∧ ∃ m : Magnitude,
      div (.integer (-(3 * 2 ^ 200))) (.integer (2 ^ 201)) = .ok (.float (.finite true m)) ∧
      m.value = 3 / 2 := by
  have hb : (2 ^ 201 : ℤ) ≠ 0 := pow_ne_zero 201 two_ne_zero
  have hquotient : |((-(3 * 2 ^ 200) : ℤ) / (2 ^ 201 : ℤ) : ℚ)| = (3 : ℕ) * 2 ^ (-1 : ℤ) := by
    rw [abs_div_eq]
    norm_num
  have hend : (3 : ℚ) * 2 ^ (-1 : ℤ) < 2 ^ 1024 :=
    lt_of_lt_of_le (by norm_num) (le_self_pow₀ one_le_two (show 1024 ≠ 0 by decide))
  have hnormal : (2 : ℚ) ^ (-1022 : ℤ) ≤ 3 * 2 ^ (-1 : ℤ) :=
    (zpow_le_zpow_right₀ one_le_two (by decide)).trans
      (le_mul_of_one_le_left (by positivity) (by norm_num))
  obtain ⟨-, -, hfinite, -⟩ := div_integers_rounded (a := -(3 * 2 ^ 200)) hb
  rw [hquotient, roundSignificant_natCast_mul_zpow (by decide)] at hfinite
  obtain ⟨m, hm, -, hvalue⟩ := hfinite hend
  have hpow : (0 : ℤ) < 2 ^ 200 := by positivity
  have hpow' : (0 : ℤ) < 2 ^ 201 := by positivity
  rw [decide_eq_true (by omega), decide_eq_false (by omega)] at hm
  refine ⟨hb, m, hm, ?_⟩
  rw [hvalue hnormal]
  norm_num

/-- **When the quotient of integers is the number nearest to the exact one.** It always is, but for
subnormal results where the first of two roundings lands on the middle between two numbers. -/
theorem div_integers_nearest_iff (hb : b ≠ 0) :
    (div (.integer a) (.integer b) = .error .integerQuotientTooLarge ↔
      2 ^ 1024 - 2 ^ 970 ≤ |(a / b : ℚ)|) ∧
    (|(a / b : ℚ)| < 2 ^ 1024 - 2 ^ 970 → ∃ m : Magnitude,
      div (.integer a) (.integer b) =
        .ok (.float (.finite (decide (a < 0) != decide (b < 0)) m)) ∧
      (m.IsNearest |(a / b : ℚ)| ↔ ¬RoundsTwice |(a / b : ℚ)|)) ∧
    (RoundsTwice |(a / b : ℚ)| → |(a / b : ℚ)| < 2 ^ (-1022 : ℤ)) := by
  have hx : 0 ≤ |(a / b : ℚ)| := abs_nonneg _
  have hend := two_pow_1024_le_roundSignificant_iff hx
  refine ⟨(div_eq_error_iff hb).trans hend, fun hlt => ?_, fun h => h.lt hx⟩
  have hround := lt_of_not_ge fun h => hlt.not_ge (hend.1 h)
  obtain ⟨m, hm, hunits⟩ := exists_div_eq hb hround
  refine ⟨m, hm, Magnitude.isNearest_iff_not_roundsTwice hx ?_ hunits⟩
  rw [two_pow_1024_mul]
  gcongr

theorem div_integers_nearest_third :
    (3 : ℤ) ≠ 0 ∧ ∃ m : Magnitude,
      div (.integer 1) (.integer 3) = .ok (.float (.finite false m)) ∧ m.IsNearest (1 / 3) := by
  have hb : (3 : ℤ) ≠ 0 := by decide
  obtain ⟨-, hfinite, hsubnormal⟩ := div_integers_nearest_iff (a := 1) hb
  have hquotient : |((1 : ℤ) / (3 : ℤ) : ℚ)| = 1 / 3 := by norm_num
  rw [hquotient] at hfinite hsubnormal
  obtain ⟨m, hm, hnearest⟩ := hfinite (by
    have hend : (2 : ℚ) ^ 1024 = 2 ^ 54 * 2 ^ 970 := pow_add 2 54 970
    have hone : (1 : ℚ) ≤ 2 ^ 970 := one_le_pow₀ one_le_two
    rw [hend]
    generalize (2 : ℚ) ^ 970 = p at hone
    norm_num
    linarith)
  refine ⟨hb, m, hm, hnearest.2 fun h => ?_⟩
  have hsmall : (2 : ℚ) ^ (-1022 : ℤ) ≤ 2 ^ (-2 : ℤ) := zpow_le_zpow_right₀ one_le_two (by decide)
  have hlt := lt_of_lt_of_le (hsubnormal h) hsmall
  norm_num at hlt

theorem roundSignificant_two_pow_add_one : roundSignificant ((2 ^ 53 + 1 : ℕ) : ℚ) = 2 ^ 53 := by
  have hnat : roundToPrecision (2 ^ 53 + 1) 1 = 2 ^ 53 := by decide
  have hround := natCast_roundToPrecision (2 ^ 53 + 1) Nat.one_pos
  rw [hnat, Nat.cast_one, div_one, roundUnits_of_le (by norm_num)] at hround
  exact_mod_cast hround.symm

/-- A quotient just above half a unit. Rounded to 53 significant bits it is half a unit, and that
becomes zero, although one unit is nearer. -/
theorem div_half_unit : ∃ m m' : Magnitude,
    div (.integer (2 ^ 53 + 1)) (.integer (2 ^ 1128)) = .ok (.float (.finite false m)) ∧
    |((2 ^ 53 + 1 : ℤ) / (2 ^ 1128 : ℤ) : ℚ) - m'.value| <
      |((2 ^ 53 + 1 : ℤ) / (2 ^ 1128 : ℤ) : ℚ) - m.value| := by
  have hb : (2 ^ 1128 : ℤ) ≠ 0 := pow_ne_zero 1128 two_ne_zero
  have hpow : (0 : ℤ) < 2 ^ 1128 := by positivity
  let unit : Magnitude := ⟨1, by decide, Nat.one_lt_two_pow (by decide)⟩
  have hquotient : ((2 ^ 53 + 1 : ℤ) / (2 ^ 1128 : ℤ) : ℚ) =
      (2 ^ 53 + 1 : ℕ) * 2 ^ (-1128 : ℤ) := by
    have hnum : ((2 ^ 53 + 1 : ℤ) : ℚ) = (2 ^ 53 + 1 : ℕ) := by norm_num
    rw [zpow_neg, zpow_ofNat, ← div_eq_mul_inv, Int.cast_pow, Int.cast_ofNat, hnum]
  have habs : |((2 ^ 53 + 1 : ℤ) / (2 ^ 1128 : ℤ) : ℚ)| =
      (2 ^ 53 + 1 : ℕ) * 2 ^ (-1128 : ℤ) := by
    rw [hquotient, abs_of_nonneg (by positivity)]
  have hhalf : (2 : ℚ) ^ (-1128 : ℤ) * 2 ^ unitPlaces = 1 / 2 ^ 54 := by
    rw [← zpow_natCast 2 unitPlaces, ← zpow_add₀ two_ne_zero,
      show -1128 + (unitPlaces : ℤ) = -54 from rfl]
    norm_num
  obtain ⟨m, hm, hunits⟩ := exists_div_eq (a := 2 ^ 53 + 1) hb (by
    have hpow : (2 : ℚ) ^ (-1128 : ℤ) ≤ 1 := zpow_le_one_of_nonpos₀ one_le_two (by decide)
    rw [habs, roundSignificant_mul_zpow (by positivity), roundSignificant_two_pow_add_one]
    exact lt_of_le_of_lt (mul_le_of_le_one_right (by norm_num) hpow)
      (pow_lt_pow_right₀ one_lt_two (by decide)))
  rw [habs, roundSignificant_mul_zpow (by positivity), roundSignificant_two_pow_add_one, mul_assoc,
    hhalf] at hunits
  refine ⟨m, unit, ?_, ?_⟩
  · rw [hm, decide_eq_false (by omega), decide_eq_false (by omega)]
    rfl
  · have hzero : nearestInteger (2 ^ 53 * (1 / 2 ^ 54)) = 0 :=
      nearestInteger_eq_iff.2 ⟨by norm_num, fun _ => by decide⟩
    have hunit : (unit.units : ℚ) = 1 := Nat.cast_one
    rw [Magnitude.abs_sub_value, Magnitude.abs_sub_value, hquotient, mul_assoc, hhalf, hunits,
      hzero, hunit]
    refine div_lt_div_of_pos_right ?_ (by positivity)
    norm_num

end Number

end Calculator
