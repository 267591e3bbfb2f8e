import Calculator.Proofs.Double.Value

/-!
# Operations on exact values

What the operations on finite numbers give, as rational numbers. The rounded operations give the
number nearest to the exact result; remainders, floors and comparisons are exact.

* `Double.isNearest_add`, `Double.isNearest_sub`, `Double.isNearest_mul`, `Double.isNearest_div`.
* `Double.exists_rem_eq`, `Double.floor_eq`, `Double.lt_iff`: the exact ones.
* `roundNearest_intCast`, `roundNearest_natCast_div`: small integers and fractions stay.
-/

namespace Calculator

/-! ## Numbers that stay -/

/-- Fractions with few bits are magnitudes. -/
theorem Magnitude.exists_value_eq {k j : ℕ} (hk : k ≤ 2 ^ 53) (hj : j ≤ unitPlaces) :
    ∃ m : Magnitude, m.value = k / 2 ^ j := by
  have hpow : (2 : ℚ) ^ j ≠ 0 := by positivity
  have hrange : k * 2 ^ (unitPlaces - j) < rangeEnd :=
    calc k * 2 ^ (unitPlaces - j) ≤ 2 ^ 53 * 2 ^ unitPlaces :=
          Nat.mul_le_mul hk (Nat.pow_le_pow_right Nat.two_pos (Nat.sub_le _ _))
      _ = 2 ^ (53 + unitPlaces) := (Nat.pow_add ..).symm
      _ < rangeEnd := Nat.pow_lt_pow_right (by decide) (by decide)
  refine ⟨⟨k * 2 ^ (unitPlaces - j), keepsPrecision_mul_two_pow hk, hrange⟩, ?_⟩
  have hsplit : (2 : ℚ) ^ unitPlaces = 2 ^ (unitPlaces - j) * 2 ^ j := by
    rw [← pow_add, Nat.sub_add_cancel hj]
  have hne : (2 : ℚ) ^ (unitPlaces - j) ≠ 0 := by positivity
  rw [value, hsplit]
  push_cast
  field_simp

theorem roundNearest_natCast_div {k j : ℕ} (hk : k ≤ 2 ^ 53) (hj : j ≤ unitPlaces) :
    roundNearest (k / 2 ^ j) = k / 2 ^ j := by
  obtain ⟨m, hm⟩ := Magnitude.exists_value_eq hk hj
  rw [← hm, Double.roundNearest_value]

theorem roundNearest_intCast {n : ℤ} (hn : |n| ≤ 2 ^ 53) : roundNearest n = n := by
  have hnat (k : ℕ) (hk : k ≤ 2 ^ 53) : roundNearest k = k := by
    simpa using roundNearest_natCast_div (j := 0) hk (Nat.zero_le _)
  obtain ⟨k, rfl | rfl⟩ := n.eq_nat_or_neg
  · rw [Int.cast_natCast]
    exact hnat k (by simpa using hn)
  · rw [Int.cast_neg, Int.cast_natCast, roundNearest_neg, hnat k (by simpa using hn)]

/-- A number of units other than zero is not rounded to zero. -/
theorem roundNearest_pos_of_units {q : ℚ} {k : ℤ} (hk : q * 2 ^ unitPlaces = k) (hq : 0 < q) :
    0 < roundNearest q := by
  have hpow : (0 : ℚ) < 2 ^ unitPlaces := by positivity
  have hone : (1 : ℚ) ≤ k := by
    have : (0 : ℚ) < k := hk ▸ mul_pos hq hpow
    exact_mod_cast this
  have hunit := roundNearest_natCast_div (k := 1) (by decide) (le_refl unitPlaces)
  rw [Nat.cast_one] at hunit
  refine lt_of_lt_of_le (div_pos one_pos hpow) (hunit ▸ roundNearest_mono ?_)
  rwa [div_le_iff₀ hpow, hk]

namespace Double

/-! ## Values of operands -/

theorem exists_eq_finite_of_isFinite {x : Double} (h : x.isFinite) : ∃ s m, x = .finite s m := by
  cases x with
  | nan | infinite s => cases h
  | finite s m => exact ⟨s, m, rfl⟩

theorem toRat_mul_units (s : Bool) (m : Magnitude) :
    (finite s m).toRat * 2 ^ unitPlaces = signed s m.units :=
  div_mul_cancel₀ _ (by positivity)

theorem natCast_unitsPerOne : (unitsPerOne : ℚ) = 2 ^ unitPlaces := by
  rw [unitsPerOne, Nat.cast_pow, Nat.cast_ofNat]

theorem signed_xor_mul (s t : Bool) (a b : ℕ) :
    signed (s ^^ t) (a * b) = signed s a * signed t b := by
  cases s <;> cases t <;> simp [signed]

theorem abs_signed (s : Bool) (n : ℕ) : |signed s n| = n := by
  cases s <;> simp [signed]

theorem toRat_neg (x : Double) : (-x).toRat = -x.toRat := by
  show (neg x).toRat = _
  cases x with
  | nan | infinite s => exact neg_zero.symm
  | finite s m => cases s <;> simp [neg, toRat, signed, neg_div]

theorem isFinite_neg {x : Double} (h : x.isFinite) : (-x).isFinite := by
  obtain ⟨s, m, rfl⟩ := exists_eq_finite_of_isFinite h
  rfl

theorem isZero_iff {x : Double} (h : x.isFinite) : x.isZero ↔ x.toRat = 0 := by
  obtain ⟨s, m, rfl⟩ := exists_eq_finite_of_isFinite h
  have hpow : (2 : ℚ) ^ unitPlaces ≠ 0 := by positivity
  cases s <;> simp [isZero, toRat, signed, hpow]

theorem isZero_iff_exists {x : Double} : x.isZero ↔ ∃ s, x = zero s := by
  cases x with
  | nan | infinite s => simp [isZero, zero]
  | finite s m =>
    constructor
    · intro h
      exact ⟨s, finite_eq_zero (eq_of_beq h)⟩
    · rintro ⟨t, ⟨⟩⟩
      rfl

@[simp]
theorem toRat_zero (s : Bool) : (zero s).toRat = 0 := by
  cases s <;> simp [zero, toRat, signed]

theorem exists_intCast_eq (x : Double) : ∃ k : ℤ, x.toRat * 2 ^ unitPlaces = k := by
  cases x with
  | nan | infinite s => exact ⟨0, by simp [toRat]⟩
  | finite s m => exact ⟨_, toRat_mul_units s m⟩

theorem signBit_eq {x : Double} (hx : x.isFinite) (hne : x.toRat ≠ 0) :
    x.signBit = decide (x.toRat < 0) := by
  obtain ⟨s, m, rfl⟩ := exists_eq_finite_of_isFinite hx
  have hvalue := value_nonneg m
  rw [toRat_finite] at hne ⊢
  cases s with
  | false => simpa [signBit] using hvalue
  | true =>
    rw [if_pos rfl] at hne ⊢
    have hpos : 0 < m.value := lt_of_le_of_ne hvalue (Ne.symm (neg_ne_zero.1 hne))
    simpa [signBit] using hpos

/-! ## Rounded operations -/

/-- A value is the nearest to itself. -/
theorem isNearest_toRat {x : Double} (hx : x.isFinite) : x.IsNearest x.toRat := by
  obtain ⟨s, m, rfl⟩ := exists_eq_finite_of_isFinite hx
  rw [← ofRatio_units s m]
  refine isNearest_ofRatio Nat.one_pos ?_
  rw [ofRatio_units, toRat_mul_units, Nat.cast_one, mul_one]

theorem isNearest_ofUnits {z : Bool} {n : ℤ} {q : ℚ} (hq : (n : ℚ) = q * 2 ^ unitPlaces) :
    (ofUnits z n).IsNearest q := by
  unfold ofUnits
  split
  · next h =>
    have hzero : ofRatio z 0 1 = zero z := ofRatio_eq_zero Nat.one_pos
    rw [← hzero]
    refine isNearest_ofRatio Nat.one_pos ?_
    rw [Nat.cast_one, mul_one, ← hq, h]
    cases z <;> simp [signed]
  · refine isNearest_ofRatio Nat.one_pos ?_
    rw [Nat.cast_one, mul_one, ← hq, signed_natAbs]

theorem isNearest_ofInt (n : ℤ) : (ofInt n).IsNearest n := by
  refine isNearest_ofUnits ?_
  rw [Int.cast_mul, Int.cast_natCast, natCast_unitsPerOne]

/-- Small integers are exact as floats. -/
theorem ofInt_exact {n : ℤ} (hn : |n| ≤ 2 ^ 53) : (ofInt n).isFinite ∧ (ofInt n).toRat = n := by
  have hbound : |(n : ℚ)| ≤ 2 ^ 53 := by exact_mod_cast hn
  have h := (isNearest_ofInt n).toRat_eq (lt_overflowBound (by decide) hbound)
  rwa [roundNearest_intCast hn] at h

section

variable {s t : Bool} {a b : Magnitude}

theorem finite_add_finite :
    finite s a + finite t b = ofUnits (s && t) (signed s a.units + signed t b.units) := by
  show add _ _ = _
  rw [add]

theorem finite_mul_finite :
    finite s a * finite t b = ofRatio (s ^^ t) (a.units * b.units) unitsPerOne := by
  show mul _ _ = _
  rw [mul]

theorem finite_div_finite (h : b.units ≠ 0) :
    finite s a / finite t b = ofRatio (s ^^ t) (a.units * unitsPerOne) b.units := by
  show div _ _ = _
  rw [div, if_neg h]

end

section

variable {x y : Double}

/-- **The operations are rounded once.** Each gives the number nearest to its exact result. -/
theorem isNearest_add (hx : x.isFinite) (hy : y.isFinite) :
    (x + y).IsNearest (x.toRat + y.toRat) := by
  obtain ⟨s, a, rfl⟩ := exists_eq_finite_of_isFinite hx
  obtain ⟨t, b, rfl⟩ := exists_eq_finite_of_isFinite hy
  rw [finite_add_finite]
  refine isNearest_ofUnits ?_
  rw [add_mul, toRat_mul_units, toRat_mul_units, Int.cast_add]

theorem isNearest_sub (hx : x.isFinite) (hy : y.isFinite) :
    (x - y).IsNearest (x.toRat - y.toRat) := by
  have h := isNearest_add hx (isFinite_neg hy)
  rwa [toRat_neg, ← sub_eq_add_neg] at h

theorem isNearest_mul (hx : x.isFinite) (hy : y.isFinite) :
    (x * y).IsNearest (x.toRat * y.toRat) := by
  obtain ⟨s, a, rfl⟩ := exists_eq_finite_of_isFinite hx
  obtain ⟨t, b, rfl⟩ := exists_eq_finite_of_isFinite hy
  rw [finite_mul_finite]
  refine isNearest_ofRatio (Nat.two_pow_pos unitPlaces) ?_
  rw [signed_xor_mul, Int.cast_mul, ← toRat_mul_units, ← toRat_mul_units, natCast_unitsPerOne]
  ring

theorem isNearest_div (hx : x.isFinite) (hy : y.isFinite) (hne : y.toRat ≠ 0) :
    (x / y).IsNearest (x.toRat / y.toRat) := by
  obtain ⟨s, a, rfl⟩ := exists_eq_finite_of_isFinite hx
  obtain ⟨t, b, rfl⟩ := exists_eq_finite_of_isFinite hy
  have hunits : b.units ≠ 0 := by simpa [isZero] using mt (isZero_iff hy).1 hne
  rw [finite_div_finite hunits]
  refine isNearest_ofRatio (Nat.pos_of_ne_zero hunits) ?_
  have hpow : (2 : ℚ) ^ unitPlaces ≠ 0 := by positivity
  have hsquare : (signed t b.units : ℚ) * signed t b.units = b.units * b.units := by
    cases t <;> simp [signed]
  have hb : (signed t b.units : ℚ) ≠ 0 := by
    rw [← toRat_mul_units]
    exact mul_ne_zero hne hpow
  have hproduct : (signed (s ^^ t) (a.units * unitsPerOne) : ℚ) * signed t b.units =
      signed s a.units * 2 ^ unitPlaces * b.units := by
    rw [← natCast_unitsPerOne]
    generalize unitsPerOne = u
    cases s <;> cases t <;> simp [signed]
  refine mul_right_cancel₀ hb ?_
  rw [hproduct, toRat, toRat, div_div_div_cancel_right₀ hpow]
  field_simp

end

/-! ## Remainders -/

/-- A remainder is a multiple of the lower of the last bits of both operands, and has no more bits
above it than that operand. -/
theorem keepsPrecision_mod {a b : ℕ} (ha : KeepsPrecision a) (hb : KeepsPrecision b)
    (hpos : 0 < b) : KeepsPrecision (a % b) := by
  have hkeeps {u n : ℕ} (hdvd : 2 ^ u ∣ a % b) (hle : a % b ≤ n) (hn : n < 2 ^ (53 + u)) :
      KeepsPrecision (a % b) := by
    obtain ⟨k, hk⟩ := hdvd
    rw [Nat.mul_comm] at hk
    rw [hk]
    refine keepsPrecision_mul_two_pow (Nat.le_of_lt ?_)
    rw [hk] at hle
    rw [Nat.pow_add] at hn
    exact Nat.lt_of_mul_lt_mul_right (Nat.lt_of_le_of_lt hle hn)
  have hdvda := Nat.dvd_of_mod_eq_zero ha
  have hdvdb := Nat.dvd_of_mod_eq_zero hb
  rcases Nat.le_total (surplusBits a) (surplusBits b) with h | h
  · refine hkeeps ?_ (Nat.mod_le a b) (lt_two_pow_surplusBits a)
    exact (Nat.dvd_mod_iff (Nat.dvd_trans (Nat.pow_dvd_pow 2 h) hdvdb)).2 hdvda
  · refine hkeeps ?_ (Nat.le_of_lt (Nat.mod_lt a hpos)) (lt_two_pow_surplusBits b)
    exact (Nat.dvd_mod_iff hdvdb).2 (Nat.dvd_trans (Nat.pow_dvd_pow 2 h) hdvda)

theorem finite_rem_finite {s t : Bool} {a b : Magnitude} (h : b.units ≠ 0) :
    ∃ r : Magnitude, finite s a % finite t b = finite s r ∧ r.units = a.units % b.units := by
  have hpos := Nat.pos_of_ne_zero h
  have hlt := Nat.lt_trans (Nat.mod_lt a.units hpos) b.lt_rangeEnd
  let r : Magnitude :=
    ⟨a.units % b.units, keepsPrecision_mod a.keepsPrecision b.keepsPrecision hpos, hlt⟩
  refine ⟨r, ?_, rfl⟩
  show rem _ _ = _
  rw [rem, if_neg h]
  exact ofRatio_units s r

/-- **Remainders are exact.** What is left of `x` is less than `y`, after a multiple of `y` is taken
off that is no more than `x`. -/
theorem exists_rem_eq {x y : Double} (hx : x.isFinite) (hy : y.isFinite) (hne : y.toRat ≠ 0) :
    (x % y).isFinite ∧ |(x % y).toRat| < |y.toRat| ∧
      ∃ n : ℤ, (x % y).toRat = x.toRat - y.toRat * n ∧ |y.toRat * n| ≤ |x.toRat| := by
  obtain ⟨s, a, rfl⟩ := exists_eq_finite_of_isFinite hx
  obtain ⟨t, b, rfl⟩ := exists_eq_finite_of_isFinite hy
  have hpow : (0 : ℚ) < 2 ^ unitPlaces := by positivity
  have hunits : b.units ≠ 0 := by simpa [isZero] using mt (isZero_iff hy).1 hne
  obtain ⟨r, hr, hrem⟩ := finite_rem_finite (s := s) (t := t) (a := a) hunits
  have hdiv := Nat.div_add_mod a.units b.units
  rw [← hrem] at hdiv
  have hproduct : signed t b.units * signed (s ^^ t) (a.units / b.units) =
      signed s (b.units * (a.units / b.units)) := by
    cases s <;> cases t <;> simp [signed]
  have hmultiple : (finite t b).toRat * (signed (s ^^ t) (a.units / b.units) : ℤ) =
      (signed s (b.units * (a.units / b.units)) : ℤ) / 2 ^ unitPlaces := by
    rw [toRat, div_mul_eq_mul_div, ← Int.cast_mul, hproduct]
  have hsplit : signed s r.units = signed s a.units - signed s (b.units * (a.units / b.units)) := by
    cases s
    · simp only [signed, Bool.false_eq_true, if_false]
      omega
    · simp only [signed, if_true]
      omega
  rw [hr]
  refine ⟨rfl, ?_, signed (s ^^ t) (a.units / b.units), ?_, ?_⟩
  · rw [abs_toRat_finite, abs_toRat_finite, Magnitude.value, Magnitude.value,
      div_lt_div_iff_of_pos_right hpow, Nat.cast_lt, hrem]
    exact Nat.mod_lt _ (Nat.pos_of_ne_zero hunits)
  · rw [hmultiple, toRat, toRat, ← sub_div, ← Int.cast_sub, hsplit]
  · rw [hmultiple, abs_div, abs_of_pos hpow, ← Int.cast_abs, abs_signed, abs_toRat_finite,
      Magnitude.value, div_le_div_iff_of_pos_right hpow, Int.cast_natCast, Nat.cast_le]
    exact Nat.mul_div_le _ _

/-! ## Floors -/

/-- The magnitude of an integer up to that of the multiple of one that follows it. -/
theorem exists_units_eq_mul {m : Magnitude} (h : m.units % unitsPerOne ≠ 0) {k : ℕ}
    (hk : k ≤ m.units / unitsPerOne + 1) :
    ∃ m' : Magnitude, m'.units = k * unitsPerOne := by
  have hsurplus : surplusBits m.units < unitPlaces := by
    by_contra! hle
    exact h (Nat.mod_eq_zero_of_dvd
      (Nat.dvd_trans (Nat.pow_dvd_pow 2 hle) (Nat.dvd_of_mod_eq_zero m.keepsPrecision)))
  have hlt : m.units < 2 ^ 52 * 2 ^ unitPlaces := by
    rw [← Nat.pow_add]
    exact Nat.lt_of_lt_of_le (lt_two_pow_surplusBits _)
      (Nat.pow_le_pow_right Nat.two_pos (by omega))
  have hquotient : m.units / unitsPerOne < 2 ^ 52 :=
    (Nat.div_lt_iff_lt_mul (Nat.two_pow_pos _)).2 hlt
  have hk53 : k ≤ 2 ^ 53 := by omega
  obtain ⟨m', hm'⟩ := Magnitude.exists_value_eq hk53 (Nat.zero_le unitPlaces)
  refine ⟨m', ?_⟩
  have hpow : (2 : ℚ) ^ unitPlaces ≠ 0 := by positivity
  rw [Magnitude.value, pow_zero, div_one, div_eq_iff hpow, ← natCast_unitsPerOne,
    ← Nat.cast_mul, Nat.cast_inj] at hm'
  exact hm'

theorem toRat_eq_intCast {m : Magnitude} {k : ℕ} (s : Bool) (h : m.units = k * unitsPerOne) :
    (finite s m).toRat = signed s k := by
  have hpow : (2 : ℚ) ^ unitPlaces ≠ 0 := by positivity
  rw [toRat, div_eq_iff hpow, h, ← natCast_unitsPerOne]
  generalize unitsPerOne = u
  cases s <;> simp [signed]

/-- **Floors are exact.** -/
theorem floor_eq {x : Double} (hx : x.isFinite) :
    x.floor.isFinite ∧ x.floor.toRat = ⌊x.toRat⌋ := by
  obtain ⟨s, m, rfl⟩ := exists_eq_finite_of_isFinite hx
  have hpow : (0 : ℚ) < unitsPerOne := Nat.cast_pos.2 (Nat.two_pow_pos unitPlaces)
  by_cases hmod : m.units % unitsPerOne = 0
  · have hunits : m.units = m.units / unitsPerOne * unitsPerOne :=
      (Nat.div_mul_cancel (Nat.dvd_of_mod_eq_zero hmod)).symm
    rw [floor, if_pos hmod, toRat_eq_intCast s hunits, Int.floor_intCast]
    exact ⟨rfl, rfl⟩
  have hlow : m.units / unitsPerOne * unitsPerOne < m.units := by
    have := Nat.div_add_mod' m.units unitsPerOne
    omega
  have hhigh : m.units < (m.units / unitsPerOne + 1) * unitsPerOne := by
    rw [Nat.mul_comm]
    exact Nat.lt_mul_div_succ m.units (Nat.two_pow_pos unitPlaces)
  have hexact {k : ℕ} (hk : k ≤ m.units / unitsPerOne + 1) (s : Bool) :
      (ofRatio s (k * unitsPerOne) 1).isFinite ∧
        (ofRatio s (k * unitsPerOne) 1).toRat = signed s k := by
    obtain ⟨m', hm'⟩ := exists_units_eq_mul hmod hk
    rw [← hm', ofRatio_units, toRat_eq_intCast s hm']
    exact ⟨rfl, rfl⟩
  rw [floor, if_neg hmod]
  generalize m.units / unitsPerOne = k at *
  have hlow : (k * unitsPerOne : ℚ) < m.units := by exact_mod_cast hlow
  have hhigh : (m.units : ℚ) < (k + 1) * unitsPerOne := by exact_mod_cast hhigh
  cases s with
  | false =>
    obtain ⟨hfinite, hvalue⟩ := hexact (Nat.le_succ k) false
    rw [if_neg Bool.false_ne_true, hvalue]
    refine ⟨hfinite, Int.cast_inj.2 (Int.floor_eq_iff.2 ?_).symm⟩
    rw [toRat, ← natCast_unitsPerOne, le_div_iff₀ hpow, div_lt_iff₀ hpow]
    simp only [signed, Bool.false_eq_true, if_false, Int.cast_natCast]
    exact ⟨hlow.le, hhigh⟩
  | true =>
    obtain ⟨hfinite, hvalue⟩ := hexact (Nat.le_refl (k + 1)) true
    rw [if_pos rfl, hvalue]
    refine ⟨hfinite, Int.cast_inj.2 (Int.floor_eq_iff.2 ?_).symm⟩
    rw [toRat, ← natCast_unitsPerOne, le_div_iff₀ hpow, div_lt_iff₀ hpow]
    simp only [signed, if_true]
    push_cast
    exact ⟨by linarith, by linarith⟩

/-! ## Comparisons -/

theorem lt_iff {x y : Double} (hx : x.isFinite) (hy : y.isFinite) :
    x.lt y ↔ x.toRat < y.toRat := by
  obtain ⟨s, a, rfl⟩ := exists_eq_finite_of_isFinite hx
  obtain ⟨t, b, rfl⟩ := exists_eq_finite_of_isFinite hy
  have hpow : (0 : ℚ) < 2 ^ unitPlaces := by positivity
  rw [lt, decide_eq_true_iff, toRat, toRat, div_lt_div_iff_of_pos_right hpow, Int.cast_lt]

theorem isBelowZero_iff {x : Double} (hx : x.isFinite) : x.isBelowZero ↔ x.toRat < 0 := by
  rw [isBelowZero, lt_iff hx rfl, toRat_zero]

theorem one_eq : one.isFinite ∧ one.toRat = 1 := by
  have h := ofInt_exact (n := 1) (by norm_num)
  rwa [Int.cast_one] at h

theorem half_eq : half.isFinite ∧ half.toRat = 1 / 2 := by
  have hlt : |(1 / 2 : ℚ)| < overflowBound := lt_overflowBound (k := 0) (by decide) (by norm_num)
  have hnearest : half.IsNearest (1 / 2) := by
    refine isNearest_ofRatio Nat.two_pos ?_
    rw [← natCast_unitsPerOne, signed, if_neg Bool.false_ne_true, Int.cast_natCast, Nat.cast_two]
    ring
  obtain ⟨hfinite, hvalue⟩ := hnearest.toRat_eq hlt
  have hround := roundNearest_natCast_div (k := 1) (j := 1) (by decide) (by decide)
  rw [Nat.cast_one, pow_one] at hround
  exact ⟨hfinite, hvalue.trans hround⟩

end Double

end Calculator
