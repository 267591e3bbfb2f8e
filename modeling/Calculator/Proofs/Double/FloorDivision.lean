import Calculator.Proofs.Double.Operations

/-!
# Floor division of floats

The remainder is the exact one, rounded once. The quotient comes from a rounded difference and a
rounded quotient, perhaps with one taken off, and is then brought to an integer: up to `2^50` all
errors together are less than half, so that it is the floor of the exact quotient.

* `Double.flooredParts_cases`: what both parts come from.
* `Double.floorDivision_snd`, `Double.IsNearest.of_part`: the remainder.
* `Double.settleQuotient_eq`: what is near enough to an integer becomes it.
* `Double.floorDivision_nearest`: quotient and remainder of any two finite numbers.
-/

namespace Calculator.Double

variable {x y : Double}

/-! ## Both parts before the quotient is settled -/

theorem div_neg_iff_of_rem (hy : y.isFinite) (hne : y.toRat ≠ 0) {r : Double} (hr : r.isFinite)
    (hr0 : r.toRat ≠ 0) : (y.isBelowZero != r.isBelowZero) ↔ r.toRat / y.toRat < 0 := by
  have hyneg := isBelowZero_iff hy
  have hrneg := isBelowZero_iff hr
  rw [bne_iff_ne, ne_eq, Bool.eq_iff_iff, hyneg, hrneg, div_neg_iff]
  rcases lt_or_gt_of_ne hne with h | h
  · simp [h, h.not_gt, le_iff_lt_or_eq, Ne.symm hr0]
  · simp [h, h.not_gt]

/-- The floor of a quotient, from a remainder of either sign. -/
theorem floor_div_of_rem {a b r : ℚ} {n : ℤ} (hb : b ≠ 0) (hr : r = a - b * n) (hlt : |r| < |b|) :
    ⌊a / b⌋ = if r / b < 0 then n - 1 else n := by
  have hquotient : a / b = n + r / b := by
    rw [hr, sub_div, mul_div_cancel_left₀ _ hb]
    ring
  have habs : |r / b| < 1 := by rwa [abs_div, div_lt_one (abs_pos.2 hb)]
  obtain ⟨hlow, hhigh⟩ := abs_lt.1 habs
  rw [hquotient, Int.floor_intCast_add]
  split
  · next h =>
    have hfloor : ⌊r / b⌋ = -1 := by
      rw [Int.floor_eq_iff]
      push_cast
      exact ⟨hlow.le, by linarith⟩
    omega
  · next h =>
    have hfloor : ⌊r / b⌋ = 0 := Int.floor_eq_zero_iff.2 ⟨not_lt.1 h, hhigh⟩
    omega

/-- **What both parts come from.** A multiple `n` of the divisor is taken off the dividend, no more
than it; `n` is the floor of the quotient or one more, and then not positive. -/
theorem flooredParts_cases (hx : x.isFinite) (hy : y.isFinite) (hne : y.toRat ≠ 0) :
    ∃ (r : Double) (n : ℤ), r.isFinite ∧ |r.toRat| < |y.toRat| ∧
      r.toRat = x.toRat - y.toRat * n ∧ |y.toRat * n| ≤ |x.toRat| ∧
      (n = ⌊x.toRat / y.toRat⌋ ∧
          flooredParts x y = ((x - r) / y, if r.isZero then zero y.signBit else r) ∨
        n = ⌊x.toRat / y.toRat⌋ + 1 ∧ n ≤ 0 ∧
          flooredParts x y = ((x - r) / y - one, r + y)) := by
  obtain ⟨hr, hlt, n, hrem, hle⟩ := exists_rem_eq hx hy hne
  have hfloor := floor_div_of_rem hne hrem hlt
  have hsign := div_neg_iff_of_rem hy hne hr
  refine ⟨x % y, n, hr, hlt, hrem, hle, ?_⟩
  unfold flooredParts
  dsimp only
  by_cases hzero : (x % y).isZero
  · have hr0 := (isZero_iff hr).1 hzero
    rw [hr0, zero_div, if_neg (lt_irrefl _)] at hfloor
    exact .inl ⟨hfloor.symm, by rw [if_pos hzero, if_pos hzero]⟩
  have hr0 := mt (isZero_iff hr).2 hzero
  rw [if_neg hzero, if_neg hzero]
  by_cases hneg : (x % y).toRat / y.toRat < 0
  · rw [if_pos hneg] at hfloor
    rw [if_pos ((hsign hr0).2 hneg)]
    refine .inr ⟨by omega, ?_, rfl⟩
    -- A positive multiple would be more than the quotient.
    by_contra! hpos
    have hquotient : x.toRat / y.toRat = n + (x % y).toRat / y.toRat := by
      rw [hrem, sub_div, mul_div_cancel_left₀ _ hne]
      ring
    have hn : |(n : ℚ)| ≤ |x.toRat / y.toRat| := by
      rwa [abs_div, le_div_iff₀ (abs_pos.2 hne), ← abs_mul, mul_comm]
    have hlow := Int.floor_le (x.toRat / y.toRat)
    rw [hfloor] at hlow
    have hone : (1 : ℚ) ≤ n := by exact_mod_cast hpos
    push_cast at hlow
    rw [abs_of_nonneg (by linarith), abs_of_nonneg (by linarith)] at hn
    linarith
  · rw [if_neg hneg] at hfloor
    exact .inl ⟨hfloor.symm, by rw [if_neg (mt (hsign hr0).1 hneg)]⟩

/-! ## The remainder -/

/-- What is rounded from a part of `y` other than nothing has the sign of `y`, and is not more. -/
theorem IsNearest.of_part {z : Double} {p : ℚ} {k : ℤ} (hy : y.isFinite)
    (h : z.IsNearest (y.toRat * p)) (hk : y.toRat * p * 2 ^ unitPlaces = k)
    (hne : y.toRat ≠ 0) (hpos : 0 < p) (hle : p ≤ 1) :
    z.isFinite ∧ z.toRat ≠ 0 ∧ z.signBit = y.signBit ∧ |z.toRat| ≤ |y.toRat| := by
  have habs : |y.toRat * p| ≤ |y.toRat| := by
    rw [abs_mul, abs_of_pos hpos]
    exact mul_le_of_le_one_right (abs_nonneg _) hle
  obtain ⟨hfinite, hvalue⟩ := h.toRat_eq (lt_of_le_of_lt habs (abs_toRat_lt y))
  have hbound : |z.toRat| ≤ |y.toRat| := by
    have hself := abs_roundNearest y.toRat
    rw [roundNearest_toRat] at hself
    rw [hvalue, abs_roundNearest, hself]
    exact roundMagnitude_mono (abs_nonneg _) habs
  rcases lt_or_gt_of_ne hne with hneg | hpos'
  · have hround := roundNearest_pos_of_units (q := -(y.toRat * p)) (k := -k)
      (by rw [neg_mul, hk, Int.cast_neg]) (neg_pos.2 (mul_neg_of_neg_of_pos hneg hpos))
    rw [roundNearest_neg, ← hvalue, neg_pos] at hround
    refine ⟨hfinite, hround.ne, ?_, hbound⟩
    rw [signBit_eq hfinite hround.ne, signBit_eq hy hne, decide_eq_true hround, decide_eq_true hneg]
  · have hround := roundNearest_pos_of_units hk (mul_pos hpos' hpos)
    rw [← hvalue] at hround
    refine ⟨hfinite, hround.ne', ?_, hbound⟩
    rw [signBit_eq hfinite hround.ne', signBit_eq hy hne, decide_eq_false hround.not_gt,
      decide_eq_false hpos'.not_gt]

/-- The exact remainder is what the fraction of the quotient is of the divisor. -/
theorem sub_mul_floor_eq (a : ℚ) {b : ℚ} (hb : b ≠ 0) :
    a - b * ⌊a / b⌋ = b * Int.fract (a / b) := by
  rw [Int.fract, mul_sub, mul_div_cancel₀ _ hb]

/-- The remainder is the exact one, rounded once; an exact zero takes the sign of the divisor. -/
theorem floorDivision_snd (hx : x.isFinite) (hy : y.isFinite) (hne : y.toRat ≠ 0) :
    (x.toRat - y.toRat * ⌊x.toRat / y.toRat⌋ = 0 → (floorDivision x y).2 = zero y.signBit) ∧
    (x.toRat - y.toRat * ⌊x.toRat / y.toRat⌋ ≠ 0 →
      (floorDivision x y).2.IsNearest (x.toRat - y.toRat * ⌊x.toRat / y.toRat⌋)) := by
  have hsnd : (floorDivision x y).2 = (flooredParts x y).2 := rfl
  obtain ⟨r, n, hr, hlt, hrem, -, ⟨hn, hparts⟩ | ⟨hn, -, hparts⟩⟩ := flooredParts_cases hx hy hne
  · rw [hsnd, hparts, ← hn, ← hrem]
    refine ⟨fun h => if_pos ((isZero_iff hr).2 h), fun h => ?_⟩
    rw [if_neg (mt (isZero_iff hr).1 h)]
    exact isNearest_toRat hr
  · have hexact : x.toRat - y.toRat * ⌊x.toRat / y.toRat⌋ = r.toRat + y.toRat := by
      rw [hrem, hn]
      push_cast
      ring
    rw [hsnd, hparts, hexact]
    refine ⟨fun h => ?_, fun _ => isNearest_add hr hy⟩
    rw [eq_neg_of_add_eq_zero_left h, abs_neg] at hlt
    exact absurd hlt (lt_irrefl _)

/-! ## The quotient -/

/-- The test for what is to be rounded up compares the rounded difference from the floor. -/
theorem half_lt_sub_floor_iff {q : Double} (hq : q.isFinite) :
    half.lt (q - q.floor) ↔ 1 / 2 < roundNearest (q.toRat - ⌊q.toRat⌋) := by
  obtain ⟨hfloor, hvalue⟩ := floor_eq hq
  obtain ⟨hhalf, hhalfvalue⟩ := half_eq
  have hfract : |q.toRat - q.floor.toRat| ≤ 2 ^ 0 := by
    rw [hvalue, pow_zero, abs_sub_floor]
    exact (Int.fract_lt_one _).le
  obtain ⟨hdiff, hdiffvalue⟩ :=
    (isNearest_sub hq hfloor).toRat_eq (lt_overflowBound (by decide) hfract)
  rw [lt_iff hhalf hdiff, hdiffvalue, hvalue, hhalfvalue]

/-- What lies near enough to an integer is settled as this integer. -/
theorem settleQuotient_eq {q : Double} {k : ℤ} (hq : q.isFinite) (hk : |k| ≤ 2 ^ 53)
    (hnear : |q.toRat - k| ≤ 7 / 16) :
    (settleQuotient q).isFinite ∧ (settleQuotient q).toRat = k := by
  obtain ⟨hfloor, hvalue⟩ := floor_eq hq
  obtain ⟨hone, honevalue⟩ := one_eq
  obtain ⟨hlow, hhigh⟩ := abs_le.1 hnear
  have htest := half_lt_sub_floor_iff hq
  unfold settleQuotient
  rcases le_or_gt (k : ℚ) q.toRat with h | h
  · have hk' : ⌊q.toRat⌋ = k := Int.floor_eq_iff.2 ⟨h, by linarith⟩
    have hround := roundNearest_natCast_div (k := 1) (j := 1) (by decide) (by decide)
    rw [Nat.cast_one, pow_one] at hround
    have hle := roundNearest_mono (p := q.toRat - k) (q := 1 / 2) (by linarith)
    rw [hround] at hle
    rw [hk'] at htest hvalue
    rw [if_neg (mt htest.1 hle.not_gt)]
    exact ⟨hfloor, hvalue⟩
  · have hk' : ⌊q.toRat⌋ = k - 1 := by
      rw [Int.floor_eq_iff]
      push_cast
      exact ⟨by linarith, by linarith⟩
    have hround := roundNearest_natCast_div (k := 9) (j := 4) (by decide) (by decide)
    norm_num at hround
    have hle : roundNearest (9 / 16) ≤ roundNearest (q.toRat - (k - 1 : ℤ)) :=
      roundNearest_mono (by push_cast; linarith)
    rw [hround] at hle
    rw [hk'] at htest hvalue
    rw [if_pos (htest.2 (by linarith))]
    have hsum : q.floor.toRat + one.toRat = k := by
      rw [hvalue, honevalue]
      push_cast
      ring
    have hbound : |q.floor.toRat + one.toRat| ≤ 2 ^ 53 := by
      rw [hsum]
      exact_mod_cast hk
    obtain ⟨hfinite, hsumvalue⟩ :=
      (isNearest_add hfloor hone).toRat_eq (lt_overflowBound (by decide) hbound)
    rw [hsum, roundNearest_intCast hk] at hsumvalue
    exact ⟨hfinite, hsumvalue⟩

/-- Where the quotient before it is settled lies near enough to the floor of the exact quotient, it
becomes this floor, and as a zero it takes the sign of the rounded quotient. -/
theorem floorDivision_fst_of_near (hq : (flooredParts x y).1.isFinite)
    (hfloor : |⌊x.toRat / y.toRat⌋| ≤ 2 ^ 53)
    (hnear : |(flooredParts x y).1.toRat - ⌊x.toRat / y.toRat⌋| ≤ 7 / 16)
    (hzero : ⌊x.toRat / y.toRat⌋ = 0 → (flooredParts x y).1.toRat = 0) :
    (floorDivision x y).1.isFinite ∧ (floorDivision x y).1.toRat = ⌊x.toRat / y.toRat⌋ ∧
      (⌊x.toRat / y.toRat⌋ = 0 → (floorDivision x y).1 = zero (x / y).signBit) := by
  have hfst : (floorDivision x y).1 = if (flooredParts x y).1.isZero then zero (x / y).signBit
      else settleQuotient (flooredParts x y).1 := rfl
  rw [hfst]
  by_cases hq0 : (flooredParts x y).1.isZero
  · have hvalue := (isZero_iff hq).1 hq0
    rw [hvalue, zero_sub, abs_neg] at hnear
    have hfloor0 : ⌊x.toRat / y.toRat⌋ = 0 := by
      rw [← Int.abs_lt_one_iff]
      have : |(⌊x.toRat / y.toRat⌋ : ℚ)| < 1 := by linarith
      exact_mod_cast this
    rw [if_pos hq0, toRat_zero, hfloor0]
    exact ⟨rfl, Int.cast_zero.symm, fun _ => rfl⟩
  · obtain ⟨hfinite, hvalue⟩ := settleQuotient_eq hq hfloor hnear
    rw [if_neg hq0]
    exact ⟨hfinite, hvalue, fun h => absurd ((isZero_iff hq).2 (hzero h)) hq0⟩

/-- The difference from a remainder is a multiple of the divisor, rounded. -/
theorem sub_rem_eq {r : Double} {n : ℤ} (hx : x.isFinite) (hr : r.isFinite)
    (hrem : r.toRat = x.toRat - y.toRat * n) (hle : |y.toRat * n| ≤ |x.toRat|) :
    (x - r).isFinite ∧ (x - r).toRat = roundNearest (y.toRat * n) := by
  have hexact : x.toRat - r.toRat = y.toRat * n := by rw [hrem, sub_sub_cancel]
  have h := isNearest_sub hx hr
  rw [hexact] at h
  exact h.toRat_eq (lt_of_le_of_lt hle (abs_toRat_lt x))

/-- Up to little more than `2^50`, rounding comes to little more than an eighth. -/
theorem IsNearest.abs_sub_le {z : Double} {q : ℚ} (h : z.IsNearest q) (hq : |q| ≤ 2 ^ 50 + 2) :
    z.isFinite ∧ |z.toRat - q| ≤ 9 / 64 := by
  obtain ⟨hfinite, hround⟩ := h.toRat_eq (lt_overflowBound (k := 51) (by decide) (by linarith))
  have herror := abs_sub_roundNearest_le q
  have hrelative : |q| / 2 ^ 53 ≤ 1 / 8 + 1 / 128 := by
    rw [div_le_iff₀ (by norm_num)]
    linarith
  have habsolute : (1 / 2 ^ (unitPlaces + 1) : ℚ) ≤ 1 / 128 := by
    rw [show (128 : ℚ) = 2 ^ 7 by norm_num]
    exact one_div_le_one_div_of_le (by norm_num) (pow_le_pow_right₀ one_le_two (by decide))
  refine ⟨hfinite, ?_⟩
  rw [hround, abs_sub_comm]
  linarith

/-- Up to `2^50`, rounding the multiple and then the quotient comes to a little over a quarter. -/
theorem abs_div_sub_le {d : Double} {n : ℤ} (hd : d.isFinite) (hy : y.isFinite)
    (hne : y.toRat ≠ 0) (hvalue : d.toRat = roundNearest (y.toRat * n)) (hn : |(n : ℚ)| ≤ 2 ^ 50) :
    (d / y).isFinite ∧ |(d / y).toRat - n| ≤ 17 / 64 := by
  obtain ⟨k, hk⟩ := exists_intCast_eq y
  have hunits : y.toRat * n * 2 ^ unitPlaces = (k * n : ℤ) := by
    rw [Int.cast_mul, ← hk]
    ring
  have hmultiple := abs_sub_roundNearest_le_of_units hunits
  have hquotient : |d.toRat / y.toRat - n| ≤ |(n : ℚ)| / 2 ^ 53 := by
    have hsplit :
        d.toRat / y.toRat - n = -(y.toRat * n - roundNearest (y.toRat * n)) / y.toRat := by
      rw [hvalue]
      field_simp
      ring
    rw [hsplit, abs_div, abs_neg, div_le_iff₀ (abs_pos.2 hne)]
    rw [abs_mul] at hmultiple
    linarith
  have heighth : |(n : ℚ)| / 2 ^ 53 ≤ 1 / 8 := by
    rw [div_le_iff₀ (by norm_num)]
    linarith
  have hbound := abs_sub_abs_le_abs_sub (d.toRat / y.toRat) n
  obtain ⟨hfinite, hnear⟩ := (isNearest_div hd hy hne).abs_sub_le (by linarith)
  have htriangle := abs_sub_le (d / y).toRat (d.toRat / y.toRat) n
  exact ⟨hfinite, by linarith⟩

/-- Taking one off adds an eighth to this. -/
theorem abs_sub_one_sub_le {q : Double} {n : ℤ} (hq : q.isFinite) (hn : |(n : ℚ)| ≤ 2 ^ 50)
    (hnear : |q.toRat - n| ≤ 17 / 64) :
    (q - one).isFinite ∧ |(q - one).toRat - (n - 1)| ≤ 7 / 16 := by
  obtain ⟨hone, honevalue⟩ := one_eq
  have hexact := isNearest_sub hq hone
  rw [honevalue] at hexact
  have hbound : |q.toRat - 1| ≤ 2 ^ 50 + 2 := by
    have hvalue := abs_sub_abs_le_abs_sub q.toRat n
    have hless := abs_sub q.toRat 1
    rw [abs_one] at hless
    linarith
  obtain ⟨hfinite, hround⟩ := hexact.abs_sub_le hbound
  have htriangle := abs_sub_le (q - one).toRat (q.toRat - 1) (n - 1)
  rw [sub_sub_sub_cancel_right] at htriangle
  exact ⟨hfinite, by linarith⟩

/-- Up to `2^50` the quotient is the floor of the exact one. -/
theorem floorDivision_fst (hx : x.isFinite) (hy : y.isFinite) (hne : y.toRat ≠ 0)
    (hle : |x.toRat / y.toRat| ≤ 2 ^ 50) :
    (floorDivision x y).1.isFinite ∧ (floorDivision x y).1.toRat = ⌊x.toRat / y.toRat⌋ ∧
      (⌊x.toRat / y.toRat⌋ = 0 → (floorDivision x y).1 = zero (x / y).signBit) := by
  obtain ⟨r, n, hr, -, hrem, hmultiple, hcases⟩ := flooredParts_cases hx hy hne
  obtain ⟨hd, hdvalue⟩ := sub_rem_eq hx hr hrem hmultiple
  have hn : |(n : ℚ)| ≤ 2 ^ 50 := by
    refine le_trans ?_ hle
    rwa [abs_div, le_div_iff₀ (abs_pos.2 hne), ← abs_mul, mul_comm]
  obtain ⟨hq, hnear⟩ := abs_div_sub_le hd hy hne hdvalue hn
  have hnint : |n| ≤ 2 ^ 50 := by exact_mod_cast hn
  obtain ⟨hfloor, hparts⟩ | ⟨hfloor, hn0, hparts⟩ := hcases
  · have hfst : (flooredParts x y).1 = (x - r) / y := by rw [hparts]
    refine floorDivision_fst_of_near ?_ ?_ ?_ ?_
    · rwa [hfst]
    · rw [← hfloor]
      exact hnint.trans (by norm_num)
    · rw [hfst, ← hfloor]
      linarith
    · intro h
      rw [h] at hfloor
      rw [hfloor, Int.cast_zero, mul_zero, roundNearest_zero] at hdvalue
      have hzero := isNearest_div hd hy hne
      rw [hdvalue, zero_div] at hzero
      have hrange : |(0 : ℚ)| < overflowBound :=
        lt_overflowBound (k := 0) (by decide) (by norm_num)
      rw [hfst, (hzero.toRat_eq hrange).2, roundNearest_zero]
  · have hfst : (flooredParts x y).1 = (x - r) / y - one := by rw [hparts]
    obtain ⟨hfinite, hnear⟩ := abs_sub_one_sub_le hq hn hnear
    have hexact : (n : ℚ) - 1 = ⌊x.toRat / y.toRat⌋ := by
      rw [hfloor]
      push_cast
      ring
    rw [hexact] at hnear
    rw [← hfst] at hfinite hnear
    -- The floor is below zero here, so that it is no zero with a sign.
    refine floorDivision_fst_of_near hfinite ?_ hnear (by omega)
    rw [abs_le] at hnint ⊢
    omega

/-- **Floor division of floats.** The remainder is the exact remainder `m` rounded to nearest, with
the sign of the divisor, also as a zero, and no greater than the divisor. While the exact quotient
is at most `2^50` its floor is the quotient, exactly; as a zero it has the sign of `x / y`. -/
theorem floorDivision_nearest (hx : x.isFinite) (hy : y.isFinite) (hne : y.toRat ≠ 0) {m : ℚ}
    (hm : m = x.toRat - y.toRat * ⌊x.toRat / y.toRat⌋) :
    (m = 0 → (floorDivision x y).2 = zero y.signBit) ∧
    (m ≠ 0 → (floorDivision x y).2.IsNearest m ∧ (floorDivision x y).2.isFinite ∧
      (floorDivision x y).2.toRat ≠ 0 ∧ (floorDivision x y).2.signBit = y.signBit ∧
      |(floorDivision x y).2.toRat| ≤ |y.toRat|) ∧
    (|x.toRat / y.toRat| ≤ 2 ^ 50 →
      (floorDivision x y).1.isFinite ∧ (floorDivision x y).1.toRat = ⌊x.toRat / y.toRat⌋ ∧
      (⌊x.toRat / y.toRat⌋ = 0 → (floorDivision x y).1 = zero (x / y).signBit)) := by
  obtain ⟨hzero, hnearest⟩ := floorDivision_snd hx hy hne
  rw [← hm] at hzero hnearest
  refine ⟨hzero, fun hm0 => ⟨hnearest hm0, ?_⟩, floorDivision_fst hx hy hne⟩
  have hpart : m = y.toRat * Int.fract (x.toRat / y.toRat) := hm.trans (sub_mul_floor_eq _ hne)
  obtain ⟨j, hj⟩ := exists_intCast_eq x
  obtain ⟨k, hk⟩ := exists_intCast_eq y
  have hunits : m * 2 ^ unitPlaces = (j - k * ⌊x.toRat / y.toRat⌋ : ℤ) := by
    rw [hm, sub_mul, hj, mul_right_comm, hk, Int.cast_sub, Int.cast_mul]
  have hfract : 0 < Int.fract (x.toRat / y.toRat) := by
    refine lt_of_le_of_ne (Int.fract_nonneg _) fun h => hm0 ?_
    rw [hpart, ← h, mul_zero]
  have hround := hnearest hm0
  rw [hpart] at hround hunits
  exact hround.of_part hy hunits hne hfract (Int.fract_lt_one _).le

theorem floorDivision_nearest_minus_seven_halves :
    (ofInt (-7)).isFinite ∧ (ofInt 2).isFinite ∧ (ofInt 2).toRat ≠ 0 ∧
      (floorDivision (ofInt (-7)) (ofInt 2)).1.toRat = -4 ∧
      (floorDivision (ofInt (-7)) (ofInt 2)).2.IsNearest 1 := by
  obtain ⟨hx, hxvalue⟩ := ofInt_exact (n := -7) (by norm_num)
  obtain ⟨hy, hyvalue⟩ := ofInt_exact (n := 2) (by norm_num)
  have hne : (ofInt 2).toRat ≠ 0 := by rw [hyvalue]; norm_num
  have hfloor : ⌊(ofInt (-7)).toRat / (ofInt 2).toRat⌋ = -4 := by
    rw [hxvalue, hyvalue, Int.floor_eq_iff]
    norm_num
  have hm : (1 : ℚ) =
      (ofInt (-7)).toRat - (ofInt 2).toRat * ⌊(ofInt (-7)).toRat / (ofInt 2).toRat⌋ := by
    rw [hfloor, hxvalue, hyvalue]
    norm_num
  obtain ⟨-, hremainder, hquotient⟩ := floorDivision_nearest hx hy hne hm
  obtain ⟨-, hvalue, -⟩ := hquotient (by rw [hxvalue, hyvalue]; norm_num)
  refine ⟨hx, hy, hne, ?_, (hremainder one_ne_zero).1⟩
  rw [hvalue, hfloor]
  norm_num

end Calculator.Double
