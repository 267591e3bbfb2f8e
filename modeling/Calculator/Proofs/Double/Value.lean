import Calculator.Double.Arithmetic
import Calculator.Proofs.Double.Nearest
import Calculator.Proofs.Double.Scaling

/-!
# Exact values

The rational numbers that finite binary64 numbers are, and the number nearest to a rational.

* `Double.toRat`, `Double.IsNearest`: values, and the number nearest to one.
* `roundNearest`: its value; `roundNearest_mono`, `roundNearest_toRat`, `abs_sub_roundNearest_le`.
* `Double.isNearest_ofRatio`: the one place where numbers are rounded.
-/

namespace Calculator

/-! ## Rounding to units -/

/-- No number of at most 53 significant bits is nearer than the rounded one. -/
theorem abs_sub_roundUnits_le {y : ℚ} (hy : 0 ≤ y) {n : ℕ} (hn : KeepsPrecision n) :
    |y - roundUnits y| ≤ |y - n| := by
  obtain ⟨k, -, hk⟩ := exists_natCast_eq_roundUnits hy
  rw [← hk]
  obtain rfl | hne := eq_or_ne n k
  · exact le_rfl
  · exact (abs_sub_roundUnits_lt_or hy hk hn hne).elim le_of_lt fun h => h.1.le

theorem roundUnits_mono {x y : ℚ} (hx : 0 ≤ x) (h : x ≤ y) : roundUnits x ≤ roundUnits y := by
  obtain ⟨n, hn, hxn⟩ := exists_natCast_eq_roundUnits hx
  obtain ⟨k, hk, hyk⟩ := exists_natCast_eq_roundUnits (hx.trans h)
  have hxle := abs_sub_roundUnits_le hx hk
  have hyle := abs_sub_roundUnits_le (hx.trans h) hn
  rw [← hxn] at hxle ⊢
  rw [← hyk] at hyle ⊢
  by_contra! hlt
  -- Each is at most as far from its own as from the other, so both lie in the middle.
  have hxmid : (n + k : ℚ) / 2 ≤ x := by
    by_contra! hmid
    rw [abs_sub_comm, abs_of_pos (by linarith)] at hxle
    have := abs_lt.2 (show -(n - x) < x - k ∧ x - k < n - x from ⟨by linarith, by linarith⟩)
    linarith
  have hymid : y ≤ (n + k : ℚ) / 2 := by
    by_contra! hmid
    rw [abs_of_pos (by linarith)] at hyle
    have := abs_lt.2 (show -(y - k) < y - n ∧ y - n < y - k from ⟨by linarith, by linarith⟩)
    linarith
  obtain rfl : x = y := by linarith
  rw [hxn, hyk] at hlt
  exact lt_irrefl _ hlt

theorem roundUnits_natCast {n : ℕ} (hn : KeepsPrecision n) : roundUnits n = n := by
  have h := natCast_roundToPrecision n Nat.one_pos
  rwa [roundToPrecision_self hn, Nat.cast_one, div_one, eq_comm] at h

/-- From `2^52` units on the rounding moves a number by at most `2^-53` of it. -/
theorem abs_sub_roundUnits_le_div {y : ℚ} (h : 2 ^ 52 ≤ y) : |y - roundUnits y| ≤ y / 2 ^ 53 := by
  obtain ⟨s, z, hz, rfl, hs⟩ := exists_steps (le_trans (by norm_num) h)
  have hpow : (0 : ℚ) < 2 ^ s := by positivity
  have hlow : 2 ^ 52 ≤ z := by
    rcases hz.le with rfl | hle
    · simpa using h
    · exact hle
  have hhalf := two_mul_abs_sub_nearestInteger_le z
  rw [hs, ← sub_mul, abs_mul, abs_of_pos hpow, mul_div_right_comm]
  refine mul_le_mul_of_nonneg_right ?_ hpow.le
  rw [le_div_iff₀ (by norm_num)]
  linarith

/-- From here on numbers are rounded to infinity: from the point halfway between the greatest
magnitude and `2^1024`. -/
def Double.overflowBound : ℚ := 2 ^ 1024 - 2 ^ 970

open Double (overflowBound)

theorem two_pow_le_overflowBound {k : ℕ} (hk : k ≤ 1023) : 2 ^ k ≤ overflowBound := by
  have hmono : (2 : ℚ) ^ k ≤ 2 ^ 1023 := pow_le_pow_right₀ one_le_two hk
  have hsmall : (2 : ℚ) ^ 970 ≤ 2 ^ 1023 := pow_le_pow_right₀ one_le_two (by decide)
  have hdouble : (2 : ℚ) ^ 1024 = 2 ^ 1023 * 2 := pow_succ 2 1023
  rw [overflowBound, hdouble]
  generalize (2 : ℚ) ^ 1023 = p at *
  generalize (2 : ℚ) ^ 970 = q at *
  linarith

theorem lt_overflowBound {q : ℚ} {k : ℕ} (hk : k < 1023) (h : q ≤ 2 ^ k) : q < overflowBound :=
  lt_of_le_of_lt h
    (lt_of_lt_of_le (pow_lt_pow_right₀ one_lt_two hk) (two_pow_le_overflowBound (le_refl 1023)))

theorem rangeEnd_le_roundUnits_iff {x : ℚ} (hx : 0 ≤ x) :
    rangeEnd ≤ roundUnits (x * 2 ^ unitPlaces) ↔ overflowBound ≤ x := by
  have hpow : (0 : ℚ) < 2 ^ unitPlaces := by positivity
  rcases lt_or_ge (x * 2 ^ unitPlaces) (2 ^ 52) with hsmall | hlarge
  · have hround : roundUnits (x * 2 ^ unitPlaces) ≤ (2 ^ 52 : ℕ) := by
      have hkeeps := keepsPrecision_mul_two_pow (k := 1) (s := 52) (by decide)
      rw [Nat.one_mul] at hkeeps
      rw [← roundUnits_natCast hkeeps]
      exact roundUnits_mono (by positivity) (by exact_mod_cast hsmall.le)
    have hend : ((2 ^ 52 : ℕ) : ℚ) < rangeEnd :=
      Nat.cast_lt.2 (Nat.pow_lt_pow_right (by decide) (by decide))
    have hx1 : x < 1 := by
      by_contra! hge
      have hunits : (2 : ℚ) ^ 52 ≤ 2 ^ unitPlaces := pow_le_pow_right₀ one_le_two (by decide)
      have := le_mul_of_one_le_left hpow.le hge
      linarith
    have hbound := two_pow_le_overflowBound (k := 0) (by decide)
    rw [pow_zero] at hbound
    exact iff_of_false (by linarith) (by linarith)
  · rw [roundUnits_of_le hlarge, roundSignificant_mul_units hx, two_pow_1024_mul,
      mul_le_mul_iff_left₀ hpow, two_pow_1024_le_roundSignificant_iff hx, overflowBound]

/-! ## Rounding rational numbers -/

/-- The multiple of a unit to which a rational that is not negative is rounded. -/
def roundMagnitude (x : ℚ) : ℚ := roundUnits (x * 2 ^ unitPlaces) / 2 ^ unitPlaces

/-- `q` rounded to 53 significant bits or to a multiple of `2^-1074`, whichever is coarser. -/
def roundNearest (q : ℚ) : ℚ := if q < 0 then -roundMagnitude (-q) else roundMagnitude q

theorem roundMagnitude_mono {x y : ℚ} (hx : 0 ≤ x) (h : x ≤ y) :
    roundMagnitude x ≤ roundMagnitude y := by
  have hpow : (0 : ℚ) < 2 ^ unitPlaces := by positivity
  rw [roundMagnitude, roundMagnitude, div_le_div_iff_of_pos_right hpow]
  exact roundUnits_mono (by positivity) (mul_le_mul_of_nonneg_right h hpow.le)

@[simp]
theorem roundMagnitude_zero : roundMagnitude 0 = 0 := by
  have hround := roundUnits_natCast (n := 0) rfl
  rw [Nat.cast_zero] at hround
  rw [roundMagnitude, zero_mul, hround, zero_div]

theorem roundMagnitude_nonneg {x : ℚ} (hx : 0 ≤ x) : 0 ≤ roundMagnitude x := by
  have h := roundMagnitude_mono le_rfl hx
  rwa [roundMagnitude_zero] at h

theorem roundNearest_of_nonneg {q : ℚ} (h : 0 ≤ q) : roundNearest q = roundMagnitude q :=
  if_neg h.not_gt

theorem roundNearest_neg (q : ℚ) : roundNearest (-q) = -roundNearest q := by
  rcases lt_trichotomy q 0 with h | rfl | h
  · rw [roundNearest_of_nonneg (by linarith), roundNearest, if_pos h, neg_neg]
  · rw [neg_zero, roundNearest_of_nonneg le_rfl, roundMagnitude_zero, neg_zero]
  · rw [roundNearest, if_pos (by linarith), neg_neg, roundNearest_of_nonneg h.le]

@[simp]
theorem roundNearest_zero : roundNearest 0 = 0 := by
  rw [roundNearest_of_nonneg le_rfl, roundMagnitude_zero]

theorem roundNearest_nonneg {q : ℚ} (h : 0 ≤ q) : 0 ≤ roundNearest q := by
  rw [roundNearest_of_nonneg h]
  exact roundMagnitude_nonneg h

theorem roundNearest_mono {p q : ℚ} (h : p ≤ q) : roundNearest p ≤ roundNearest q := by
  rcases le_or_gt 0 p with hp | hp
  · rw [roundNearest_of_nonneg hp, roundNearest_of_nonneg (hp.trans h)]
    exact roundMagnitude_mono hp h
  have hneg := roundNearest_nonneg (q := -p) (by linarith)
  rw [roundNearest_neg] at hneg
  rcases le_or_gt 0 q with hq | hq
  · have := roundNearest_nonneg hq
    linarith
  · rw [roundNearest, roundNearest, if_pos hp, if_pos hq, neg_le_neg_iff]
    exact roundMagnitude_mono (by linarith) (by linarith)

theorem abs_roundNearest (q : ℚ) : |roundNearest q| = roundMagnitude |q| := by
  rcases le_or_gt 0 q with hq | hq
  · rw [roundNearest_of_nonneg hq, abs_of_nonneg hq, abs_of_nonneg (roundMagnitude_nonneg hq)]
  · rw [roundNearest, if_pos hq, abs_neg, abs_of_neg hq,
      abs_of_nonneg (roundMagnitude_nonneg (by linarith))]

/-- How far the rounding moves a number, in units. -/
theorem abs_sub_roundNearest (q : ℚ) : |q - roundNearest q| =
    |(|q| * 2 ^ unitPlaces) - roundUnits (|q| * 2 ^ unitPlaces)| / 2 ^ unitPlaces := by
  have hpow : (0 : ℚ) < 2 ^ unitPlaces := by positivity
  have hsplit (x : ℚ) : |x - roundMagnitude x| =
      |x * 2 ^ unitPlaces - roundUnits (x * 2 ^ unitPlaces)| / 2 ^ unitPlaces := by
    rw [roundMagnitude, ← abs_of_pos hpow, ← abs_div, abs_of_pos hpow, sub_div,
      mul_div_cancel_right₀ _ hpow.ne']
  rcases le_or_gt 0 q with hq | hq
  · rw [roundNearest_of_nonneg hq, abs_of_nonneg hq, hsplit]
  · rw [roundNearest, if_pos hq, abs_of_neg hq, ← hsplit, ← abs_neg,
      show -(q - -roundMagnitude (-q)) = -q - roundMagnitude (-q) by ring]

/-- The rounding moves a number by at most `2^-53` of it and half a unit, -/
theorem abs_sub_roundNearest_le (q : ℚ) :
    |q - roundNearest q| ≤ |q| / 2 ^ 53 + 1 / 2 ^ (unitPlaces + 1) := by
  have hpow : (0 : ℚ) < 2 ^ unitPlaces := by positivity
  have hy : 0 ≤ |q| * 2 ^ unitPlaces := by positivity
  have hround : |(|q| * 2 ^ unitPlaces) - roundUnits (|q| * 2 ^ unitPlaces)| ≤
      |q| * 2 ^ unitPlaces / 2 ^ 53 + 1 / 2 := by
    rcases lt_or_ge (|q| * 2 ^ unitPlaces) (2 ^ 52) with h | h
    · have hhalf := two_mul_abs_sub_nearestInteger_le (|q| * 2 ^ unitPlaces)
      rw [roundUnits_of_lt hy (lt_trans h (by norm_num))]
      have : 0 ≤ |q| * 2 ^ unitPlaces / 2 ^ 53 := by positivity
      linarith
    · have := abs_sub_roundUnits_le_div h
      linarith
  rw [abs_sub_roundNearest, div_le_iff₀ hpow, pow_succ 2 unitPlaces, add_mul, ← mul_div_right_comm,
    one_div_mul_eq_div, div_mul_cancel_left₀ hpow.ne', ← one_div]
  exact hround

/-- and whole numbers of units by at most `2^-53` of them. -/
theorem abs_sub_roundNearest_le_of_units {q : ℚ} {k : ℤ} (hk : q * 2 ^ unitPlaces = k) :
    |q - roundNearest q| ≤ |q| / 2 ^ 53 := by
  have hpow : (0 : ℚ) < 2 ^ unitPlaces := by positivity
  have hunits : |q| * 2 ^ unitPlaces = k.natAbs := by
    rw [Nat.cast_natAbs, Int.cast_abs, ← hk, abs_mul, abs_of_pos hpow]
  rw [abs_sub_roundNearest, div_le_iff₀ hpow, ← mul_div_right_comm, hunits]
  rcases lt_or_ge (k.natAbs : ℚ) (2 ^ 52) with h | h
  · have hkeeps : KeepsPrecision k.natAbs := by
      have hlt : k.natAbs < 2 ^ 52 := by exact_mod_cast h
      simpa using keepsPrecision_mul_two_pow (k := k.natAbs) (s := 0) (by omega)
    rw [roundUnits_natCast hkeeps, sub_self, abs_zero]
    exact div_nonneg (Nat.cast_nonneg _) (by norm_num)
  · exact abs_sub_roundUnits_le_div h

/-! ## Values -/

namespace Double

/-- The value of a finite number; zero for the others. -/
def toRat : Double → ℚ
  | .finite s m => signed s m.units / 2 ^ unitPlaces
  | _ => 0

/-- `x` is the binary64 number nearest to `q`: the nearest magnitude, the one with the even
significand of two equally near, and infinity from the overflow bound on. The sign is that of `q`;
a zero may have either. -/
inductive IsNearest : Double → ℚ → Prop
  | finite {s : Bool} {m : Magnitude} {q : ℚ} (hlt : |q| < overflowBound) (hm : m.IsNearest |q|)
      (hs : q ≠ 0 → s = decide (q < 0)) : IsNearest (.finite s m) q
  | infinite {s : Bool} {q : ℚ} (hle : overflowBound ≤ |q|) (hs : s = decide (q < 0)) :
      IsNearest (.infinite s) q

theorem toRat_finite (s : Bool) (m : Magnitude) :
    (finite s m).toRat = if s then -m.value else m.value := by
  cases s with
  | false => simp [toRat, signed, Magnitude.value]
  | true => simp [toRat, signed, Magnitude.value, neg_div]

theorem value_nonneg (m : Magnitude) : 0 ≤ m.value := by
  unfold Magnitude.value
  positivity

theorem abs_toRat_finite (s : Bool) (m : Magnitude) : |(finite s m).toRat| = m.value := by
  rw [toRat_finite]
  cases s with
  | false => rw [if_neg Bool.false_ne_true, abs_of_nonneg (value_nonneg m)]
  | true => rw [if_pos rfl, abs_neg, abs_of_nonneg (value_nonneg m)]

theorem roundMagnitude_value (m : Magnitude) : roundMagnitude m.value = m.value := by
  have hpow : (2 : ℚ) ^ unitPlaces ≠ 0 := by positivity
  rw [roundMagnitude, Magnitude.value, div_mul_cancel₀ _ hpow, roundUnits_natCast m.keepsPrecision]

/-- Values are not rounded, -/
theorem roundNearest_value (m : Magnitude) : roundNearest m.value = m.value := by
  rw [roundNearest_of_nonneg (value_nonneg m), roundMagnitude_value]

/-- whatever their sign. -/
theorem roundNearest_toRat (x : Double) : roundNearest x.toRat = x.toRat := by
  cases x with
  | nan | infinite s => exact roundNearest_zero
  | finite s m =>
    rw [toRat_finite]
    cases s with
    | false => exact roundNearest_value m
    | true => rw [if_pos rfl, roundNearest_neg, roundNearest_value]

theorem abs_toRat_lt (x : Double) : |x.toRat| < overflowBound := by
  cases x with
  | nan | infinite s =>
    have hbound := two_pow_le_overflowBound (k := 0) (by decide)
    rw [pow_zero] at hbound
    show |(0 : ℚ)| < overflowBound
    rw [abs_zero]
    linarith
  | finite s m =>
    have hpow : (2 : ℚ) ^ unitPlaces ≠ 0 := by positivity
    rw [abs_toRat_finite]
    by_contra! hle
    have hend := (rangeEnd_le_roundUnits_iff (value_nonneg m)).2 hle
    rw [Magnitude.value, div_mul_cancel₀ _ hpow, roundUnits_natCast m.keepsPrecision] at hend
    exact absurd (Nat.cast_le.1 hend) (Nat.not_le.2 m.lt_rangeEnd)

/-- A rational in the range whose nearest number is finite has the rounded value there. -/
theorem IsNearest.toRat_eq {x : Double} {q : ℚ} (h : x.IsNearest q) (hlt : |q| < overflowBound) :
    x.isFinite ∧ x.toRat = roundNearest q := by
  have hpow : (2 : ℚ) ^ unitPlaces ≠ 0 := by positivity
  cases h with
  | infinite hle => exact absurd hle hlt.not_ge
  | @finite s m _ _ hm hs =>
    refine ⟨rfl, ?_⟩
    have hend := mt (rangeEnd_le_roundUnits_iff (abs_nonneg q)).1 hlt.not_ge
    have hunits := (Magnitude.isNearest_iff (abs_nonneg q) (lt_of_not_ge hend)).1 hm
    have hvalue : m.value = roundMagnitude |q| := by rw [Magnitude.value, hunits, roundMagnitude]
    rw [toRat_finite, hvalue]
    rcases lt_trichotomy q 0 with hq | rfl | hq
    · rw [hs hq.ne, decide_eq_true hq, if_pos rfl, roundNearest, if_pos hq, abs_of_neg hq]
    · simp
    · rw [hs hq.ne', decide_eq_false hq.not_gt, if_neg Bool.false_ne_true,
        roundNearest_of_nonneg hq.le, abs_of_pos hq]

/-! ## Operations -/

/-- What is rounded from a ratio of units is the number nearest to it. -/
theorem isNearest_ofRatio {s : Bool} {a b : ℕ} {q : ℚ} (hb : 0 < b)
    (hq : (signed s a : ℚ) = q * 2 ^ unitPlaces * b) : (ofRatio s a b).IsNearest q := by
  have hpow : (0 : ℚ) < 2 ^ unitPlaces := by positivity
  have hbq : (0 : ℚ) < b := Nat.cast_pos.2 hb
  have habs : (a / b : ℚ) = |q| * 2 ^ unitPlaces := by
    have ha : (a : ℚ) = |(signed s a : ℚ)| := by cases s <;> simp [signed]
    rw [div_eq_iff hbq.ne', ha, hq, abs_mul, abs_mul, abs_of_pos hpow, abs_of_pos hbq]
  have hsign (hne : q ≠ 0) : s = decide (q < 0) := by
    cases s with
    | false =>
      have hnonneg : 0 ≤ q * 2 ^ unitPlaces * b := by
        rw [← hq]
        simp [signed]
      refine (decide_eq_false ?_).symm
      rw [not_lt]
      exact nonneg_of_mul_nonneg_left (nonneg_of_mul_nonneg_left hnonneg hbq) hpow
    | true =>
      have hnonpos : q * 2 ^ unitPlaces * b ≤ 0 := by
        rw [← hq]
        simp [signed]
      refine (decide_eq_true (lt_of_le_of_ne ?_ hne)).symm
      exact nonpos_of_mul_nonpos_left (nonpos_of_mul_nonpos_left hnonpos hbq) hpow
  have hround := natCast_roundToPrecision a hb
  rw [habs] at hround
  have hend := rangeEnd_le_roundUnits_iff (abs_nonneg q)
  rw [← hround, Nat.cast_le] at hend
  unfold ofRatio
  split
  · next hlt =>
    refine .finite (lt_of_not_ge fun hle => hlt.not_ge (hend.2 hle)) ?_ hsign
    exact (Magnitude.isNearest_iff (abs_nonneg q) (hround ▸ Nat.cast_lt.2 hlt)).2 hround
  · next hge =>
    have hle := hend.1 (Nat.not_lt.1 hge)
    refine .infinite hle (hsign ?_)
    rintro rfl
    have hbound := two_pow_le_overflowBound (k := 0) (by decide)
    rw [abs_zero] at hle
    linarith

end Double

end Calculator
