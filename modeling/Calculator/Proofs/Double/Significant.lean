import Calculator.Power
import Mathlib.Algebra.Order.Field.Power
import Mathlib.Data.Int.Log
import Mathlib.Data.Rat.Floor
import Mathlib.Tactic.FieldSimp
import Mathlib.Tactic.Linarith
import Mathlib.Tactic.NormNum
import Mathlib.Tactic.Positivity
import Mathlib.Tactic.Ring

/-!
# Rounding rational numbers

Rounding to nearest with ties to even, in exact rational numbers: to integers, to the multiples of a
step, and to 53 significant bits without any limit on the exponent.

* `nearestInteger_eq_iff`: what makes an integer the nearest one.
* `abs_sub_nearestInteger_lt_or`: every other integer is farther, or as far and odd.
* `roundSignificant_mul_zpow`: rounding to significant bits moves with the exponent.
* `two_zpow_le_roundSignificant_iff`: what is rounded to a power of two or beyond.
* `nearestInteger_roundSignificant_eq_iff`: which numbers are rounded to another integer when they
  are rounded to significant bits first.
-/

namespace Calculator

/-- The integer nearest to `x`; a tie goes to the even neighbour. -/
def nearestInteger (x : ℚ) : ℤ :=
  if 2 * Int.fract x < 1 ∨ 2 * Int.fract x = 1 ∧ Even ⌊x⌋ then ⌊x⌋ else ⌊x⌋ + 1

/-- The multiple of `step` nearest to `x`; a tie goes to the even multiple. -/
def nearestMultiple (step x : ℚ) : ℚ := nearestInteger (x / step) * step

/-- `x` rounded to 53 significant bits, whatever its exponent. -/
def roundSignificant (x : ℚ) : ℚ := nearestMultiple (2 ^ (Int.log 2 x - 52)) x

/-! ## The nearest integer -/

theorem abs_sub_floor (x : ℚ) : |x - ⌊x⌋| = Int.fract x := abs_of_nonneg (Int.fract_nonneg x)

theorem abs_sub_floor_add_one (x : ℚ) : |x - (⌊x⌋ + 1 : ℤ)| = 1 - Int.fract x := by
  have hlt := Int.lt_floor_add_one x
  have hfract := Int.floor_add_fract x
  rw [abs_sub_comm, Int.cast_add, Int.cast_one, abs_of_nonneg] <;> linarith

theorem nearestInteger_eq_iff {x : ℚ} {k : ℤ} :
    nearestInteger x = k ↔ 2 * |x - k| ≤ 1 ∧ (2 * |x - k| = 1 → Even k) := by
  constructor
  · rintro rfl
    unfold nearestInteger
    split
    · next h =>
      rw [abs_sub_floor]
      rcases h with h | ⟨h, heven⟩
      · exact ⟨h.le, fun h1 => absurd h1 h.ne⟩
      · exact ⟨h.le, fun _ => heven⟩
    · next h =>
      rw [not_or, not_lt, not_and] at h
      rw [abs_sub_floor_add_one]
      refine ⟨by linarith, fun h1 => ?_⟩
      exact (Int.not_even_iff_odd.1 (h.2 (by linarith))).add_one
  · rintro ⟨hle, htie⟩
    have hbounds := abs_le.1 (show |x - k| ≤ 1 / 2 by linarith)
    have hk : k = ⌊x⌋ ∨ k = ⌊x⌋ + 1 := by
      have hhigh : (k : ℚ) < (⌊x⌋ + 2 : ℤ) := by
        have := Int.lt_floor_add_one x
        push_cast
        linarith
      have hlow : ((⌊x⌋ - 1 : ℤ) : ℚ) < k := by
        have := Int.floor_le x
        push_cast
        linarith
      have := Int.cast_lt.1 hhigh
      have := Int.cast_lt.1 hlow
      omega
    unfold nearestInteger
    rcases hk with rfl | rfl
    · rw [abs_sub_floor] at hle htie
      exact if_pos (hle.lt_or_eq.imp id fun h => ⟨h, htie h⟩)
    · rw [abs_sub_floor_add_one] at hle htie
      refine if_neg ?_
      rintro (h | ⟨h, heven⟩)
      · linarith
      · exact Int.not_even_iff_odd.2 heven.add_one (htie (by linarith))

theorem two_mul_abs_sub_nearestInteger_le (x : ℚ) : 2 * |x - nearestInteger x| ≤ 1 :=
  (nearestInteger_eq_iff.1 rfl).1

theorem even_nearestInteger {x : ℚ} (h : 2 * |x - nearestInteger x| = 1) :
    Even (nearestInteger x) :=
  (nearestInteger_eq_iff.1 rfl).2 h

@[simp]
theorem nearestInteger_intCast (k : ℤ) : nearestInteger k = k := by
  rw [nearestInteger_eq_iff]
  simp

@[simp]
theorem nearestInteger_zero : nearestInteger 0 = 0 := by
  simpa using nearestInteger_intCast 0

theorem nearestInteger_mono {x y : ℚ} (h : x ≤ y) : nearestInteger x ≤ nearestInteger y := by
  by_contra! hlt
  have hx := abs_le.1 (show |x - nearestInteger x| ≤ 1 / 2 by
    linarith [two_mul_abs_sub_nearestInteger_le x])
  have hy := abs_le.1 (show |y - nearestInteger y| ≤ 1 / 2 by
    linarith [two_mul_abs_sub_nearestInteger_le y])
  have hstep : (nearestInteger y : ℚ) + 1 ≤ nearestInteger x := by exact_mod_cast hlt
  -- Both would lie on the point halfway between the two integers.
  obtain rfl : x = y := by linarith
  exact lt_irrefl _ hlt

theorem le_nearestInteger {k : ℤ} {x : ℚ} (h : k ≤ x) : k ≤ nearestInteger x := by
  simpa using nearestInteger_mono h

theorem nearestInteger_le {k : ℤ} {x : ℚ} (h : x ≤ k) : nearestInteger x ≤ k := by
  simpa using nearestInteger_mono h

/-- No integer is nearer, and one as near has the other parity. -/
theorem abs_sub_nearestInteger_lt_or {x : ℚ} {k : ℤ} (hk : k ≠ nearestInteger x) :
    |x - nearestInteger x| < |x - k| ∨
      |x - nearestInteger x| = |x - k| ∧ Even (nearestInteger x) ∧ Odd k := by
  have hle := two_mul_abs_sub_nearestInteger_le x
  have hone : (1 : ℚ) ≤ |(nearestInteger x : ℚ) - k| := by
    have : 1 ≤ |nearestInteger x - k| := Int.one_le_abs (sub_ne_zero.2 hk.symm)
    exact_mod_cast this
  have htriangle : |(nearestInteger x : ℚ) - k| ≤ |x - nearestInteger x| + |x - k| := by
    rw [abs_sub_comm x (nearestInteger x)]
    exact abs_sub_le _ _ _
  rcases lt_or_ge |x - nearestInteger x| |x - k| with h | h
  · exact .inl h
  have heven := even_nearestInteger (x := x) (by linarith)
  refine .inr ⟨by linarith, heven, ?_⟩
  have hdiff : |nearestInteger x - k| = 1 := by
    have : |(nearestInteger x : ℚ) - k| = 1 := by linarith
    exact_mod_cast this
  rw [← Int.not_even_iff_odd]
  intro hkeven
  rcases (abs_eq (by norm_num)).1 hdiff with h1 | h1
  · exact absurd (heven.sub hkeven) (by rw [h1]; decide)
  · exact absurd (heven.sub hkeven) (by rw [h1]; decide)

theorem abs_sub_nearestInteger_le (x : ℚ) (k : ℤ) : |x - nearestInteger x| ≤ |x - k| := by
  obtain rfl | hk := eq_or_ne k (nearestInteger x)
  · exact le_rfl
  · exact (abs_sub_nearestInteger_lt_or hk).elim le_of_lt fun h => h.1.le

/-! ## The nearest multiple -/

theorem nearestMultiple_mul_right {c : ℚ} (hc : c ≠ 0) (step x : ℚ) :
    nearestMultiple (step * c) (x * c) = nearestMultiple step x * c := by
  unfold nearestMultiple
  rw [mul_div_mul_right _ _ hc, mul_assoc]

theorem nearestMultiple_of_eq_mul {step x : ℚ} {k : ℤ} (hstep : step ≠ 0) (h : x = k * step) :
    nearestMultiple step x = x := by
  rw [nearestMultiple, h, mul_div_cancel_right₀ _ hstep, nearestInteger_intCast]

theorem nearestMultiple_one (x : ℚ) : nearestMultiple 1 x = nearestInteger x := by
  rw [nearestMultiple, div_one, mul_one]

theorem mul_le_nearestMultiple {step x : ℚ} {k : ℤ} (hstep : 0 < step) (h : k * step ≤ x) :
    k * step ≤ nearestMultiple step x :=
  mul_le_mul_of_nonneg_right (Int.cast_le.2 (le_nearestInteger ((le_div_iff₀ hstep).2 h))) hstep.le

theorem nearestMultiple_le_mul {step x : ℚ} {k : ℤ} (hstep : 0 < step) (h : x ≤ k * step) :
    nearestMultiple step x ≤ k * step :=
  mul_le_mul_of_nonneg_right (Int.cast_le.2 (nearestInteger_le ((div_le_iff₀ hstep).2 h))) hstep.le

/-! ## Binades -/

theorem natCast_le_log_iff {x : ℚ} (hx : 0 < x) {n : ℕ} : (n : ℤ) ≤ Int.log 2 x ↔ 2 ^ n ≤ x := by
  rw [← Int.zpow_le_iff_le_log Nat.one_lt_two hx, zpow_natCast, Nat.cast_ofNat]

theorem log_lt_natCast_iff {x : ℚ} (hx : 0 < x) {n : ℕ} : Int.log 2 x < n ↔ x < 2 ^ n := by
  rw [← Int.lt_zpow_iff_log_lt Nat.one_lt_two hx, zpow_natCast, Nat.cast_ofNat]

theorem log_mul_zpow {x : ℚ} (hx : 0 < x) (k : ℤ) : Int.log 2 (x * 2 ^ k) = Int.log 2 x + k := by
  refine eq_of_forall_le_iff fun e => ?_
  have hpow : (0 : ℚ) < 2 ^ k := by positivity
  have hiff := Int.zpow_le_iff_le_log (R := ℚ) Nat.one_lt_two (x := e) (mul_pos hx hpow)
  have hiff' := Int.zpow_le_iff_le_log (R := ℚ) Nat.one_lt_two (x := e - k) hx
  rw [← hiff, ← sub_le_iff_le_add, ← hiff', Nat.cast_ofNat, zpow_sub₀ two_ne_zero,
    div_le_iff₀ hpow]

/-- A number in units of the step of its binade. -/
theorem div_step_bounds {x : ℚ} (hx : 0 < x) :
    2 ^ 52 ≤ x / 2 ^ (Int.log 2 x - 52) ∧ x / 2 ^ (Int.log 2 x - 52) < 2 ^ 53 := by
  have hpow : (0 : ℚ) < 2 ^ (Int.log 2 x - 52) := by positivity
  have hlow := Int.zpow_log_le_self (R := ℚ) Nat.one_lt_two hx
  have hhigh := Int.lt_zpow_succ_log_self (R := ℚ) Nat.one_lt_two x
  rw [le_div_iff₀ hpow, div_lt_iff₀ hpow, ← zpow_natCast, ← zpow_natCast,
    ← zpow_add₀ two_ne_zero, ← zpow_add₀ two_ne_zero]
  push_cast at hlow hhigh ⊢
  rw [show (52 : ℤ) + (Int.log 2 x - 52) = Int.log 2 x by ring,
    show (53 : ℤ) + (Int.log 2 x - 52) = Int.log 2 x + 1 by ring]
  exact ⟨hlow, hhigh⟩

/-! ## Rounding to 53 significant bits -/

@[simp]
theorem roundSignificant_zero : roundSignificant 0 = 0 := by
  simp [roundSignificant, nearestMultiple]

/-- The rounding moves with the exponent. -/
theorem roundSignificant_mul_zpow {x : ℚ} (hx : 0 ≤ x) (k : ℤ) :
    roundSignificant (x * 2 ^ k) = roundSignificant x * 2 ^ k := by
  rcases hx.eq_or_lt with rfl | hx
  · rw [zero_mul, roundSignificant_zero, zero_mul]
  have hpow : (2 : ℚ) ^ k ≠ 0 := by positivity
  rw [roundSignificant, log_mul_zpow hx, add_sub_right_comm, zpow_add₀ two_ne_zero,
    nearestMultiple_mul_right hpow, roundSignificant]

/-- A number and what it rounds to lie in one closed binade. -/
theorem roundSignificant_bounds {x : ℚ} (hx : 0 < x) :
    2 ^ Int.log 2 x ≤ roundSignificant x ∧ roundSignificant x ≤ 2 ^ (Int.log 2 x + 1) := by
  have hstep : (0 : ℚ) < 2 ^ (Int.log 2 x - 52) := by positivity
  have hlow := Int.zpow_log_le_self (R := ℚ) Nat.one_lt_two hx
  have hhigh := (Int.lt_zpow_succ_log_self (R := ℚ) Nat.one_lt_two x).le
  have hbinade {e : ℤ} {j : ℕ} (h : e = j + (Int.log 2 x - 52)) :
      (2 : ℚ) ^ e = (2 ^ j : ℤ) * 2 ^ (Int.log 2 x - 52) := by
    rw [h, zpow_add₀ two_ne_zero, zpow_natCast, Int.cast_pow, Int.cast_ofNat]
  have h52 := hbinade (show Int.log 2 x = (52 : ℕ) + (Int.log 2 x - 52) by omega)
  have h53 := hbinade (show Int.log 2 x + 1 = (53 : ℕ) + (Int.log 2 x - 52) by omega)
  rw [Nat.cast_ofNat, h52] at hlow
  rw [Nat.cast_ofNat, h53] at hhigh
  rw [h52, h53]
  exact ⟨mul_le_nearestMultiple hstep hlow, nearestMultiple_le_mul hstep hhigh⟩

/-- Numbers of at most 53 significant bits stay. -/
theorem roundSignificant_natCast_mul_zpow {k : ℕ} (hk : k < 2 ^ 53) (e : ℤ) :
    roundSignificant (k * 2 ^ e) = k * 2 ^ e := by
  rw [roundSignificant_mul_zpow (Nat.cast_nonneg k)]
  congr 1
  rcases Nat.eq_zero_or_pos k with rfl | hpos
  · simp
  have hlog : Int.log 2 (k : ℚ) < 53 :=
    (log_lt_natCast_iff (Nat.cast_pos.2 hpos) (n := 53)).2 (by exact_mod_cast hk)
  obtain ⟨j, hj⟩ := Int.eq_ofNat_of_zero_le (show 0 ≤ 52 - Int.log 2 (k : ℚ) by omega)
  refine nearestMultiple_of_eq_mul (k := k * 2 ^ j) (by positivity) ?_
  rw [show Int.log 2 (k : ℚ) - 52 = -(j : ℤ) by omega, zpow_neg, zpow_natCast]
  push_cast
  field_simp

/-- Between `2^52` and `2^53` the step is one. -/
theorem roundSignificant_eq_nearestInteger {x : ℚ} (hlow : 2 ^ 52 ≤ x) (hhigh : x < 2 ^ 53) :
    roundSignificant x = nearestInteger x := by
  have hx : 0 < x := lt_of_lt_of_le (by norm_num) hlow
  have h52 := (natCast_le_log_iff hx).2 hlow
  have h53 := (log_lt_natCast_iff hx).2 hhigh
  have hlog : Int.log 2 x - 52 = 0 := by omega
  rw [roundSignificant, hlog, zpow_zero, nearestMultiple_one]

theorem two_pow_le_nearestInteger_iff {x : ℚ} :
    2 ^ 53 ≤ nearestInteger x ↔ 2 ^ 53 - 1 / 2 ≤ x := by
  have hle := two_mul_abs_sub_nearestInteger_le x
  have hbounds := abs_le.1 (show |x - nearestInteger x| ≤ 1 / 2 by linarith)
  constructor
  · intro h
    have : ((2 ^ 53 : ℤ) : ℚ) ≤ nearestInteger x := Int.cast_le.2 h
    push_cast at this
    linarith
  · intro h
    by_contra! hlt
    have hq : (nearestInteger x : ℚ) ≤ (2 ^ 53 - 1 : ℤ) := Int.cast_le.2 (by omega)
    push_cast at hq
    have heq : nearestInteger x = 2 ^ 53 - 1 := by
      have : ((2 ^ 53 - 1 : ℤ) : ℚ) ≤ nearestInteger x := by push_cast; linarith
      have := Int.cast_le.1 this
      omega
    have heven := even_nearestInteger (x := x) (by rw [abs_of_nonneg] <;> linarith)
    rw [heq] at heven
    exact absurd heven (by decide)

/-- What is rounded to `2^53` or beyond. -/
theorem two_pow_le_roundSignificant_iff {x : ℚ} (hx : 0 ≤ x) :
    2 ^ 53 ≤ roundSignificant x ↔ 2 ^ 53 - 1 / 2 ≤ x := by
  rcases hx.eq_or_lt with rfl | hx
  · rw [roundSignificant_zero]
    norm_num
  obtain ⟨hlow, hhigh⟩ := roundSignificant_bounds hx
  rcases lt_or_ge x (2 ^ 52) with h52 | h52
  · have hlog := (log_lt_natCast_iff hx).2 h52
    have hpow : (2 : ℚ) ^ (Int.log 2 x + 1) ≤ 2 ^ (52 : ℤ) :=
      zpow_le_zpow_right₀ one_le_two (by omega)
    norm_num at hpow h52
    exact iff_of_false (by linarith) (by linarith)
  rcases lt_or_ge x (2 ^ 53) with h53 | h53
  · rw [roundSignificant_eq_nearestInteger h52 h53, ← two_pow_le_nearestInteger_iff]
    exact_mod_cast Iff.rfl
  · have hlog : 53 ≤ Int.log 2 x := (natCast_le_log_iff hx (n := 53)).2 h53
    have hpow : (2 : ℚ) ^ (53 : ℤ) ≤ 2 ^ Int.log 2 x := zpow_le_zpow_right₀ one_le_two hlog
    norm_num at hpow h53
    exact iff_of_true (by linarith) (by linarith)

/-- What is rounded to a power of two or beyond: also what lies half a step or less below it. -/
theorem two_zpow_le_roundSignificant_iff {x : ℚ} (hx : 0 ≤ x) (e : ℤ) :
    2 ^ e ≤ roundSignificant x ↔ 2 ^ e - 2 ^ (e - 54) ≤ x := by
  have hpow : (0 : ℚ) < 2 ^ (53 - e) := by positivity
  have h53 : (2 : ℚ) ^ e * 2 ^ (53 - e) = 2 ^ 53 := by
    rw [← zpow_add₀ two_ne_zero, add_sub_cancel]
    norm_num
  have hhalf : (2 : ℚ) ^ (e - 54) * 2 ^ (53 - e) = 1 / 2 := by
    rw [← zpow_add₀ two_ne_zero, show e - 54 + (53 - e) = -1 by ring]
    norm_num
  have hscaled := two_pow_le_roundSignificant_iff (mul_nonneg hx hpow.le)
  rwa [roundSignificant_mul_zpow hx, ← h53, ← hhalf, ← sub_mul, mul_le_mul_iff_left₀ hpow,
    mul_le_mul_iff_left₀ hpow] at hscaled

/-! ## Rounding twice -/

theorem nearestInteger_eq_of_lt {x : ℚ} {k : ℤ} (hlow : k - 1 / 2 < x) (hhigh : x < k + 1 / 2) :
    nearestInteger x = k := by
  have habs : |x - k| < 1 / 2 := abs_lt.2 ⟨by linarith, by linarith⟩
  exact nearestInteger_eq_iff.2 ⟨by linarith, fun h => absurd h (by linarith)⟩

theorem nearestInteger_add_half (k : ℤ) :
    nearestInteger (k + 1 / 2) = if Even k then k else k + 1 := by
  split
  · next h =>
    rw [nearestInteger_eq_iff, add_sub_cancel_left, abs_of_pos (by norm_num)]
    exact ⟨by norm_num, fun _ => h⟩
  · next h =>
    have hodd := (Int.not_even_iff_odd.1 h).add_one
    rw [nearestInteger_eq_iff, Int.cast_add, Int.cast_one, add_sub_add_left_eq_sub,
      abs_of_neg (by norm_num)]
    exact ⟨by norm_num, fun _ => hodd⟩

/-- Below `2^52` the halves have at most 53 significant bits. -/
theorem exists_div_step_eq {y : ℚ} (hy : 0 < y) (h : y < 2 ^ 52) (j : ℤ) :
    ∃ i : ℤ, (j / 2 : ℚ) = i * 2 ^ (Int.log 2 y - 52) := by
  have hlog := (log_lt_natCast_iff hy).2 h
  obtain ⟨u, hu⟩ := Int.eq_ofNat_of_zero_le (show 0 ≤ 51 - Int.log 2 y by omega)
  refine ⟨j * 2 ^ u, ?_⟩
  rw [show Int.log 2 y - 52 = -(u : ℤ) - 1 by omega, zpow_sub_one₀ two_ne_zero, zpow_neg,
    zpow_natCast]
  push_cast
  field_simp

theorem le_roundSignificant {y : ℚ} (hy : 0 < y) (h : y < 2 ^ 52) {j : ℤ} (hj : (j / 2 : ℚ) ≤ y) :
    (j / 2 : ℚ) ≤ roundSignificant y := by
  obtain ⟨i, hi⟩ := exists_div_step_eq hy h j
  have hstep : (0 : ℚ) < 2 ^ (Int.log 2 y - 52) := by positivity
  rw [hi] at hj ⊢
  exact mul_le_nearestMultiple hstep hj

theorem roundSignificant_le {y : ℚ} (hy : 0 < y) (h : y < 2 ^ 52) {j : ℤ} (hj : y ≤ (j / 2 : ℚ)) :
    roundSignificant y ≤ (j / 2 : ℚ) := by
  obtain ⟨i, hi⟩ := exists_div_step_eq hy h j
  have hstep : (0 : ℚ) < 2 ^ (Int.log 2 y - 52) := by positivity
  rw [hi] at hj ⊢
  exact nearestMultiple_le_mul hstep hj

/-- Between two halves both roundings stay there. -/
theorem nearestInteger_roundSignificant_of_ne {y : ℚ} (hy : 0 < y) (h : y < 2 ^ 52)
    (hne : ∀ k : ℤ, roundSignificant y ≠ k + 1 / 2) :
    nearestInteger (roundSignificant y) = nearestInteger y := by
  obtain ⟨k, hk⟩ : ∃ k, k = nearestInteger (roundSignificant y) := ⟨_, rfl⟩
  have hhalf := abs_le.1 (show |roundSignificant y - k| ≤ 1 / 2 by
    rw [hk]
    linarith [two_mul_abs_sub_nearestInteger_le (roundSignificant y)])
  rw [← hk, eq_comm]
  refine nearestInteger_eq_of_lt ?_ ?_
  · by_contra! hle
    have hround := roundSignificant_le hy h (j := 2 * k - 1) (by push_cast; linarith)
    refine hne (k - 1) ?_
    push_cast at hround ⊢
    linarith
  · by_contra! hge
    have hround := le_roundSignificant hy h (j := 2 * k + 1) (by push_cast; linarith)
    refine hne k ?_
    push_cast at hround ⊢
    linarith

/-- **Where rounding twice goes wrong.** A number is rounded to another integer when it is rounded
to significant bits first only if that moves it onto the middle between two integers. There the tie
goes to the even one, and the number itself lies on the other side. -/
theorem nearestInteger_roundSignificant_eq_iff {y : ℚ} (hy : 0 ≤ y) (h : y < 2 ^ 52) :
    nearestInteger (roundSignificant y) = nearestInteger y ↔
      ¬∃ k : ℤ, roundSignificant y = k + 1 / 2 ∧
        if Even k then roundSignificant y < y else y < roundSignificant y := by
  rcases hy.eq_or_lt with rfl | hy
  · simp
  by_cases hmiddle : ∃ k : ℤ, roundSignificant y = k + 1 / 2
  · obtain ⟨k, hk⟩ := hmiddle
    have hexists : (∃ k : ℤ, roundSignificant y = k + 1 / 2 ∧
          if Even k then roundSignificant y < y else y < roundSignificant y) ↔
        if Even k then roundSignificant y < y else y < roundSignificant y := by
      refine ⟨fun ⟨k', hk', hside⟩ => ?_, fun hside => ⟨k, hk, hside⟩⟩
      have heq : (k' : ℚ) = k := by linarith
      rwa [Int.cast_inj.1 heq] at hside
    have hlow : (k : ℚ) < y := by
      by_contra! hle
      have := roundSignificant_le hy h (j := 2 * k) (by push_cast; linarith)
      push_cast at this
      linarith
    have hhigh : y < k + 1 := by
      by_contra! hge
      have := le_roundSignificant hy h (j := 2 * k + 2) (by push_cast; linarith)
      push_cast at this
      linarith
    have hround : nearestInteger (roundSignificant y) = if Even k then k else k + 1 := by
      rw [hk, nearestInteger_add_half]
    rw [hexists, hround]
    rcases lt_trichotomy y (roundSignificant y) with hlt | heq | hgt
    · rw [nearestInteger_eq_of_lt (k := k) (by linarith) (by linarith)]
      split
      · exact iff_of_true rfl hlt.not_gt
      · exact iff_of_false (by omega) (not_not_intro hlt)
    · rw [← hround, ← heq]
      simp
    · rw [nearestInteger_eq_of_lt (k := k + 1) (by push_cast; linarith) (by push_cast; linarith)]
      split
      · exact iff_of_false (by omega) (not_not_intro hgt)
      · exact iff_of_true rfl hgt.not_gt
  · refine iff_of_true ?_ fun ⟨k, hk, _⟩ => hmiddle ⟨k, hk⟩
    exact nearestInteger_roundSignificant_of_ne hy h fun k hk => hmiddle ⟨k, hk⟩

end Calculator
