import Calculator.Proofs.Double.Operations

/-!
# The end of a scaling

A scaling by a power of two ends after five multiplications at most, whatever the exponent. Its
result is exact as long as no bits are lost, and otherwise less than a unit away from the exact
product, although each of its steps rounds.

* `Double.scaleWithin`: the scaling with its multiplications counted and its exponents in words.
* `Double.exists_scaleWithin_natCast`, `Double.exists_scaleWithin_neg`: how many it takes.
* `Double.exists_scale_neg_eq`: how far the steps down lead from the exact product.
* `Double.scale_eq_infinite`, `Double.exists_scale_eq`: the result for any exponent.
* `Double.scaling_ends_exact`: all of this for any number and any exponent in a word.
-/

namespace Calculator

namespace Double

variable {s : Bool} {m : Magnitude}

/-! ## One step -/

/-- A step up is exact within the range, -/
theorem exists_ofRatio_mul_two_pow {d : ℕ} (hlt : m.units * 2 ^ d < rangeEnd) :
    ∃ m' : Magnitude, ofRatio s (m.units * 2 ^ d) 1 = finite s m' ∧ m'.units = m.units * 2 ^ d := by
  let m' : Magnitude := ⟨m.units * 2 ^ d, m.keepsPrecision.mul_two_pow d, hlt⟩
  exact ⟨m', ofRatio_units s m', rfl⟩

/-- and a step down rounds to units. -/
theorem exists_ofRatio_units_two_pow (m : Magnitude) (d : ℕ) :
    ∃ m' : Magnitude, ofRatio s m.units (2 ^ d) = finite s m' ∧
      2 * (m'.units * 2 ^ d) ≤ 2 * m.units + 2 ^ d ∧
      2 * m.units ≤ 2 * (m'.units * 2 ^ d) + 2 ^ d := by
  obtain ⟨m', hm', hunits⟩ := exists_ofRatio_two_pow (s := s) (u := d) m.keepsPrecision
    (Nat.lt_of_lt_of_le m.lt_rangeEnd (Nat.le_mul_of_pos_right _ (Nat.two_pow_pos d)))
  refine ⟨m', hm', ?_⟩
  rw [hunits]
  exact roundHalfEven_bounds m.units (Nat.two_pow_pos d)

/-! ## How many steps there are -/

/-- The integers of a 64-bit word with sign. -/
def IsWord (k : ℤ) : Prop := -2 ^ 63 ≤ k ∧ k < 2 ^ 63

instance (k : ℤ) : Decidable (IsWord k) := inferInstanceAs (Decidable (_ ∧ _))

/-- `scale` with at most so many multiplications, and exponents in words: there is no result where
it takes more, or where an exponent that is left does not fit. -/
def scaleWithin : (multiplications : ℕ) → Double → ℤ → Option Double
  | 0, x, k => if k = 0 ∨ x.isZero ∨ !x.isFinite then some x else none
  | n + 1, x, k =>
    if k = 0 ∨ x.isZero ∨ !x.isFinite then some x
    else if IsWord (k - nextStep k) then
      scaleWithin n (x * powerOfTwo (nextStep k)) (k - nextStep k)
    else none

theorem scaleWithin_of_done {x : Double} {k : ℤ} (h : k = 0 ∨ x.isZero ∨ !x.isFinite) (n : ℕ) :
    scaleWithin n x k = some x := by
  cases n <;> rw [scaleWithin, if_pos h]

/-- A result within the bounds is that of the scaling. -/
theorem scale_eq_of_scaleWithin {n : ℕ} {x y : Double} {k : ℤ} (h : scaleWithin n x k = some y) :
    scale x k = y := by
  induction n generalizing x k with
  | zero =>
    rw [scaleWithin] at h
    split at h
    · next hdone => rw [scale_of_done hdone, Option.some.inj h]
    · cases h
  | succ n ih =>
    rw [scaleWithin] at h
    split at h
    · next hdone => rw [scale_of_done hdone, Option.some.inj h]
    next hdone =>
    split at h
    · rw [scale, if_neg hdone]
      exact ih h
    · cases h

/-- The countdown moves toward zero, so that it stays in words. -/
theorem IsWord.sub_nextStep {k : ℤ} (h : IsWord k) : IsWord (k - nextStep k) := by
  unfold IsWord nextStep scalingStep at *
  omega

/-- With one multiplication more there is a result if there is one after that multiplication. -/
theorem exists_scaleWithin_succ {n : ℕ} {k : ℤ} (hword : IsWord k)
    (h : k ≠ 0 → m.units ≠ 0 →
      ∃ y, scaleWithin n (finite s m * powerOfTwo (nextStep k)) (k - nextStep k) = some y) :
    ∃ y, scaleWithin (n + 1) (finite s m) k = some y := by
  by_cases hk : k = 0
  · exact ⟨_, scaleWithin_of_done (.inl hk) _⟩
  by_cases hm : m.units = 0
  · rw [finite_eq_zero hm]
    exact ⟨_, scaleWithin_of_done (.inr (.inl rfl)) _⟩
  rw [scaleWithin, if_neg (by simp [isZero, isFinite, hk, hm]), if_pos hword.sub_nextStep]
  exact h hk hm

theorem exists_scaleWithin_zero (n : ℕ) (x : Double) : ∃ y, scaleWithin n x (0 : ℕ) = some y :=
  ⟨x, scaleWithin_of_done (.inl rfl) n⟩

/-- A full step up appends 512 bits, and there is no room for many of them. -/
theorem exists_scaleWithin_natCast {n k : ℕ} (hword : IsWord k)
    (h : rangeEnd ≤ m.units * 2 ^ (512 * n)) : ∃ y, scaleWithin n (finite s m) k = some y := by
  induction n generalizing m k with
  | zero =>
    rw [Nat.mul_zero, Nat.pow_zero, Nat.mul_one] at h
    exact absurd h (Nat.not_le.2 m.lt_rangeEnd)
  | succ n ih =>
    refine exists_scaleWithin_succ hword fun hk hm => ?_
    have hrest := hword.sub_nextStep
    rw [nextStep_natCast] at hrest ⊢
    obtain ⟨d, hd⟩ : ∃ d, min k 512 = d := ⟨_, rfl⟩
    have hsub : (k : ℤ) - d = (k - d : ℕ) := by omega
    rw [hd, hsub] at hrest ⊢
    rw [mul_powerOfTwo_natCast (by omega)]
    rcases Nat.lt_or_ge (m.units * 2 ^ d) rangeEnd with hlt | hge
    · obtain ⟨next, hnext, hunits⟩ := exists_ofRatio_mul_two_pow (s := s) hlt
      rw [hnext]
      rcases (by omega : k - d = 0 ∨ d = 512) with hlast | hfull
      · rw [hlast]
        exact exists_scaleWithin_zero n _
      · refine ih hrest (Nat.le_trans h (Nat.le_of_eq ?_))
        rw [hunits, Nat.mul_succ, Nat.pow_add, hfull, Nat.mul_assoc, Nat.mul_comm (2 ^ (512 * n))]
    · rw [ofRatio_eq_infinite Nat.one_pos (by rwa [Nat.mul_one])]
      exact ⟨_, scaleWithin_of_done (.inr (.inr rfl)) n⟩

/-- A full step down takes 512 bits off, and there are not many of them. -/
theorem exists_scaleWithin_neg {n k : ℕ} (hword : IsWord (-k))
    (h : 4 * m.units ≤ 2 ^ (512 * n)) : ∃ y, scaleWithin n (finite s m) (-k) = some y := by
  induction n generalizing m k with
  | zero =>
    rw [Nat.mul_zero, Nat.pow_zero] at h
    rw [finite_eq_zero (by omega)]
    exact ⟨_, scaleWithin_of_done (.inr (.inl rfl)) _⟩
  | succ n ih =>
    refine exists_scaleWithin_succ hword fun hk hm => ?_
    have hrest := hword.sub_nextStep
    rw [nextStep_neg] at hrest ⊢
    obtain ⟨d, hd⟩ : ∃ d, min k 512 = d := ⟨_, rfl⟩
    have hsub : -(k : ℤ) - -d = -(k - d : ℕ) := by omega
    rw [hd, hsub] at hrest ⊢
    obtain ⟨next, hnext, hbound, -⟩ := exists_ofRatio_units_two_pow (s := s) m d
    rw [mul_powerOfTwo_neg (by rw [unitPlaces]; omega), hnext]
    rcases (by omega : k - d = 0 ∨ d = 512) with hlast | hfull
    · rw [hlast]
      exact exists_scaleWithin_zero n _
    · refine ih hrest ?_
      have hpow := Nat.two_pow_pos d
      have hsplit : 2 ^ (512 * (n + 1)) = 2 ^ (512 * n) * 2 ^ d := by
        rw [Nat.mul_succ, Nat.pow_add, hfull]
      have hle : 4 * next.units ≤ 2 ^ (512 * n) + 2 := by
        refine Nat.le_of_mul_le_mul_right ?_ hpow
        rw [Nat.mul_assoc, Nat.add_mul, ← hsplit]
        omega
      -- Rounding up does not pass the bound: it is one, or a multiple of four.
      cases n with
      | zero =>
        rw [Nat.mul_zero, Nat.pow_zero] at hle ⊢
        omega
      | succ n =>
        rw [show 512 * (n + 1) = 512 * n + 510 + 2 by omega, Nat.pow_add] at hle ⊢
        omega

/-- **Five multiplications are enough.** -/
theorem exists_scaleWithin {k : ℤ} (hword : IsWord k) :
    ∃ y, scaleWithin 5 (finite s m) k = some y := by
  obtain ⟨n, rfl | rfl⟩ := k.eq_nat_or_neg
  · rcases Nat.eq_zero_or_pos m.units with hm | hm
    · rw [finite_eq_zero hm]
      exact ⟨_, scaleWithin_of_done (.inr (.inl rfl)) _⟩
    refine exists_scaleWithin_natCast hword ?_
    calc rangeEnd ≤ 2 ^ (512 * 5) := Nat.pow_le_pow_right Nat.two_pos (by decide)
      _ ≤ m.units * 2 ^ (512 * 5) := Nat.le_mul_of_pos_left _ hm
  · refine exists_scaleWithin_neg hword ?_
    have hfour (e : ℕ) : 4 * 2 ^ e = 2 ^ (e + 2) := by rw [Nat.pow_add, Nat.mul_comm]
    have hlt : m.units ≤ 2 ^ rangeBits := Nat.le_of_lt m.lt_rangeEnd
    calc 4 * m.units ≤ 4 * 2 ^ rangeBits := Nat.mul_le_mul_left 4 hlt
      _ = 2 ^ (rangeBits + 2) := hfour rangeBits
      _ ≤ 2 ^ (512 * 5) := Nat.pow_le_pow_right Nat.two_pos (by decide)

/-- For the smallest number four are not. -/
example : scaleWithin 4 (ofRatio false 1 1) 3000 = none := by decide +kernel

/-! ## Where the steps lead -/

/-- What stays less than a step away after half a step is less than a step away altogether. -/
theorem near_of_half_step {a b c p q : ℕ} (hp : 0 < p)
    (hb : 2 * (b * p) ≤ 2 * a + p ∧ 2 * a ≤ 2 * (b * p) + p) (hc : c * q < b + q ∧ b < c * q + q) :
    c * (q * p) < a + q * p ∧ a < c * (q * p) + q * p := by
  have hhigh := Nat.mul_le_mul_right p (Nat.succ_le_of_lt hc.1)
  have hlow := Nat.mul_le_mul_right p (Nat.succ_le_of_lt hc.2)
  rw [Nat.succ_mul, Nat.add_mul] at hhigh hlow
  rw [← Nat.mul_assoc]
  omega

/-- **Scaling down leads less than a unit away from the exact product.** The first step rounds by
half a unit, of which the later ones leave a fraction. -/
theorem exists_scale_neg_eq (m : Magnitude) (n : ℕ) :
    ∃ m' : Magnitude, scale (finite s m) (-n) = finite s m' ∧
      m'.units * 2 ^ n < m.units + 2 ^ n ∧ m.units < m'.units * 2 ^ n + 2 ^ n := by
  induction n using Nat.strongRecOn generalizing m with
  | ind n ih =>
  rcases Nat.lt_or_ge 512 n with hlong | hshort
  · obtain ⟨next, hnext, hhalf⟩ := exists_ofRatio_units_two_pow (s := s) m 512
    obtain ⟨m', hm', hnear⟩ := ih (n - 512) (by omega) next
    refine ⟨m', by rw [scale_neg_of_lt m hlong, hnext, hm'], ?_⟩
    rw [← Nat.sub_add_cancel (Nat.le_of_lt hlong), Nat.pow_add]
    exact near_of_half_step (Nat.two_pow_pos 512) hhalf hnear
  · obtain ⟨m', hm', hhalf⟩ := exists_ofRatio_units_two_pow (s := s) m n
    have hpow := Nat.two_pow_pos n
    exact ⟨m', by rw [scale_neg_of_le m hshort, hm'], by omega, by omega⟩

/-! ## The result -/

theorem value_mul_units (m : Magnitude) : m.value * 2 ^ unitPlaces = m.units :=
  div_mul_cancel₀ _ (by positivity)

/-- Where a magnitude that is scaled up leaves the range. -/
theorem rangeEnd_le_units_mul_iff (m : Magnitude) (n : ℕ) :
    rangeEnd ≤ m.units * 2 ^ n ↔ 2 ^ 1024 ≤ m.value * 2 ^ n := by
  have hpow : (0 : ℚ) < 2 ^ unitPlaces := by positivity
  rw [← mul_le_mul_iff_left₀ hpow, mul_right_comm, value_mul_units, ← two_pow_1024_mul]
  exact_mod_cast Iff.rfl

/-- From the end of the range on the result is infinite. -/
theorem scale_eq_infinite {k : ℤ} (h : 2 ^ 1024 ≤ m.value * 2 ^ k) :
    scale (finite s m) k = infinite s := by
  obtain ⟨n, rfl | rfl⟩ := k.eq_nat_or_neg
  · rw [zpow_natCast, ← rangeEnd_le_units_mul_iff] at h
    rw [scale_natCast, ofRatio_eq_infinite Nat.one_pos (by rwa [Nat.mul_one])]
  · have hvalue : m.value * 2 ^ (-n : ℤ) ≤ m.value * 2 ^ 0 := by
      rw [← zpow_natCast 2 0]
      exact mul_le_mul_of_nonneg_left (zpow_le_zpow_right₀ one_le_two (by simp)) (value_nonneg m)
    have hend := (rangeEnd_le_units_mul_iff m 0).2 (h.trans hvalue)
    rw [Nat.pow_zero, Nat.mul_one] at hend
    exact absurd hend (Nat.not_le.2 m.lt_rangeEnd)

/-- Within the range scaling up is exact. -/
theorem exists_scale_natCast_eq {n : ℕ} (h : m.value * 2 ^ n < 2 ^ 1024) :
    ∃ m' : Magnitude, scale (finite s m) n = finite s m' ∧ m'.value = m.value * 2 ^ n := by
  have hlt : m.units * 2 ^ n < rangeEnd :=
    Nat.not_le.1 fun hle => h.not_ge ((rangeEnd_le_units_mul_iff m n).1 hle)
  obtain ⟨m', hm', hunits⟩ := exists_ofRatio_mul_two_pow (s := s) hlt
  have hpow : (2 : ℚ) ^ unitPlaces ≠ 0 := by positivity
  refine ⟨m', by rw [scale_natCast, hm'], mul_right_cancel₀ hpow ?_⟩
  rw [value_mul_units, hunits, mul_right_comm, value_mul_units]
  rw [Nat.cast_mul, Nat.cast_pow, Nat.cast_ofNat]

theorem value_mul_zpow_neg_mul_units (m : Magnitude) (n : ℕ) :
    m.value * 2 ^ (-n : ℤ) * 2 ^ unitPlaces = m.units / 2 ^ n := by
  rw [mul_right_comm, value_mul_units, zpow_neg, zpow_natCast, div_eq_mul_inv]

/-- Less than a step of `2^n` apart in units is less than a unit apart after the steps down. -/
theorem abs_value_sub_lt {m' : Magnitude} {n : ℕ} (hhigh : m'.units * 2 ^ n < m.units + 2 ^ n)
    (hlow : m.units < m'.units * 2 ^ n + 2 ^ n) :
    |m'.value - m.value * 2 ^ (-n : ℤ)| < 2 ^ (-1074 : ℤ) := by
  have hpow : (0 : ℚ) < 2 ^ unitPlaces := by positivity
  have hn : (0 : ℚ) < 2 ^ n := by positivity
  have habs : |(m'.units : ℚ) * 2 ^ n - m.units| < 2 ^ n := by
    have hhigh : (m'.units * 2 ^ n : ℚ) < m.units + 2 ^ n := by exact_mod_cast hhigh
    have hlow : (m.units : ℚ) < m'.units * 2 ^ n + 2 ^ n := by exact_mod_cast hlow
    exact abs_lt.2 ⟨by linarith, by linarith⟩
  have hunits : (m'.value - m.value * 2 ^ (-n : ℤ)) * 2 ^ unitPlaces =
      (m'.units * 2 ^ n - m.units) / 2 ^ n := by
    rw [sub_mul, value_mul_units, value_mul_zpow_neg_mul_units, sub_div,
      mul_div_cancel_right₀ _ hn.ne']
  rw [two_zpow_neg_units, ← one_div, lt_div_iff₀ hpow]
  calc |m'.value - m.value * 2 ^ (-n : ℤ)| * 2 ^ unitPlaces
      = |((m'.units : ℚ) * 2 ^ n - m.units) / 2 ^ n| := by
        rw [← hunits, abs_mul, abs_of_pos hpow]
    _ < 1 := by rwa [abs_div, abs_of_pos hn, div_lt_one hn]

/-- It is no distance at all above the subnormal range: there, both sides are multiples of the same
power of two, and less than one of it apart. -/
theorem value_eq_of_near {m' : Magnitude} {n : ℕ} (hhigh : m'.units * 2 ^ n < m.units + 2 ^ n)
    (hlow : m.units < m'.units * 2 ^ n + 2 ^ n)
    (hnormal : 2 ^ (-1022 : ℤ) ≤ m.value * 2 ^ (-n : ℤ)) :
    m'.value = m.value * 2 ^ (-n : ℤ) := by
  have hpow : (2 : ℚ) ^ unitPlaces ≠ 0 := by positivity
  have hn : (0 : ℚ) < 2 ^ n := by positivity
  have hle : 2 ^ (52 + n) ≤ m.units := by
    have hle := two_pow_le_mul_units_iff.2 hnormal
    rw [value_mul_zpow_neg_mul_units, le_div_iff₀ hn, ← pow_add] at hle
    exact_mod_cast hle
  obtain ⟨j, hj⟩ := m.keepsPrecision.two_pow_dvd hle
  have hunits : m'.units = j := by
    rw [hj, Nat.mul_comm (2 ^ n) j, ← Nat.succ_mul] at hhigh hlow
    have hhigh := Nat.lt_of_mul_lt_mul_right hhigh
    have hlow := Nat.lt_of_mul_lt_mul_right hlow
    omega
  refine mul_right_cancel₀ hpow ?_
  rw [value_mul_units, value_mul_zpow_neg_mul_units, hunits, hj, Nat.cast_mul, Nat.cast_pow,
    Nat.cast_ofNat, mul_div_cancel_left₀ _ hn.ne']

/-- Below it the result is less than a unit away from the exact product, and it is exact where no
bits are lost: for exponents that are not negative, and above the subnormal range. -/
theorem exists_scale_eq {k : ℤ} (h : m.value * 2 ^ k < 2 ^ 1024) :
    ∃ m' : Magnitude, scale (finite s m) k = finite s m' ∧
      |m'.value - m.value * 2 ^ k| < 2 ^ (-1074 : ℤ) ∧
      (0 ≤ k ∨ 2 ^ (-1022 : ℤ) ≤ m.value * 2 ^ k → m'.value = m.value * 2 ^ k) := by
  rcases le_or_gt 0 k with hk | hk
  · obtain ⟨n, rfl⟩ := Int.eq_ofNat_of_zero_le hk
    rw [zpow_natCast] at *
    obtain ⟨m', hm', hvalue⟩ := exists_scale_natCast_eq (s := s) h
    refine ⟨m', hm', ?_, fun _ => hvalue⟩
    rw [hvalue, sub_self, abs_zero]
    positivity
  · obtain ⟨n, rfl⟩ : ∃ n : ℕ, k = -n := ⟨k.natAbs, by omega⟩
    obtain ⟨m', hm', hhigh, hlow⟩ := exists_scale_neg_eq (s := s) m n
    refine ⟨m', hm', abs_value_sub_lt hhigh hlow, fun hexact => ?_⟩
    exact value_eq_of_near hhigh hlow (hexact.resolve_left hk.not_ge)

/-! ## Any number and exponent -/

theorem isWord_toInt (k : Int64) : IsWord k.toInt := ⟨k.le_toInt, k.toInt_lt⟩

theorem done_of_not_finite {x : Double} {k : ℤ} (h : x.isZero ∨ ¬x.isFinite) :
    k = 0 ∨ x.isZero ∨ !x.isFinite :=
  .inr (h.imp_right fun hx => by simpa using hx)

/-- Numbers of one sign are as far from their products as their magnitudes are. -/
theorem toRat_sub_mul (s : Bool) (m m' : Magnitude) (q : ℚ) :
    |(finite s m').toRat - (finite s m).toRat * q| = |m'.value - m.value * q| := by
  rw [toRat_finite, toRat_finite]
  cases s with
  | false => rfl
  | true =>
    rw [if_pos rfl, if_pos rfl, neg_mul, neg_sub_neg, abs_sub_comm]

theorem abs_toRat_mul (s : Bool) (m : Magnitude) (k : ℤ) :
    |(finite s m).toRat * 2 ^ k| = m.value * 2 ^ k := by
  rw [abs_mul, abs_toRat_finite, abs_of_pos (by positivity)]

/-- The sign is kept. -/
theorem signBit_scale (x : Double) (k : ℤ) : (scale x k).signBit = x.signBit := by
  by_cases hdone : x.isZero ∨ ¬x.isFinite
  · rw [scale_of_done (done_of_not_finite hdone)]
  obtain ⟨s, m, rfl⟩ := exists_eq_finite_of_isFinite (not_not.1 (not_or.1 hdone).2)
  rcases lt_or_ge (m.value * 2 ^ k) (2 ^ 1024) with hlt | hge
  · obtain ⟨m', hm', -⟩ := exists_scale_eq (s := s) hlt
    rw [hm']
    rfl
  · rw [scale_eq_infinite hge]
    rfl

/-- Within the range the result is near its exact product, with its sign as without. -/
theorem scale_near {k : ℤ} (h : m.value * 2 ^ k < 2 ^ 1024) :
    (scale (finite s m) k).isFinite ∧
      |(scale (finite s m) k).toRat - (finite s m).toRat * 2 ^ k| < 2 ^ (-1074 : ℤ) ∧
      (0 ≤ k ∨ 2 ^ (-1022 : ℤ) ≤ m.value * 2 ^ k →
        (scale (finite s m) k).toRat = (finite s m).toRat * 2 ^ k) := by
  obtain ⟨m', hm', hnear, hexact⟩ := exists_scale_eq (s := s) h
  rw [hm', toRat_sub_mul]
  refine ⟨rfl, hnear, fun hk => sub_eq_zero.1 (abs_eq_zero.1 ?_)⟩
  rw [toRat_sub_mul, hexact hk, sub_self, abs_zero]

/-- **Scaling ends, and it is exact wherever it can be.** For every exponent in a 64-bit word five
multiplications are enough, and zeros, infinities and NaN take none. The sign is kept. The result
is infinite where the exact product `p` is out of range, `p` itself where that is neither out of
range nor subnormal, and otherwise less than `2^-1074` away from `p`, and `p` if the exponent is
not negative. -/
theorem scaling_ends_exact (x : Double) (k : Int64) :
    scaleWithin 5 x k.toInt = some (scale x k.toInt) ∧
    (x.isZero ∨ ¬x.isFinite → scaleWithin 0 x k.toInt = some x) ∧
    (scale x k.toInt).signBit = x.signBit ∧
    (x.isFinite → ¬x.isZero → ∀ p : ℚ, p = x.toRat * 2 ^ k.toInt →
      (2 ^ 1024 ≤ |p| → scale x k.toInt = infinite x.signBit) ∧
      (2 ^ (-1022 : ℤ) ≤ |p| → |p| < 2 ^ 1024 →
        (scale x k.toInt).isFinite ∧ (scale x k.toInt).toRat = p) ∧
      (|p| < 2 ^ (-1022 : ℤ) → (scale x k.toInt).isFinite ∧
        |(scale x k.toInt).toRat - p| < 2 ^ (-1074 : ℤ) ∧
        (0 ≤ k.toInt → (scale x k.toInt).toRat = p))) := by
  by_cases hdone : x.isZero ∨ ¬x.isFinite
  · have hscale := scale_of_done (done_of_not_finite (k := k.toInt) hdone)
    rw [hscale]
    exact ⟨scaleWithin_of_done (done_of_not_finite hdone) 5,
      fun _ => scaleWithin_of_done (done_of_not_finite hdone) 0, rfl,
      fun hx hne => absurd hdone (by simp [hx, hne])⟩
  obtain ⟨s, m, rfl⟩ := exists_eq_finite_of_isFinite (not_not.1 (not_or.1 hdone).2)
  obtain ⟨y, hy⟩ := exists_scaleWithin (s := s) (m := m) (isWord_toInt k)
  refine ⟨by rw [hy, scale_eq_of_scaleWithin hy], fun h => absurd h hdone, signBit_scale _ _, ?_⟩
  rintro - - p rfl
  rw [abs_toRat_mul]
  refine ⟨scale_eq_infinite, fun hlow hhigh => ?_, fun hsmall => ?_⟩
  · obtain ⟨hfinite, -, hexact⟩ := scale_near (s := s) hhigh
    exact ⟨hfinite, hexact (.inr hlow)⟩
  · have hlt : m.value * 2 ^ k.toInt < 2 ^ 1024 := by
      refine hsmall.trans ?_
      rw [← zpow_natCast]
      exact zpow_lt_zpow_right₀ one_lt_two (by decide)
    obtain ⟨hfinite, hnear, hexact⟩ := scale_near (s := s) hlt
    exact ⟨hfinite, hnear, fun hk => hexact (.inl hk)⟩

end Double
end Calculator
