import Calculator.Double.Scaling
import Calculator.Proofs.Double.Rounding

/-!
# Scaling by steps

What the steps of a scaling by a power of two come to: where every step but the last is exact, a
single rounding of the product.

* `exists_ofRatio_two_pow`: what is left of a number of 53 significant bits when it is divided by a
  power of two.
* `mul_powerOfTwo_natCast`, `mul_powerOfTwo_neg`: one step.
* `scale_natCast`: scaling up is exact until it leaves the range.
* `scale_neg`: scaling down rounds once if its steps stay exact up to the one that matters.
-/

namespace Calculator.Double

variable {s : Bool}

theorem ofRatio_units (s : Bool) (m : Magnitude) : ofRatio s m.units 1 = .finite s m :=
  ofRatio_eq_finite (roundToPrecision_self m.keepsPrecision)

theorem finite_eq_zero {m : Magnitude} (h : m.units = 0) : finite s m = zero s := by
  obtain ⟨units, _, _⟩ := m
  subst h
  rfl

theorem lt_two_pow_of_le {a d e : Nat} (h : a < 2 ^ d) (hle : d ≤ e) : a < 2 ^ e :=
  Nat.lt_of_lt_of_le h (Nat.pow_le_pow_right Nat.two_pos hle)

/-- Dividing by a power of two that divides the units is exact. -/
theorem exists_ofRatio_eq {m : Magnitude} {d : Nat} (h : 2 ^ d ∣ m.units) :
    ∃ m' : Magnitude, m.units = m'.units * 2 ^ d ∧ ofRatio s m.units (2 ^ d) = finite s m' := by
  obtain ⟨u, hu⟩ := h
  rw [Nat.mul_comm] at hu
  have hkeeps : KeepsPrecision (u * 2 ^ d) := hu ▸ m.keepsPrecision
  have hlt : u * 2 ^ d < rangeEnd := hu ▸ m.lt_rangeEnd
  let m' : Magnitude := ⟨u, hkeeps.of_mul_two_pow,
    Nat.lt_of_le_of_lt (Nat.le_mul_of_pos_right u (Nat.two_pow_pos d)) hlt⟩
  refine ⟨m', hu, ?_⟩
  have hratio : ofRatio s (u * 2 ^ d) (1 * 2 ^ d) = ofRatio s u 1 :=
    ofRatio_mul_right (Nat.two_pow_pos d)
  rw [Nat.one_mul, ← hu] at hratio
  rw [hratio]
  exact ofRatio_units s m'

/-- Within the range, a number of at most 53 significant bits divided by a power of two loses its
fraction only. -/
theorem exists_ofRatio_two_pow {n u : Nat} (h : KeepsPrecision n) (hlt : n < rangeEnd * 2 ^ u) :
    ∃ m : Magnitude, ofRatio s n (2 ^ u) = finite s m ∧ m.units = roundHalfEven n (2 ^ u) := by
  have hrange : roundHalfEven n (2 ^ u) < rangeEnd := by
    rcases Nat.lt_or_ge n (2 ^ 52 * 2 ^ u) with hsmall | hlarge
    · have hend : 2 ^ 52 < rangeEnd := Nat.pow_lt_pow_right (by decide) (by decide)
      have hle := roundHalfEven_le_succ n (2 ^ u)
      have := (Nat.div_lt_iff_lt_mul (Nat.two_pow_pos u)).2 hsmall
      omega
    · obtain ⟨q, rfl⟩ := h.two_pow_dvd (by rwa [Nat.pow_add])
      rw [Nat.mul_comm] at hlt ⊢
      rw [roundHalfEven_mul_self q (Nat.two_pow_pos u)]
      exact Nat.lt_of_mul_lt_mul_right hlt
  have hround := roundToPrecision_two_pow h u
  have hkeeps := hround ▸ keepsPrecision_roundToPrecision n (2 ^ u)
  exact ⟨⟨_, hkeeps, hrange⟩, ofRatio_eq_finite hround, rfl⟩

/-! ## One step -/

theorem powerOfTwo_eq {k : Int} (hlow : -unitPlaces ≤ k) (hhigh : k + unitPlaces < rangeBits) :
    ∃ m : Magnitude, powerOfTwo k = .finite false m ∧ m.units = 2 ^ (k + unitPlaces).toNat := by
  obtain ⟨e, he⟩ := Int.eq_ofNat_of_zero_le (show 0 ≤ k + unitPlaces by omega)
  have hkeeps := keepsPrecision_mul_two_pow (k := 1) (s := e) (by decide)
  rw [Nat.one_mul] at hkeeps
  refine ⟨⟨2 ^ e, hkeeps, Nat.pow_lt_pow_right (by decide) (by omega)⟩, ?_, by rw [he]; rfl⟩
  rw [powerOfTwo, he, Int.toNat_natCast]
  exact ofRatio_units false ⟨2 ^ e, hkeeps, _⟩

theorem mul_powerOfTwo {k : Int} (hlow : -unitPlaces ≤ k) (hhigh : k + unitPlaces < rangeBits)
    (m : Magnitude) : finite s m * powerOfTwo k =
      ofRatio s (m.units * 2 ^ (k + unitPlaces).toNat) unitsPerOne := by
  obtain ⟨p, hp, hunits⟩ := powerOfTwo_eq hlow hhigh
  rw [hp, ← hunits]
  show mul (finite s m) (finite false p) = _
  rw [mul, Bool.xor_false]

theorem mul_powerOfTwo_natCast {j : Nat} (hj : j < 1024) (m : Magnitude) :
    finite s m * powerOfTwo j = ofRatio s (m.units * 2 ^ j) 1 := by
  rw [mul_powerOfTwo (by omega) (by rw [rangeBits, unitPlaces]; omega), unitsPerOne]
  rw [show ((j : Int) + unitPlaces).toNat = j + unitPlaces by omega, Nat.pow_add, ← Nat.mul_assoc]
  conv => lhs; arg 3; rw [← Nat.one_mul (2 ^ unitPlaces)]
  rw [ofRatio_mul_right (Nat.two_pow_pos _)]

theorem mul_powerOfTwo_neg {j : Nat} (hj : j ≤ unitPlaces) (m : Magnitude) :
    finite s m * powerOfTwo (-j) = ofRatio s m.units (2 ^ j) := by
  rw [mul_powerOfTwo (by omega) (by rw [rangeBits, unitPlaces]; omega), unitsPerOne]
  conv => lhs; arg 3; rw [show unitPlaces = j + (unitPlaces - j) by omega]
  rw [show (-(j : Int) + unitPlaces).toNat = unitPlaces - j by omega, Nat.pow_add,
    ofRatio_mul_right (Nat.two_pow_pos _)]

/-! ## All steps -/

theorem scale_of_done {x : Double} {k : Int} (h : k = 0 ∨ x.isZero ∨ !x.isFinite) :
    scale x k = x := by
  rw [scale, if_pos h]

theorem scale_zero (s : Bool) (k : Int) : scale (zero s) k = zero s :=
  scale_of_done (.inr (.inl rfl))

theorem scale_finite {m : Magnitude} {k : Int} (hk : k ≠ 0) (hm : m.units ≠ 0) :
    scale (finite s m) k =
      scale (finite s m * powerOfTwo (nextStep k)) (k - nextStep k) := by
  rw [scale, if_neg]
  simp [isZero, isFinite, hk, hm]

theorem nextStep_natCast (n : Nat) : nextStep n = (min n 512 : Nat) := by
  unfold nextStep scalingStep
  omega

theorem nextStep_neg (n : Nat) : nextStep (-n) = -(min n 512 : Nat) := by
  unfold nextStep scalingStep
  omega

/-- Scaling up is exact until it leaves the range. -/
theorem scale_natCast (m : Magnitude) (n : Nat) :
    scale (finite s m) n = ofRatio s (m.units * 2 ^ n) 1 := by
  induction n using Nat.strongRecOn generalizing m with
  | ind n ih =>
  rcases Nat.eq_zero_or_pos n with rfl | hn
  · rw [Nat.pow_zero, Nat.mul_one, ofRatio_units]
    exact scale_of_done (.inl rfl)
  rcases Nat.eq_zero_or_pos m.units with hm | hm
  · rw [finite_eq_zero hm, scale_zero, hm, Nat.zero_mul, ofRatio_eq_zero (by decide)]
  rw [scale_finite (by omega) (by omega), nextStep_natCast,
    mul_powerOfTwo_natCast (by omega)]
  have hsplit : m.units * 2 ^ n = m.units * 2 ^ min n 512 * 2 ^ (n - min n 512) := by
    rw [Nat.mul_assoc, ← Nat.pow_add, Nat.add_sub_cancel' (Nat.min_le_left n 512)]
  rcases Nat.lt_or_ge (m.units * 2 ^ min n 512) rangeEnd with hlt | hge
  · let next : Magnitude := ⟨_, m.keepsPrecision.mul_two_pow _, hlt⟩
    rw [show ofRatio s (m.units * 2 ^ min n 512) 1 = finite s next from ofRatio_units s next,
      show (n : Int) - (min n 512 : Nat) = (n - min n 512 : Nat) by omega, ih _ (by omega), hsplit]
  · have hstep : rangeEnd * 1 ≤ m.units * 2 ^ min n 512 := by rwa [Nat.mul_one]
    have hinf : rangeEnd * 1 ≤ m.units * 2 ^ n := by
      rw [hsplit]
      exact Nat.le_trans hstep (Nat.le_mul_of_pos_right _ (Nat.two_pow_pos _))
    rw [ofRatio_eq_infinite Nat.one_pos hstep, ofRatio_eq_infinite Nat.one_pos hinf,
      scale_of_done (.inr (.inr rfl))]

/-- The last step down. -/
theorem scale_neg_of_le (m : Magnitude) {n : Nat} (hn : n ≤ 512) :
    scale (finite s m) (-n) = ofRatio s m.units (2 ^ n) := by
  rcases Nat.eq_zero_or_pos n with rfl | hpos
  · rw [Nat.pow_zero, ofRatio_units]
    exact scale_of_done (.inl rfl)
  rcases Nat.eq_zero_or_pos m.units with hm | hm
  · rw [finite_eq_zero hm, scale_zero, hm, ofRatio_eq_zero (Nat.two_pow_pos n)]
  rw [scale_finite (by omega) (by omega), nextStep_neg, Nat.min_eq_left hn,
    mul_powerOfTwo_neg (by rw [unitPlaces]; omega)]
  exact scale_of_done (.inl (Int.sub_self _))

/-- A full step down. -/
theorem scale_neg_of_lt (m : Magnitude) {n : Nat} (hn : 512 < n) :
    scale (finite s m) (-n) = scale (ofRatio s m.units (2 ^ 512)) (-(n - 512 : Nat)) := by
  rcases Nat.eq_zero_or_pos m.units with hm | hm
  · rw [finite_eq_zero hm, scale_zero, hm, ofRatio_eq_zero (Nat.two_pow_pos 512), scale_zero]
  rw [scale_finite (by omega) (by omega), nextStep_neg, Nat.min_eq_right (Nat.le_of_lt hn),
    mul_powerOfTwo_neg (by decide),
    show -(n : Int) - -(512 : Nat) = -(n - 512 : Nat) by omega]

/-- Scaling down rounds once where `j` full steps are exact and after one more nothing is left to
do, because the product is reached or because less than half a unit is left. -/
theorem scale_neg {j : Nat} (m : Magnitude) (n : Nat) (hdvd : 2 ^ (512 * j) ∣ m.units)
    (hlast : n ≤ 512 * (j + 1) ∨ 2 * m.units < 2 ^ (512 * (j + 1))) :
    scale (finite s m) (-n) = ofRatio s m.units (2 ^ n) := by
  induction j generalizing m n with
  | zero =>
    rcases Nat.lt_or_ge 512 n with hn | hn
    · rw [Nat.zero_add, Nat.mul_one] at hlast
      have htiny := hlast.resolve_left (Nat.not_le.2 hn)
      rw [scale_neg_of_lt m hn, ofRatio_eq_zero htiny, scale_zero,
        ofRatio_eq_zero (lt_two_pow_of_le htiny (Nat.le_of_lt hn))]
    · exact scale_neg_of_le m hn
  | succ j ih =>
    rcases Nat.lt_or_ge 512 n with hn | hn
    · rw [Nat.mul_succ, Nat.pow_add] at hdvd
      obtain ⟨next, hunits, hstep⟩ :=
        exists_ofRatio_eq (s := s) (Nat.dvd_trans (Nat.dvd_mul_left _ _) hdvd)
      have hpos := Nat.two_pow_pos 512
      rw [hunits] at hdvd hlast
      rw [scale_neg_of_lt m hn, hstep, ih next]
      · rw [hunits, ← ofRatio_mul_right hpos, ← Nat.pow_add 2 (n - 512) 512,
          Nat.sub_add_cancel (Nat.le_of_lt hn)]
      · rwa [Nat.mul_dvd_mul_iff_right hpos] at hdvd
      · refine hlast.imp (by omega) fun h => ?_
        rw [Nat.mul_succ 512 (j + 1), Nat.pow_add, ← Nat.mul_assoc] at h
        exact Nat.lt_of_mul_lt_mul_right h
    · exact scale_neg_of_le m hn

end Calculator.Double
