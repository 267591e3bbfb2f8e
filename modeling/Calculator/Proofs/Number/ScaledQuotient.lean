import Calculator.Proofs.Double.Nearest
import Calculator.Proofs.Double.Scaling
import Calculator.Proofs.Number.Integers

/-!
# The scaled quotient

The integer quotient of the shifted operands has 64 or 65 bits, so that a remainder recorded in its
lowest bit is felt by the rounding to 53 bits as the remainder itself would be. Scaling back rounds
once more, in its last step.

* `quotient_bounds`: the bits of the integer quotient.
* `exists_ofInt_sticky`: the quotient with its remainder recorded is the rounded ratio.
* `scaledQuotient_eq`: the two roundings of the scaled quotient.
* `exists_scaledQuotient_eq`: the scaled quotient in terms of the exact one.
-/

namespace Calculator

namespace Double

theorem ofInt_eq (n : Int) : ofInt n = ofRatio (n < 0) (n.natAbs * unitsPerOne) 1 := by
  have hunits : 0 < unitsPerOne := Nat.two_pow_pos unitPlaces
  unfold ofInt ofUnits
  split
  · next h =>
    obtain rfl : n = 0 := (Int.mul_eq_zero.1 h).resolve_right (by omega)
    rw [Int.natAbs_zero, Nat.zero_mul, ofRatio_eq_zero (by decide)]
    rfl
  · rw [Int.natAbs_mul, Int.natAbs_natCast]
    congr 1
    rw [decide_eq_decide, Int.mul_neg_iff]
    omega

theorem ofInt_zero : ofInt 0 = zero false := by
  rw [ofInt, Int.zero_mul]
  rfl

end Double

namespace Number

/-! ## The scaled quotient -/

theorem lt_two_pow_bitLength (n : Nat) : n < 2 ^ bitLength n :=
  bitLength_le_iff.1 (Nat.le_refl (bitLength n))

theorem two_pow_le_of_bitLength {n k : Nat} (h : bitLength n = k + 1) : 2 ^ k ≤ n :=
  lt_bitLength_iff.1 (by omega : k < bitLength n)

theorem exists_bitLength_eq {n : Nat} (hn : 0 < n) : ∃ k, bitLength n = k + 1 := by
  have hpos : 0 < bitLength n := lt_bitLength_iff.2 (by simpa [Nat.one_le_iff_ne_zero] using hn.ne')
  exact ⟨bitLength n - 1, by omega⟩

theorem bitLength_mul_two_pow {n : Nat} (hn : 0 < n) (u : Nat) :
    bitLength (n * 2 ^ u : Nat) = bitLength n + u := by
  obtain ⟨k, hk⟩ := exists_bitLength_eq hn
  refine Nat.le_antisymm (bitLength_le_iff.2 ?_) ?_
  · rw [Int.natAbs_natCast, Nat.pow_add]
    exact Nat.mul_lt_mul_of_pos_right (lt_two_pow_bitLength n) (Nat.two_pow_pos u)
  · rw [hk, Nat.add_right_comm]
    refine lt_bitLength_iff.2 ?_
    rw [Int.natAbs_natCast, Nat.pow_add]
    exact Nat.mul_le_mul_right _ (two_pow_le_of_bitLength hk)

/-- A quotient has as many bits as its dividend has more than its divisor, or one more. -/
theorem quotient_bounds {n d k : Nat} (hd : 0 < d) (hbits : bitLength n = bitLength d + (k + 1)) :
    2 ^ k ≤ n / d ∧ n / d < 2 ^ (k + 2) := by
  obtain ⟨j, hj⟩ := exists_bitLength_eq hd
  constructor
  · rw [Nat.le_div_iff_mul_le hd]
    have hlow : 2 ^ (k + bitLength d) ≤ n := two_pow_le_of_bitLength (by omega)
    refine Nat.le_trans ?_ hlow
    rw [Nat.pow_add]
    exact Nat.mul_le_mul_left _ (Nat.le_of_lt (lt_two_pow_bitLength d))
  · rw [Nat.div_lt_iff_lt_mul hd]
    refine Nat.lt_of_lt_of_le (lt_two_pow_bitLength n) ?_
    rw [hbits, hj, show j + 1 + (k + 1) = k + 2 + j by omega, Nat.pow_add]
    exact Nat.mul_le_mul_left _ (two_pow_le_of_bitLength hj)

/-- The quotient with its remainder recorded, as a float. -/
theorem exists_ofInt_sticky {n d : Nat} (hd : 0 < d) (hlow : 2 ^ 54 ≤ n / d)
    (hhigh : n / d < 2 ^ 65) :
    ∃ m : Magnitude, m.units = roundToPrecision n d * 2 ^ unitPlaces ∧
      Double.ofInt (if n % d = 0 then n / d else n / d ||| 1 : Nat) = .finite false m := by
  have hkeeps := (keepsPrecision_roundToPrecision n d).mul_two_pow unitPlaces
  have hlt : roundToPrecision n d * 2 ^ unitPlaces < rangeEnd := by
    refine Nat.lt_of_le_of_lt (Nat.mul_le_mul_right _ (roundToPrecision_le hhigh (by decide))) ?_
    rw [← Nat.pow_add]
    exact Nat.pow_lt_pow_right (by decide) (by decide)
  refine ⟨⟨_, hkeeps, hlt⟩, rfl, ?_⟩
  have hsticky : 2 ^ 52 ≤ (if n % d = 0 then n / d else n / d ||| 1) / 1 := by
    rw [Nat.div_one]
    split
    · omega
    · have := or_one_eq (n / d)
      omega
  rw [Double.ofInt_eq, decide_eq_false (by omega), Int.natAbs_natCast, Double.unitsPerOne]
  exact Double.ofRatio_eq_finite (by
    rw [roundToPrecision_mul_two_pow Nat.one_pos hsticky, roundToPrecision_sticky hd hlow])

/-- **What the scaled quotient comes to.** The ratio is rounded to 53 significant bits first, with
the dividend or the divisor shifted, and then to units. -/
theorem scaledQuotient_eq {a b : Nat} (ha : 0 < a) (hb : 0 < b) :
    ∃ up down : Nat, 2 ^ 52 ≤ a * 2 ^ up / (b * 2 ^ down) ∧
      scaledQuotient a b = Double.ofRatio false
        (roundToPrecision (a * 2 ^ up) (b * 2 ^ down) * 2 ^ (unitPlaces + down)) (2 ^ up) := by
  obtain ⟨up, hup⟩ : ∃ up, up = bitLength b + quotientPrecision - bitLength a := ⟨_, rfl⟩
  obtain ⟨down, hdown⟩ : ∃ down, down = bitLength a - (bitLength b + quotientPrecision) := ⟨_, rfl⟩
  have hd : 0 < b * 2 ^ down := Nat.mul_pos hb (Nat.two_pow_pos down)
  obtain ⟨hlow, hhigh⟩ := quotient_bounds (n := a * 2 ^ up) (k := 63) hd (by
    rw [bitLength_mul_two_pow ha, bitLength_mul_two_pow hb]
    unfold quotientPrecision at hup hdown
    omega)
  obtain ⟨m, hunits, hm⟩ := exists_ofInt_sticky hd (by omega) hhigh
  refine ⟨up, down, by omega, ?_⟩
  have hscaled : scaledQuotient a b = (Double.finite false m).scale ((down : Int) - up) := by
    rw [← hm, hup, hdown]
    rfl
  rw [hscaled, Nat.pow_add, ← Nat.mul_assoc, ← hunits]
  -- Only one of the two is shifted.
  rcases (by omega : up = 0 ∨ down = 0) with h0 | h0
  · rw [h0, Int.natCast_zero, Int.sub_zero, Double.scale_natCast, Nat.pow_zero]
  · rw [h0, Int.natCast_zero, Int.zero_sub, Double.scale_neg (j := 2), Nat.pow_zero, Nat.mul_one]
    · have hle : 512 * 2 ≤ unitPlaces := by decide
      rw [hunits]
      exact Nat.dvd_mul_left_of_dvd (Nat.pow_dvd_pow 2 hle) _
    · right
      have hround := roundToPrecision_le hhigh (by decide)
      calc 2 * m.units ≤ 2 * (2 ^ 65 * 2 ^ unitPlaces) := by
            rw [hunits]
            exact Nat.mul_le_mul_left 2 (Nat.mul_le_mul_right _ hround)
        _ = 2 ^ (66 + unitPlaces) := by
            rw [← Nat.pow_add, Nat.mul_comm, ← Nat.pow_succ]
            congr 1
        _ < 2 ^ (512 * (2 + 1)) := Nat.pow_lt_pow_right (by decide) (by decide)

/-! ## The scaled quotient as a rational number -/

theorem scaledQuotient_zero (b : Nat) : scaledQuotient 0 b = .zero false := by
  simp only [scaledQuotient, Nat.zero_mul, Nat.zero_mod, Nat.zero_div, if_true, Int.natCast_zero,
    Double.ofInt_zero, Double.scale_zero]

theorem two_pow_le_div {a b k : Nat} (hb : 0 < b) (h : 2 ^ k ≤ a / b) : (2 ^ k : ℚ) ≤ a / b := by
  rw [le_div_iff₀ (Nat.cast_pos.2 hb)]
  exact_mod_cast (Nat.le_div_iff_mul_le hb).1 h

/-- The scaled quotient is the quotient rounded to 53 significant bits, over a power of two that
counts it in units. -/
theorem exists_scaledQuotient_eq (a : Nat) {b : Nat} (hb : 0 < b) :
    ∃ n u : Nat, KeepsPrecision n ∧ scaledQuotient a b = Double.ofRatio false n (2 ^ u) ∧
      (n : ℚ) = roundSignificant (a / b) * 2 ^ unitPlaces * 2 ^ u := by
  rcases Nat.eq_zero_or_pos a with rfl | ha
  · refine ⟨0, 0, by decide, ?_, ?_⟩
    · rw [scaledQuotient_zero, Double.ofRatio_eq_zero (by decide)]
    · simp
  obtain ⟨up, down, hlow, hscaled⟩ := scaledQuotient_eq ha hb
  have hd : 0 < b * 2 ^ down := Nat.mul_pos hb (Nat.two_pow_pos down)
  refine ⟨_, up, (keepsPrecision_roundToPrecision _ _).mul_two_pow _, hscaled, ?_⟩
  have hshift : ((a * 2 ^ up : Nat) / (b * 2 ^ down : Nat) : ℚ) =
      a / b * 2 ^ ((up : ℤ) - down) := by
    rw [zpow_sub₀ two_ne_zero, zpow_natCast, zpow_natCast]
    push_cast
    field_simp
  have hround : (roundToPrecision (a * 2 ^ up) (b * 2 ^ down) : ℚ) =
      roundSignificant (a / b) * 2 ^ ((up : ℤ) - down) := by
    rw [natCast_roundToPrecision _ hd, roundUnits_of_le (two_pow_le_div hd hlow), hshift,
      roundSignificant_mul_zpow (by positivity)]
  rw [Nat.cast_mul, hround, zpow_sub₀ two_ne_zero, zpow_natCast, zpow_natCast, Nat.pow_add]
  push_cast
  field_simp

end Number

end Calculator
