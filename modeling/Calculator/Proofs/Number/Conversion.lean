import Calculator.Number.Basic
import Calculator.Proofs.Double.Operations

/-!
# Integers that are too large for floats

An integer becomes a float by its leading bits, with those cut off recorded in the lowest bit kept.
Whether it is too large is decided by the integer itself: it is from the point on that lies halfway
between the greatest finite float and `2^1024`.

* `leadingPart_lt_iff`: the leading bits stay on their side of a number that ends in enough zeros.
* `Double.isFinite_ofOperand_iff`: the integers that become finite floats.
* `Number.IsTooLarge`, `Number.toDouble_of_isTooLarge`, `Number.exists_toDouble`: the numbers that
  cannot become floats, and those that can.
-/

namespace Calculator

/-! ## The leading bits -/

/-- Recording what is cut off does not lead past a number whose bits below the leading ones, and one
bit more, are zero. -/
theorem leadingPart_lt_iff {n t : ℕ} (ht : 2 ^ (bitsBelowLeading n + 1) ∣ t) :
    leadingPart n < t ↔ n < t := by
  obtain ⟨k, rfl⟩ := ht
  unfold leadingPart
  split
  · rfl
  have hpow := Nat.two_pow_pos (bitsBelowLeading n)
  have hsplit : 2 ^ (bitsBelowLeading n + 1) * k = 2 * k * 2 ^ bitsBelowLeading n := by
    rw [Nat.pow_succ]
    ac_rfl
  rw [hsplit, Nat.mul_lt_mul_right hpow, ← Nat.div_lt_iff_lt_mul hpow]
  unfold leadingBits
  dsimp only
  generalize n / 2 ^ bitsBelowLeading n = leading
  split
  · rw [or_one_eq]
    omega
  · rfl

theorem two_pow_log2_le_leadingPart {n : ℕ} (hn : n ≠ 0) : 2 ^ n.log2 ≤ leadingPart n := by
  have hself : 2 ^ n.log2 ≤ n := Nat.log2_self_le hn
  unfold leadingPart
  split
  · exact hself
  have hle : bitsBelowLeading n ≤ n.log2 := by
    unfold bitsBelowLeading wordBits
    omega
  have hsplit : 2 ^ n.log2 = 2 ^ (n.log2 - bitsBelowLeading n) * 2 ^ bitsBelowLeading n := by
    rw [← Nat.pow_add, Nat.sub_add_cancel hle]
  rw [hsplit] at hself ⊢
  refine Nat.mul_le_mul_right _ ?_
  rw [← Nat.le_div_iff_mul_le (Nat.two_pow_pos _)] at hself
  unfold leadingBits
  dsimp only
  split
  · exact Nat.le_trans hself Nat.left_le_or
  · exact hself

/-- So it is for 54 set bits with zeros after them. -/
theorem leadingPart_lt_setBits_iff {n p : ℕ} (hp : 0 < p) :
    leadingPart n < (2 ^ 54 - 1) * 2 ^ p ↔ n < (2 ^ 54 - 1) * 2 ^ p := by
  rcases Nat.lt_or_ge n.log2 (54 + p) with hlt | hge
  · have hle : bitsBelowLeading n + 1 ≤ p := by
      unfold bitsBelowLeading wordBits
      omega
    exact leadingPart_lt_iff (Nat.dvd_mul_left_of_dvd (Nat.pow_dvd_pow 2 hle) _)
  · have hn : n ≠ 0 := by
      rintro rfl
      exact absurd hge (by rw [Nat.log2_zero]; omega)
    have hpow : (2 ^ 54 - 1) * 2 ^ p ≤ 2 ^ n.log2 :=
      calc (2 ^ 54 - 1) * 2 ^ p ≤ 2 ^ 54 * 2 ^ p := Nat.mul_le_mul_right _ (by decide)
        _ = 2 ^ (54 + p) := (Nat.pow_add ..).symm
        _ ≤ 2 ^ n.log2 := Nat.pow_le_pow_right Nat.two_pos hge
    exact iff_of_false
      (Nat.not_lt.2 (Nat.le_trans hpow (two_pow_log2_le_leadingPart hn)))
      (Nat.not_lt.2 (Nat.le_trans hpow (Nat.log2_self_le hn)))

namespace Double

theorem IsNearest.isFinite_iff {x : Double} {q : ℚ} (h : x.IsNearest q) :
    x.isFinite ↔ |q| < overflowBound := by
  cases h with
  | finite hlt => exact iff_of_true rfl hlt
  | infinite hle => exact iff_of_false Bool.false_ne_true hle.not_gt

/-- The point from which on numbers are too large has 54 set bits before its zeros. -/
theorem exists_overflowBound_eq :
    ∃ p : ℕ, 0 < p ∧ overflowBound = ((2 ^ 54 - 1) * 2 ^ p : ℕ) := by
  obtain ⟨p, hp⟩ : ∃ p, 970 = p := ⟨_, rfl⟩
  have hsplit : (2 : ℚ) ^ 1024 = 2 ^ 54 * 2 ^ 970 := pow_add 2 54 970
  refine ⟨p, by omega, ?_⟩
  rw [overflowBound, hsplit, hp]
  push_cast
  ring

/-- **Which integers become finite floats**: those below the point where floats end, whatever the
bits recorded for those cut off. -/
theorem isFinite_ofOperand_iff (n : ℤ) :
    (ofOperand n).isFinite ↔ |(n : ℚ)| < overflowBound := by
  obtain ⟨p, hp, hbound⟩ := exists_overflowBound_eq
  rw [ofOperand, (isNearest_ofInt _).isFinite_iff, ← Int.cast_abs, abs_signed, Int.cast_natCast,
    ← Int.cast_abs, ← Nat.cast_natAbs, hbound, Nat.cast_lt, Nat.cast_lt,
    leadingPart_lt_setBits_iff hp]

end Double

/-! ## Numbers as floats -/

namespace Number

/-- An integer that is too large for a float. -/
def IsTooLarge : Number → Prop
  | .integer n => 2 ^ 1024 - 2 ^ 970 ≤ |(n : ℚ)|
  | .float _ => False

variable {x : Number}

theorem toDouble_of_isTooLarge (h : x.IsTooLarge) :
    x.toDouble = .error .integerTooLargeForFloat := by
  cases x with
  | integer n => exact if_neg (mt (Double.isFinite_ofOperand_iff n).1 (not_lt.2 h))
  | float a => cases h

theorem exists_toDouble (h : ¬x.IsTooLarge) : ∃ a, x.toDouble = .ok a := by
  cases x with
  | integer n => exact ⟨_, if_pos ((Double.isFinite_ofOperand_iff n).2 (not_le.1 h))⟩
  | float a => exact ⟨a, rfl⟩

end Number

end Calculator
