import Calculator.Decimal.Reading
import Calculator.Proofs.Double.Rounding

/-!
# Shortest decimals read back

* `Decimal.toDouble_eq`: a decimal is read as its exact value, rounded once.
* `Decimal.toDouble_mul_ten_pow`: zeros after the digits are read as part of the exponent.
* `ReadBack.roundToPrecision_eq`: what belongs to the interval around a number rounds to it.
* `Decimal.toDouble_shortest`: the shortest decimal of a magnitude is read as this magnitude.
* `Decimal.digits_shortest_mod_ten`: it has no zero at its end, since the search finds the coarsest
  grid that has a hit.
-/

namespace Calculator

namespace ReadBack

theorem contains_iff {i : ReadBack} {x : Nat} :
    i.contains x ↔ i.low ≤ x ∧ x ≤ i.high ∧ (x = i.low ∨ x = i.high → i.closed) := by
  unfold contains
  split
  · next h => simp [h]
  · next h => simp [h]; omega

theorem grainsPerUnit_pos : 0 < grainsPerUnit := Nat.pow_pos (by decide)

/-- What belongs to the interval around a number rounds to it. -/
theorem roundToPrecision_eq {n a : Nat} (hn : KeepsPrecision n)
    (h : (around n).contains (4 * a)) : roundToPrecision a grainsPerUnit = n := by
  obtain ⟨hlow, hhigh, hends⟩ := contains_iff.1 h
  simp only [around, Nat.sub_mul, Nat.add_mul, Nat.mul_assoc 4, decide_eq_true_eq]
    at hlow hhigh hends
  exact Calculator.roundToPrecision_eq grainsPerUnit_pos hn rfl (by omega) hhigh
    fun htie => hends (by omega)

/-- A number belongs to the interval around it. -/
theorem around_contains_self {n : Nat} (hn : n ≠ 0) :
    (around n).contains (4 * (n * grainsPerUnit)) := by
  have hstep := Nat.mul_pos (Nat.two_pow_pos (surplusBits n)) grainsPerUnit_pos
  have hpos := Nat.mul_pos (Nat.pos_of_ne_zero hn) grainsPerUnit_pos
  simp only [contains_iff, around, Nat.sub_mul, Nat.add_mul, Nat.mul_assoc]
  split
  · omega
  · rw [Nat.mul_assoc]
    omega

/-- What a grid gives belongs to the interval. -/
theorem contains_of_shortestHit {i : ReadBack} {value j d : Nat}
    (h : shortestHit i value j = some d) : i.contains (4 * (d * 10 ^ j)) := by
  unfold shortestHit at h
  dsimp only at h
  split at h
  · next hd hd' => split at h <;> cases h <;> assumption
  · next hd _ => cases h; exact hd
  · next hd => cases h; exact hd
  · cases h

/-- What the search gives belongs to the interval if the value does. -/
theorem contains_of_coarsestHit {i : ReadBack} {value : Nat} (hv : i.contains (4 * value))
    (j : Nat) : i.contains (4 * ((coarsestHit i value j).1 * 10 ^ (coarsestHit i value j).2)) := by
  induction j with
  | zero => rw [coarsestHit, Nat.pow_zero, Nat.mul_one]; exact hv
  | succ j ih =>
    unfold coarsestHit
    split
    · next d hd => exact contains_of_shortestHit hd
    · exact ih

/-! ## The coarsest grid -/

section

variable {i : ReadBack} {value j d k : Nat}

/-- A neighbour of the value that reads back is a hit. -/
theorem shortestHit_ne_none (hc : i.contains (4 * (d * 10 ^ j)))
    (hd : d = value / 10 ^ j ∨ d = value / 10 ^ j + 1) : shortestHit i value j ≠ none := by
  intro hnone
  unfold shortestHit at hnone
  dsimp only at hnone
  split at hnone
  · split at hnone <;> cases hnone
  · cases hnone
  · cases hnone
  · next hlow hhigh =>
    rcases hd with rfl | rfl
    · exact Bool.false_ne_true (hlow.symm.trans hc)
    · exact Bool.false_ne_true (hhigh.symm.trans hc)

theorem eq_of_shortestHit (h : shortestHit i value j = some d) :
    d = value / 10 ^ j ∨ d = value / 10 ^ j + 1 := by
  unfold shortestHit at h
  dsimp only at h
  split at h
  · split at h <;> cases h
    · exact .inl rfl
    · exact .inr rfl
  · cases h; exact .inl rfl
  · cases h; exact .inr rfl
  · cases h

/-- A hit with a zero at its end would be one of the next coarser grid as well. -/
theorem shortestHit_succ_ne_none (h : shortestHit i value j = some (10 * k)) :
    shortestHit i value (j + 1) ≠ none := by
  have hc := contains_of_shortestHit h
  have hdiv : value / 10 ^ (j + 1) = value / 10 ^ j / 10 := by
    rw [Nat.pow_succ, Nat.div_div_eq_div_mul]
  refine shortestHit_ne_none (d := k) ?_ ?_
  · have hfactor : 10 * k * 10 ^ j = k * 10 ^ (j + 1) := by
      rw [Nat.pow_succ]
      ac_rfl
    rwa [hfactor] at hc
  · have hd := eq_of_shortestHit h
    omega

/-- What the search gives has no zero at its end, if it starts at a grid beyond which there is no
hit. -/
theorem coarsestHit_mod_ten (hv : i.contains (4 * value))
    (htop : shortestHit i value (j + 1) = none) : (coarsestHit i value j).1 % 10 ≠ 0 := by
  induction j with
  | zero =>
    intro (hmod : value % 10 = 0)
    refine shortestHit_ne_none (d := value / 10) ?_ (.inl rfl) htop
    rwa [Nat.pow_one, Nat.div_mul_cancel (Nat.dvd_of_mod_eq_zero hmod)]
  | succ j ih =>
    unfold coarsestHit
    split
    · next d hd =>
      intro hmod
      obtain ⟨k, rfl⟩ := Nat.dvd_of_mod_eq_zero hmod
      exact shortestHit_succ_ne_none hd htop
    · next hnone => exact ih hnone

end

theorem two_pow_surplusBits_le {n : Nat} (hn : n ≠ 0) : 2 ^ surplusBits n ≤ n :=
  Nat.le_trans (Nat.pow_le_pow_right (by decide) (Nat.sub_le _ _)) (Nat.log2_self_le hn)

/-- Zero and what is at least twice the number read back as something else. -/
theorem bounds_of_contains {n x : Nat} (hn : n ≠ 0) (h : (around n).contains (4 * x)) :
    0 < x ∧ x < 2 * (n * grainsPerUnit) := by
  have hstep := two_pow_surplusBits_le hn
  have hpos := grainsPerUnit_pos
  obtain ⟨hlow, hhigh, -⟩ := contains_iff.1 h
  have hunits := Nat.mul_pos (Nat.pos_of_ne_zero hn) hpos
  have hsteps := Nat.mul_le_mul_right grainsPerUnit hstep
  simp only [around, Nat.sub_mul, Nat.add_mul, Nat.mul_assoc] at hlow hhigh
  constructor
  · split at hlow
    · omega
    · rw [Nat.mul_assoc] at hlow
      omega
  · omega

/-- Beyond the value there is no hit. -/
theorem shortestHit_around_eq_none {n j : Nat} (hn : n ≠ 0) (hj : n * grainsPerUnit < 10 ^ j) :
    shortestHit (around n) (n * grainsPerUnit) (j + 1) = none := by
  have hlt : n * grainsPerUnit < 10 ^ (j + 1) := by
    rw [Nat.pow_succ]
    omega
  rw [Option.eq_none_iff_forall_ne_some]
  intro d hd
  obtain ⟨hpos, hhigh⟩ := bounds_of_contains hn (contains_of_shortestHit hd)
  rcases eq_of_shortestHit hd with h | h
  · rw [h, Nat.div_eq_of_lt hlt, Nat.zero_mul] at hpos
    omega
  · rw [h, Nat.div_eq_of_lt hlt, Nat.zero_add, Nat.one_mul, Nat.pow_succ] at hhigh
    omega

end ReadBack

namespace Decimal

open Double

/-! ## Reading -/

theorem ten_pow_pos (k : Nat) : 0 < 10 ^ k := Nat.pow_pos (by decide)

theorem two_pow_le_ten_pow {j k : Nat} (h : j ≤ 3 * k) : 2 ^ j ≤ 10 ^ k :=
  calc 2 ^ j ≤ 2 ^ (3 * k) := Nat.pow_le_pow_right (by decide) h
    _ = 8 ^ k := Nat.pow_mul ..
    _ ≤ 10 ^ k := Nat.pow_le_pow_left (by decide) k

/-- A decimal other than zero with a huge exponent lies beyond the range. -/
theorem rangeEnd_le_of_hugeExponent {digits k : Nat} (hd : digits ≠ 0) (hk : 400 ≤ k) :
    rangeEnd ≤ digits * 10 ^ k * unitsPerOne := by
  have hten : 2 ^ (3 * k) ≤ digits * 10 ^ k :=
    Nat.le_trans (two_pow_le_ten_pow (Nat.le_refl _))
      (Nat.le_mul_of_pos_left _ (Nat.pos_of_ne_zero hd))
  calc rangeEnd ≤ 2 ^ (3 * k + unitPlaces) :=
        Nat.pow_le_pow_right (by decide) (by unfold rangeBits unitPlaces; omega)
    _ = 2 ^ (3 * k) * unitsPerOne := Nat.pow_add ..
    _ ≤ digits * 10 ^ k * unitsPerOne := Nat.mul_le_mul_right _ hten

/-- A decimal with a tiny exponent is less than half a unit of `2^-places`. -/
theorem lt_of_tinyExponent {digits k places : Nat} (hk : digits.log2 + places + 2 ≤ 3 * k) :
    2 * (digits * 2 ^ places) < 10 ^ k :=
  calc 2 * (digits * 2 ^ places) = digits * 2 ^ (places + 1) := by
        rw [Nat.pow_succ]
        ac_rfl
    _ < 2 ^ (digits.log2 + 1) * 2 ^ (places + 1) :=
      Nat.mul_lt_mul_of_pos_right Nat.lt_log2_self (Nat.two_pow_pos _)
    _ = 2 ^ (digits.log2 + 1 + (places + 1)) := (Nat.pow_add ..).symm
    _ ≤ 10 ^ k := two_pow_le_ten_pow (by omega)

/-- A decimal is read as its exact value, rounded once. Those with exponents far outside the range
are no exception. -/
theorem toDouble_eq (d : Decimal) :
    d.toDouble = ofRatio false (d.digits * 10 ^ d.exponent.toNat * unitsPerOne)
      (10 ^ (-d.exponent).toNat) := by
  unfold toDouble hugeExponent tinyExponent
  split
  · next h => rw [h, Nat.zero_mul, Nat.zero_mul, ofRatio_eq_zero (ten_pow_pos _)]
  next h0 =>
  split
  · next h =>
    have hneg : (-d.exponent).toNat = 0 := by omega
    rw [hneg, Nat.pow_zero, ofRatio_eq_infinite Nat.one_pos]
    rw [Nat.mul_one]
    exact rangeEnd_le_of_hugeExponent h0 (by omega)
  split
  · next h =>
    have hpos : d.exponent.toNat = 0 := by omega
    rw [hpos, Nat.pow_zero, Nat.mul_one, ofRatio_eq_zero]
    exact lt_of_tinyExponent (by unfold unitPlaces; omega)
  split
  · next h =>
    have hneg : (-d.exponent).toNat = 0 := by omega
    rw [hneg, Nat.pow_zero]
  · next h =>
    have hpos : d.exponent.toNat = 0 := by omega
    rw [hpos, Nat.pow_zero, Nat.mul_one]

/-- A number of digits with zeros after them, and the exponent less by as many, is read alike. -/
theorem toDouble_mul_ten_pow (n k : Nat) (e : Int) :
    toDouble ⟨n * 10 ^ k, e - k⟩ = toDouble ⟨n, e⟩ := by
  rw [toDouble_eq, toDouble_eq]
  refine ofRatio_eq_of_mul_eq (ten_pow_pos _) (ten_pow_pos _) ?_
  generalize unitsPerOne = units
  have hexp : k + (e - k).toNat + (-e).toNat = e.toNat + (-(e - k)).toNat := by omega
  calc n * 10 ^ k * 10 ^ (e - k).toNat * units * 10 ^ (-e).toNat
      = n * 10 ^ (k + (e - k).toNat + (-e).toNat) * units := by
        rw [Nat.pow_add, Nat.pow_add]
        ac_rfl
    _ = n * 10 ^ e.toNat * units * 10 ^ (-(e - k)).toNat := by
        rw [hexp, Nat.pow_add]
        ac_rfl

/-- A decimal on the grid of `10^j` grains, as a ratio of grains. -/
theorem toDouble_grid (n j : Nat) :
    toDouble ⟨n, j - unitPlaces⟩ = ofRatio false (n * 10 ^ j) grainsPerUnit := by
  rw [toDouble_eq]
  refine ofRatio_eq_of_mul_eq (ten_pow_pos _) ReadBack.grainsPerUnit_pos ?_
  rw [unitsPerOne, grainsPerUnit]
  generalize unitPlaces = places
  have hten : 2 ^ places * 5 ^ places = 10 ^ places := (Nat.mul_pow 2 5 places).symm
  have hexp : (j - places : Int).toNat + places = j + (-(j - places : Int)).toNat := by omega
  rw [Nat.mul_assoc, hten, Nat.mul_assoc, ← Nat.pow_add, hexp, Nat.pow_add, Nat.mul_assoc]

/-- **The shortest decimal reads back.** The shortest decimal of a magnitude is read as this
magnitude. -/
theorem toDouble_shortest (m : Magnitude) : (shortest m.units).toDouble = .finite false m := by
  unfold shortest
  split
  · next h =>
    obtain ⟨units, hk, hlt⟩ := m
    subst h
    rfl
  · next h =>
    dsimp only
    rw [toDouble_grid]
    have hself := ReadBack.around_contains_self h
    have hhit := ReadBack.contains_of_coarsestHit hself ((m.units * grainsPerUnit).log2 / 3 + 1)
    exact ofRatio_eq_finite (ReadBack.roundToPrecision_eq m.keepsPrecision hhit)

/-- The digits of the shortest decimal of a number other than zero have no zero at their end. -/
theorem digits_shortest_mod_ten {n : Nat} (hn : n ≠ 0) : (shortest n).digits % 10 ≠ 0 := by
  obtain ⟨digits, e, heq, hdigits⟩ : ∃ digits e, shortest n = ⟨digits, e⟩ ∧ digits % 10 ≠ 0 := by
    refine ⟨_, _, if_neg hn, ?_⟩
    refine ReadBack.coarsestHit_mod_ten (ReadBack.around_contains_self hn)
      (ReadBack.shortestHit_around_eq_none hn ?_)
    generalize n * grainsPerUnit = value
    calc value < 2 ^ (value.log2 + 1) := Nat.lt_log2_self
      _ ≤ 10 ^ (value.log2 / 3 + 1) := two_pow_le_ten_pow (by omega)
  rw [heq]
  exact hdigits

end Decimal

end Calculator
