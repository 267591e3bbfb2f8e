import Calculator.Proofs.Number.Integers

/-!
# The size of integer powers

An integer power is refused by an estimate of its size, its base's bit length times its exponent.
The power itself has at most that many bits, and more than half of them.

* `bitLength_pow_le`, `lt_bitLength_pow`: the bits of a power, from both sides.
* `powIntegers_eq`: a power is exact, or refused for the estimate.
* `pow_integers`: which powers are computed, what they are and how large they get.
* `pow_refused_by_bits`: what the refusals are in terms of the bits of the power itself.
-/

namespace Calculator.Number

/-! ## Bits of a power -/

/-- A power has no more bits than its base's bits times its exponent. -/
theorem bitLength_pow_le (b : Int) {e : Nat} (he : e ≠ 0) :
    bitLength (b ^ e) ≤ bitLength b * e := by
  rw [bitLength_le_iff, Int.natAbs_pow, Nat.pow_mul]
  exact Nat.pow_lt_pow_left (bitLength_le_iff.1 (Nat.le_refl _)) he

/-- A power has more bits than its base's bits, less one, times its exponent. -/
theorem lt_bitLength_pow {b : Int} (hb : b ≠ 0) (e : Nat) :
    (bitLength b - 1) * e < bitLength (b ^ e) := by
  have hpos : 0 < bitLength b := lt_bitLength_iff.2 (by omega)
  have hbase : 2 ^ (bitLength b - 1) ≤ b.natAbs := lt_bitLength_iff.1 (by omega)
  rw [lt_bitLength_iff, Int.natAbs_pow, Nat.pow_mul]
  exact Nat.pow_le_pow_left hbase e

theorem bitLength_two_pow (k : Nat) : bitLength (2 ^ k) = k + 1 := by
  have habs : ((2 : Int) ^ k).natAbs = 2 ^ k := Int.natAbs_pow 2 k
  refine Nat.le_antisymm (bitLength_le_iff.2 ?_) (lt_bitLength_iff.2 (Nat.le_of_eq habs.symm))
  rw [habs]
  exact Nat.pow_lt_pow_right (by decide) (Nat.lt_succ_self k)

/-- A power of a base of two bits or more has more than half as many bits as estimated. -/
theorem mul_add_two_le_bitLength_pow {b : Int} (hb : 2 ≤ b.natAbs) (e : Nat) :
    bitLength b * e + 2 ≤ 2 * bitLength (b ^ e) := by
  have hbits := two_le_bitLength hb
  have hpow := lt_bitLength_pow (b := b) (by omega) e
  calc bitLength b * e + 2 ≤ 2 * (bitLength b - 1) * e + 2 :=
      Nat.add_le_add_right (Nat.mul_le_mul_right e (by omega)) 2
    _ = 2 * ((bitLength b - 1) * e + 1) := by rw [Nat.mul_add, Nat.mul_assoc]
    _ ≤ 2 * bitLength (b ^ e) := Nat.mul_le_mul_left 2 hpow

/-! ## Which powers are computed -/

/-- A power is exact or refused, and refused only for the estimate of its size. -/
theorem powIntegers_eq (b : Int) (e : Nat) :
    powIntegers b e =
      if b.natAbs ≤ 1 ∨ e = 0 ∨ bitLength b * e ≤ maxPowerBits then .ok (.integer (b ^ e))
      else .error .integerPowerTooLarge := by
  rcases Nat.lt_or_ge b.natAbs 2 with hb | hb
  · rw [powIntegers_of_natAbs_lt hb, if_pos (.inl (by omega))]
  rw [powIntegers_of_le_natAbs hb]
  obtain rfl | he := eq_or_ne e 0
  · simp
  · simp only [show ¬b.natAbs ≤ 1 by omega, he, false_or, ← Nat.not_lt, ite_not]

/-- The power of a base of two bits or more is computed as far as the estimate allows. -/
theorem powIntegers_eq_ok_iff {b : Int} (hb : 2 ≤ b.natAbs) {e : Nat} {v : Number} :
    powIntegers b e = .ok v ↔ bitLength b * e ≤ maxPowerBits ∧ v = .integer (b ^ e) := by
  rw [powIntegers_of_le_natAbs hb]
  split
  · next h => simp [Nat.not_le.2 h]
  · next h => simp [Nat.not_lt.1 h, eq_comm]

/-- Within the estimate a power has no more bits than allowed. -/
theorem bitLength_pow_le_of_le {b : Int} {e : Nat} (h : bitLength b * e ≤ maxPowerBits) :
    bitLength (b ^ e) ≤ maxPowerBits := by
  obtain rfl | he := eq_or_ne e 0
  · rw [pow_zero]
    decide
  · exact Nat.le_trans (bitLength_pow_le b he) h

/-- **Which integer powers are computed.** The estimate decides, whatever the size of the exponent:
neither counting it in a word nor the bound on the exponent changes what it decides. -/
theorem pow_integers (b : Int) (e : Nat) :
    pow (.integer b) (.integer e) =
        (if b.natAbs ≤ 1 ∨ e = 0 ∨ bitLength b * e ≤ 1000000 then .ok (.integer (b ^ e))
        else .error .integerPowerTooLarge) ∧
      (2 ≤ b.natAbs → ∀ v, pow (.integer b) (.integer e) = .ok v →
        ∃ n, v = .integer n ∧ bitLength n ≤ 1000000) ∧
      (2 ≤ b.natAbs → (maxPowerBits < powerSize b e ↔ 1000000 < bitLength b * e)) ∧
      (2 ≤ b.natAbs → powerSize b e ≤ maxPowerBits → e ≤ greatestExponent) := by
  have hpow : pow (.integer b) (.integer e) = powIntegers b e := rfl
  rw [hpow]
  refine ⟨powIntegers_eq b e, fun hb v hv => ?_, fun hb => ?_, fun hb => ?_⟩
  · obtain ⟨hsize, rfl⟩ := (powIntegers_eq_ok_iff hb).1 hv
    exact ⟨_, rfl, bitLength_pow_le_of_le hsize⟩
  · exact maxPowerBits_lt_powerSize_iff (by have := two_le_bitLength hb; omega) e
  · exact le_greatestExponent (by have := two_le_bitLength hb; omega)

/-! ## Refusal by the bits of the power -/

/-- What needs too many bits is refused. -/
theorem powIntegers_of_lt_bitLength_pow {b : Int} {e : Nat}
    (h : maxPowerBits < bitLength (b ^ e)) : powIntegers b e = .error .integerPowerTooLarge := by
  rw [powIntegers_eq, if_neg ?_]
  rintro (hb | rfl | hsize)
  · have hone : bitLength (b ^ e) ≤ 1 := by
      rw [bitLength_le_iff, Int.natAbs_pow]
      exact Nat.lt_of_le_of_lt (Nat.pow_le_pow_left hb e) (by rw [Nat.one_pow]; decide)
    exact absurd (Nat.lt_of_lt_of_le h hone) (by decide)
  · exact absurd h (by rw [pow_zero]; decide)
  · exact Nat.not_lt.2 (bitLength_pow_le_of_le hsize) h

/-- What needs about half of the bits allowed, or fewer, is computed. -/
theorem powIntegers_of_bitLength_pow_le {b : Int} {e : Nat}
    (h : 2 * bitLength (b ^ e) ≤ maxPowerBits + 2) : powIntegers b e = .ok (.integer (b ^ e)) := by
  rw [powIntegers_eq, if_pos ?_]
  rcases Nat.lt_or_ge b.natAbs 2 with hb | hb
  · exact .inl (by omega)
  · have hsize := mul_add_two_le_bitLength_pow hb e
    exact .inr (.inr (by omega))

/-- **What the estimate makes of the bits of a power.** A power of more than a million bits is
always refused and one of half a million always computed. The refusals are those of the powers with
more than a million bits, unless the estimate of a smaller power is more than a million. -/
theorem pow_refused_by_bits (b : Int) (e : Nat) :
    (1000000 < bitLength (b ^ e) →
        pow (.integer b) (.integer e) = .error .integerPowerTooLarge) ∧
      (bitLength (b ^ e) ≤ 500001 → pow (.integer b) (.integer e) = .ok (.integer (b ^ e))) ∧
      ((pow (.integer b) (.integer e) = .error .integerPowerTooLarge ↔
          1000000 < bitLength (b ^ e)) ↔
        (2 ≤ b.natAbs → bitLength (b ^ e) ≤ 1000000 → bitLength b * e ≤ 1000000)) := by
  have hpow : pow (.integer b) (.integer e) = powIntegers b e := rfl
  rw [hpow]
  refine ⟨powIntegers_of_lt_bitLength_pow, fun h => powIntegers_of_bitLength_pow_le ?_, ?_⟩
  · exact Nat.le_trans (Nat.mul_le_mul_left 2 h) (by decide)
  rcases Nat.lt_or_ge 1000000 (bitLength (b ^ e)) with hlarge | hsmall
  · simp [powIntegers_of_lt_bitLength_pow hlarge, hlarge, Nat.not_le.2 hlarge]
  rw [iff_false_right (Nat.not_lt.2 hsmall)]
  rcases Nat.lt_or_ge b.natAbs 2 with hb | hb
  · simp [powIntegers_of_natAbs_lt hb, Nat.not_le.2 hb]
  · rw [powIntegers_of_le_natAbs hb]
    split
    · next hsize => exact iff_of_false (fun h => h rfl) fun h => Nat.not_le.2 hsize (h hb hsmall)
    · next hsize => exact iff_of_true nofun fun _ _ => Nat.not_lt.1 hsize

/-- A power of two that needs half of the bits allowed is refused. -/
theorem pow_refused_half_million :
    pow (.integer 2) (.integer 500001) = .error .integerPowerTooLarge ∧
      bitLength (2 ^ 500001) = 500002 := by
  have hpow : pow (.integer 2) (.integer 500001) = powIntegers 2 500001 := rfl
  rw [hpow, powIntegers_of_le_natAbs (by decide), if_pos (by decide)]
  exact ⟨rfl, bitLength_two_pow 500001⟩

end Calculator.Number
