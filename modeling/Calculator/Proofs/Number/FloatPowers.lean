import Calculator.Proofs.Double.Power
import Calculator.Proofs.Number.Agreement
import Calculator.Proofs.Number.Conversion

/-!
# When powers of floats fail

A power is one of floats unless both operands are integers and the exponent is not negative. Its
faults exclude one another, and what finite operands give is finite or a fault.

* `Double.ZeroToNegative`, `Double.NegativeToFraction`: the operands without a power.
* `Number.PowerOutcome`, `Number.powerOutcome_powFloats`: what a power of floats can be.
* `Number.pow_of_not_integers`: the operands become floats first.
* `Number.pow_floats_fails_iff`: when a power of floats fails, and what it is otherwise.
-/

namespace Calculator

namespace Double

/-- Zero, of either sign, to a power below zero, minus infinity included. -/
def ZeroToNegative (x y : Double) : Prop :=
  (∃ s, x = zero s) ∧ (y = .infinite true ∨ y.isFinite ∧ y.toRat < 0)

/-- A negative number to a power that is not an integer, both finite. -/
def NegativeToFraction (x y : Double) : Prop :=
  x.isFinite ∧ x.toRat < 0 ∧ y.isFinite ∧ ∀ k : ℤ, y.toRat ≠ k

variable {x y : Double}

theorem zeroToNegative_iff : x.ZeroToNegative y ↔ x.isZero ∧ y.isBelowZero := by
  rw [ZeroToNegative, isZero_iff_exists, isBelowZero_iff_or]

theorem negativeToFraction_iff : x.NegativeToFraction y ↔
    x.isFinite ∧ x.isBelowZero ∧ y.isFinite ∧ ¬y.isIntegral := by
  unfold NegativeToFraction
  by_cases hx : x.isFinite
  · by_cases hy : y.isFinite
    · rw [isBelowZero_iff hx, isIntegral_iff hy, not_exists]
    · simp [hy]
  · simp [hx]

theorem ZeroToNegative.not_negativeToFraction (h : x.ZeroToNegative y) :
    ¬x.NegativeToFraction y := by
  obtain ⟨⟨s, rfl⟩, -⟩ := h
  rintro ⟨-, hneg, -⟩
  rw [toRat_zero] at hneg
  exact lt_irrefl 0 hneg

/-- With a base of one or an exponent of zero nothing is wrong. -/
theorem not_faulty_of_trivial (h : y.isZero ∨ x.equal one) :
    ¬x.ZeroToNegative y ∧ ¬x.NegativeToFraction y := by
  rcases h with h | h
  · obtain ⟨s, rfl⟩ := isZero_iff_exists.1 h
    refine ⟨fun ⟨_, hneg⟩ => ?_, fun ⟨_, _, _, hfraction⟩ => ?_⟩
    · rcases hneg with ⟨⟨⟩⟩ | ⟨-, hneg⟩
      rw [toRat_zero] at hneg
      exact lt_irrefl 0 hneg
    · exact hfraction 0 ((toRat_zero s).trans Int.cast_zero.symm)
  · obtain ⟨-, hvalue⟩ := equal_one_iff.1 h
    refine ⟨fun ⟨⟨s, hs⟩, _⟩ => ?_, fun ⟨_, hneg, _⟩ => ?_⟩
    · rw [hs, toRat_zero] at hvalue
      exact zero_ne_one hvalue
    · rw [hvalue] at hneg
      exact absurd hneg (by norm_num)

end Double

namespace Number

open Double

/-- What a power of floats can be. -/
inductive PowerOutcome (a b : Double) : ArithmeticResult → Prop
  | zeroToNegative (h : a.ZeroToNegative b) : PowerOutcome a b (.error .zeroToNegativePower)
  | complex (h : a.NegativeToFraction b) : PowerOutcome a b (.error .complexResult)
  | outOfRange (hzero : ¬a.ZeroToNegative b) (hnegative : ¬a.NegativeToFraction b)
      (ha : a.isFinite) (hb : b.isFinite) (hpower : (a.pow b).isInfinite) :
      PowerOutcome a b (.error .floatPowerOutOfRange)
  | power (hzero : ¬a.ZeroToNegative b) (hnegative : ¬a.NegativeToFraction b)
      (hrange : a.isFinite → b.isFinite → ¬(a.pow b).isInfinite) :
      PowerOutcome a b (.ok (.float (a.pow b)))

theorem powerOutcome_powFloats (a b : Double) : PowerOutcome a b (powFloats a b) := by
  unfold powFloats
  split
  · next h =>
    have htrivial : b.isZero ∨ a.equal one := by simpa using h
    obtain ⟨hzero, hnegative⟩ := not_faulty_of_trivial htrivial
    rw [← pow_of_trivial htrivial]
    exact .power hzero hnegative fun _ _ => not_isInfinite_pow_of_trivial htrivial
  split
  · next h => exact .zeroToNegative (zeroToNegative_iff.2 (by simpa using h))
  next hzero =>
  rw [Bool.and_eq_true, ← zeroToNegative_iff] at hzero
  split
  · next h => exact .complex (negativeToFraction_iff.2 (by simpa [and_assoc] using h))
  next hnegative =>
  have hnegative : ¬a.NegativeToFraction b := by
    rw [negativeToFraction_iff]
    simpa [and_assoc] using hnegative
  dsimp only
  split
  · next h =>
    simp only [Bool.and_eq_true, and_assoc] at h
    exact .outOfRange hzero hnegative h.2.1 h.2.2 h.1
  · next h =>
    refine .power hzero hnegative fun ha hb hpower => h ?_
    rw [hpower, ha, hb]
    rfl

namespace PowerOutcome

variable {a b : Double} {r : ArithmeticResult}

theorem eq_zeroToNegative_iff (h : PowerOutcome a b r) :
    r = .error .zeroToNegativePower ↔ a.ZeroToNegative b := by
  cases h with
  | zeroToNegative h => exact iff_of_true rfl h
  | complex h => exact iff_of_false nofun fun hzero => hzero.not_negativeToFraction h
  | outOfRange hzero | power hzero => exact iff_of_false nofun hzero

theorem eq_complex_iff (h : PowerOutcome a b r) :
    r = .error .complexResult ↔ a.NegativeToFraction b := by
  cases h with
  | zeroToNegative h => exact iff_of_false nofun h.not_negativeToFraction
  | complex h => exact iff_of_true rfl h
  | outOfRange _ hnegative | power _ hnegative => exact iff_of_false nofun hnegative

theorem eq_outOfRange_iff (h : PowerOutcome a b r) :
    r = .error .floatPowerOutOfRange ↔ (a.isFinite ∧ b.isFinite) ∧
      ¬a.ZeroToNegative b ∧ ¬a.NegativeToFraction b ∧ (a.pow b).isInfinite := by
  cases h with
  | zeroToNegative h => exact iff_of_false nofun fun ⟨_, hzero, _⟩ => hzero h
  | complex h => exact iff_of_false nofun fun ⟨_, _, hnegative, _⟩ => hnegative h
  | outOfRange hzero hnegative ha hb hpower =>
    exact iff_of_true rfl ⟨⟨ha, hb⟩, hzero, hnegative, hpower⟩
  | power _ _ hrange =>
    exact iff_of_false nofun fun ⟨⟨ha, hb⟩, _, _, hpower⟩ => hrange ha hb hpower

theorem ne_tooLarge (h : PowerOutcome a b r) : r ≠ .error .integerTooLargeForFloat := by
  cases h <;> exact nofun

/-- Where there is no fault the result is the rounded power. -/
theorem eq_ok (h : PowerOutcome a b r) (hzero : ¬a.ZeroToNegative b)
    (hnegative : ¬a.NegativeToFraction b)
    (hrange : ¬((a.isFinite ∧ b.isFinite) ∧ (a.pow b).isInfinite)) :
    r = .ok (.float (a.pow b)) := by
  cases h with
  | zeroToNegative h => exact absurd h hzero
  | complex h => exact absurd h hnegative
  | outOfRange _ _ ha hb hpower => exact absurd ⟨⟨ha, hb⟩, hpower⟩ hrange
  | power => rfl

/-- With a base of one or an exponent of zero the result is one. -/
theorem eq_one (h : PowerOutcome a b r) (htrivial : b.isZero ∨ a.equal one) :
    r = .ok (.float one) := by
  obtain ⟨hzero, hnegative⟩ := not_faulty_of_trivial htrivial
  rw [h.eq_ok hzero hnegative fun h => not_isInfinite_pow_of_trivial htrivial h.2,
    pow_of_trivial htrivial]

/-- A power that is no fault is the rounded power of the operands, and finite if they are. -/
theorem eq_pow (h : PowerOutcome a b r) {v : Number} (hr : r = .ok v) :
    v = .float (a.pow b) ∧ (a.isFinite → b.isFinite → (a.pow b).isFinite) := by
  cases h with
  | zeroToNegative | complex | outOfRange => cases hr
  | power _ hnegative hrange =>
    cases hr
    refine ⟨rfl, fun ha hb => isFinite_of_not (hrange ha hb) fun hnan => hnegative ?_⟩
    obtain ⟨hneg, hfraction⟩ := (isNaN_pow_iff ha hb).1 hnan
    exact ⟨ha, hneg, hb, hfraction⟩

end PowerOutcome

/-! ## Operands that become floats -/

/-- The operands become floats, unless both are integers and the exponent is not negative. -/
theorem pow_of_not_integers {x y : Number}
    (h : ∀ b e : ℤ, x = .integer b → y = .integer e → e < 0) :
    pow x y = (do
      let a ← x.toDouble
      let b ← y.toDouble
      powFloats a b) := by
  cases x with
  | float a => rfl
  | integer b =>
    cases y with
    | float b => rfl
    | integer e =>
      obtain ⟨k, rfl⟩ := Int.eq_negSucc_of_lt_zero (h b e rfl rfl)
      rfl

theorem pow_of_isTooLarge {x y : Number} (h : ∀ b e : ℤ, x = .integer b → y = .integer e → e < 0)
    (hlarge : x.IsTooLarge ∨ y.IsTooLarge) : pow x y = .error .integerTooLargeForFloat := by
  rw [pow_of_not_integers h]
  by_cases hx : x.IsTooLarge
  · rw [toDouble_of_isTooLarge hx]
    rfl
  · obtain ⟨a, ha⟩ := exists_toDouble hx
    rw [ha, toDouble_of_isTooLarge (hlarge.resolve_left hx)]
    rfl

/-- **When powers of floats fail, and that they never fail silently.** The power is not one of two
integers with an exponent that is not negative. It is refused for an operand that is too large to
become a float, for zero to a power below zero, for a negative base with a fractional exponent, and
if finite operands give infinity; otherwise it is the rounded power. That of finite operands is
finite, and a base of one or an exponent of zero gives one, whatever the other operand is. -/
theorem pow_floats_fails_iff {x y : Number}
    (h : ∀ b e : ℤ, x = .integer b → y = .integer e → e < 0) :
    (pow x y = .error .integerTooLargeForFloat ↔ x.IsTooLarge ∨ y.IsTooLarge) ∧
    (¬(x.IsTooLarge ∨ y.IsTooLarge) → ∃ a b, x.toDouble = .ok a ∧ y.toDouble = .ok b ∧
      (pow x y = .error .zeroToNegativePower ↔ a.ZeroToNegative b) ∧
      (pow x y = .error .complexResult ↔ a.NegativeToFraction b) ∧
      (pow x y = .error .floatPowerOutOfRange ↔ (a.isFinite ∧ b.isFinite) ∧
        ¬a.ZeroToNegative b ∧ ¬a.NegativeToFraction b ∧ (a.pow b).isInfinite) ∧
      (¬a.ZeroToNegative b → ¬a.NegativeToFraction b →
        ¬((a.isFinite ∧ b.isFinite) ∧ (a.pow b).isInfinite) →
          pow x y = .ok (.float (a.pow b))) ∧
      (a.isFinite → b.isFinite → ∀ v, pow x y = .ok v → ∃ z, v = .float z ∧ z.isFinite) ∧
      ((a.isFinite ∧ a.toRat = 1) ∨ (b.isFinite ∧ b.toRat = 0) →
        pow x y = .ok (.float one))) := by
  by_cases hlarge : x.IsTooLarge ∨ y.IsTooLarge
  · exact ⟨iff_of_true (pow_of_isTooLarge h hlarge) hlarge, fun hsmall => absurd hlarge hsmall⟩
  obtain ⟨a, ha⟩ := exists_toDouble fun hx => hlarge (.inl hx)
  obtain ⟨b, hb⟩ := exists_toDouble fun hy => hlarge (.inr hy)
  have hpow : pow x y = powFloats a b := by
    rw [pow_of_not_integers h, ha, hb]
    rfl
  have houtcome := powerOutcome_powFloats a b
  rw [hpow]
  refine ⟨iff_of_false houtcome.ne_tooLarge hlarge, fun _ => ⟨a, b, ha, hb,
    houtcome.eq_zeroToNegative_iff, houtcome.eq_complex_iff, houtcome.eq_outOfRange_iff,
    houtcome.eq_ok, fun hfa hfb v hv => ?_, fun htrivial => houtcome.eq_one ?_⟩⟩
  · obtain ⟨hv, hfinite⟩ := houtcome.eq_pow hv
    exact ⟨_, hv, hfinite hfa hfb⟩
  · rcases htrivial with hone | ⟨hfinite, hzero⟩
    · exact .inr (equal_one_iff.2 hone)
    · exact .inl ((Double.isZero_iff hfinite).2 hzero)

/-- The square root of a negative number. -/
theorem pow_floats_fails_minus_eight :
    (∀ b e : ℤ, integer (-8) = .integer b → float half = .integer e → e < 0) ∧
      pow (.integer (-8)) (.float half) = .error .complexResult := by
  have h : ∀ b e : ℤ, integer (-8) = .integer b → float half = .integer e → e < 0 := by
    rintro b e - ⟨⟩
  refine ⟨h, ?_⟩
  obtain ⟨hfinite, hvalue⟩ := isInteger_ofOperand (n := -8) (by norm_num)
  obtain ⟨hhalf, hhalfValue⟩ := half_eq
  have hsmall : ¬((integer (-8)).IsTooLarge ∨ (float half).IsTooLarge) := by
    rintro (hlarge | hlarge)
    · exact absurd ((isFinite_ofOperand_iff (-8)).1 hfinite) (not_lt.2 hlarge)
    · exact hlarge
  obtain ⟨a, b, ha, hb, -, hcomplex, -⟩ := (pow_floats_fails_iff h).2 hsmall
  rw [toDouble, if_pos hfinite] at ha
  obtain rfl := Except.ok.inj ha
  obtain rfl : half = b := Except.ok.inj hb
  refine hcomplex.2 ⟨hfinite, by rw [hvalue]; norm_num, hhalf, fun k hk => ?_⟩
  rw [hhalfValue] at hk
  have htwice : (1 : ℤ) = 2 * k := by
    have : (1 : ℚ) = 2 * k := by linarith
    exact_mod_cast this
  omega

end Number

end Calculator
