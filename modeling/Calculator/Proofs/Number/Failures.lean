import Calculator.Proofs.Number.Conversion
import Calculator.Proofs.Number.Integers

/-!
# When operators fail

The outcomes of the operators other than the power. A zero divisor is looked for first, whatever
the dividend. Then integers are combined as integers, and an integer beside a float has to become
one itself.

* `BinaryOp.zeroFault?`, `BinaryOp.Refuses`: the fault of a zero divisor.
* `Number.IsTooLargeBeside`: an integer that is too large for a float, beside a float.
* `Number.combine_cases`: what combining two numbers gives.
* `BinaryOp.Outcome`, `BinaryOp.outcome_apply`: what an operator can give, by its operands.
* `BinaryOp.apply_fails_iff`: when it fails, with which fault, and when its result is an integer.
-/

namespace Calculator

namespace Number

/-- Both operands are integers. -/
def AreIntegers (x y : Number) : Prop := ∃ m n, x = .integer m ∧ y = .integer n

/-- Exactly one of the operands is an integer, and that is too large for a float. -/
def IsTooLargeBeside (x y : Number) : Prop := ¬x.AreIntegers y ∧ (x.IsTooLarge ∨ y.IsTooLarge)

variable {x y : Number}

theorem isZero_iff : y.isZero ↔ y = .integer 0 ∨ ∃ s, y = .float (.zero s) := by
  cases y with
  | integer n => simp [isZero]
  | float x => simpa [isZero] using Double.isZero_iff_exists

/-- Two operands that are not both integers are combined as floats. -/
theorem combine_of_not_areIntegers (h : ¬x.AreIntegers y) (f : Int → Int → Int)
    (g : Double → Double → Double) :
    combine f g x y = (do
      let a ← x.toDouble
      let b ← y.toDouble
      return .float (g a b)) := by
  cases x with
  | integer m =>
    cases y with
    | integer n => exact absurd ⟨m, n, rfl, rfl⟩ h
    | float b => rfl
  | float a => rfl

/-- What combining two numbers gives. -/
theorem combine_cases (f : Int → Int → Int) (g : Double → Double → Double) (x y : Number) :
    (∃ m n, x = .integer m ∧ y = .integer n ∧ combine f g x y = .ok (.integer (f m n))) ∨
    (x.IsTooLargeBeside y ∧ combine f g x y = .error .integerTooLargeForFloat) ∨
    (¬x.AreIntegers y ∧ ¬x.IsTooLargeBeside y ∧ ∃ z, combine f g x y = .ok (.float z)) := by
  by_cases hintegers : x.AreIntegers y
  · obtain ⟨m, n, rfl, rfl⟩ := hintegers
    exact .inl ⟨m, n, rfl, rfl, rfl⟩
  rw [combine_of_not_areIntegers hintegers]
  by_cases hx : x.IsTooLarge
  · exact .inr (.inl ⟨⟨hintegers, .inl hx⟩, by rw [toDouble_of_isTooLarge hx]; rfl⟩)
  obtain ⟨a, ha⟩ := exists_toDouble hx
  by_cases hy : y.IsTooLarge
  · exact .inr (.inl ⟨⟨hintegers, .inr hy⟩, by rw [ha, toDouble_of_isTooLarge hy]; rfl⟩)
  obtain ⟨b, hb⟩ := exists_toDouble hy
  refine .inr (.inr ⟨hintegers, fun h => h.2.elim hx hy, g a b, ?_⟩)
  rw [ha, hb]
  rfl

/-- A quotient of integers is a float, or too large. -/
theorem divideIntegers_cases (m n : Int) :
    (∃ z, divideIntegers m n = .ok (.float z)) ∨
      divideIntegers m n = .error .integerQuotientTooLarge := by
  unfold divideIntegers divideScaled
  split
  · exact .inl ⟨_, rfl⟩
  dsimp only
  split
  · exact .inr rfl
  · exact .inl ⟨_, rfl⟩

/-- Other quotients are those of floats. -/
theorem div_of_not_areIntegers (h : ¬x.AreIntegers y) (hy : ¬y.isZero) :
    div x y = combine (fun _ _ => 0) (· / ·) x y := by
  rw [combine_of_not_areIntegers h]
  unfold div
  rw [if_neg hy]
  cases x with
  | integer m =>
    cases y with
    | integer n => exact absurd ⟨m, n, rfl, rfl⟩ h
    | float b => rfl
  | float a => rfl

end Number

namespace BinaryOp

/-- The fault of a zero divisor. -/
def zeroFault? : BinaryOp → Option ArithmeticFault
  | .div => some .divisionByZero
  | .floorDiv => some .floorDivisionByZero
  | .mod => some .moduloByZero
  | _ => none

/-- The operator looks for a zero divisor and finds one. -/
def Refuses (op : BinaryOp) (y : Number) : Prop := op.zeroFault?.isSome ∧ y.isZero

/-- What an operator can give for its operands. -/
inductive Outcome (op : BinaryOp) (x y : Number) : ArithmeticResult → Prop
  | zeroDivisor {fault : ArithmeticFault} (hfault : op.zeroFault? = some fault) (hy : y.isZero) :
      Outcome op x y (.error fault)
  | integer {k : Int} (h : ¬op.Refuses y) (hxy : x.AreIntegers y) (hop : op ≠ .div) :
      Outcome op x y (.ok (.integer k))
  | quotient {z : Double} (h : ¬op.Refuses y) (hxy : x.AreIntegers y) (hop : op = .div) :
      Outcome op x y (.ok (.float z))
  | quotientTooLarge (h : ¬op.Refuses y) (hxy : x.AreIntegers y) (hop : op = .div) :
      Outcome op x y (.error .integerQuotientTooLarge)
  | tooLarge (h : ¬op.Refuses y) (hxy : x.IsTooLargeBeside y) :
      Outcome op x y (.error .integerTooLargeForFloat)
  | float {z : Double} (h : ¬op.Refuses y) (hxy : ¬x.AreIntegers y)
      (hsmall : ¬x.IsTooLargeBeside y) : Outcome op x y (.ok (.float z))

variable {op : BinaryOp} {x y : Number}

theorem Outcome.combine (h : ¬op.Refuses y) (hop : op ≠ .div) (f : Int → Int → Int)
    (g : Double → Double → Double) : op.Outcome x y (Number.combine f g x y) := by
  rcases Number.combine_cases f g x y with ⟨m, n, hx, hy, hr⟩ | ⟨hlarge, hr⟩ | ⟨hxy, hsmall, z, hr⟩
  · exact hr ▸ .integer h ⟨m, n, hx, hy⟩ hop
  · exact hr ▸ .tooLarge h hlarge
  · exact hr ▸ .float h hxy hsmall

/-- Operators with a test for a zero divisor before they combine. -/
theorem Outcome.guarded {fault : ArithmeticFault} (hfault : op.zeroFault? = some fault)
    (hop : op ≠ .div) (f : Int → Int → Int) (g : Double → Double → Double) :
    op.Outcome x y (if y.isZero then .error fault else Number.combine f g x y) := by
  split
  · next hy => exact .zeroDivisor hfault hy
  · next hy => exact .combine (fun h => hy h.2) hop f g

theorem Outcome.div (x y : Number) : Outcome .div x y (Number.div x y) := by
  by_cases hy : y.isZero
  · unfold Number.div
    rw [if_pos hy]
    exact .zeroDivisor rfl hy
  have hrefuses : ¬Refuses .div y := fun h => hy h.2
  by_cases hxy : x.AreIntegers y
  · obtain ⟨m, n, rfl, rfl⟩ := hxy
    rw [Number.div, if_neg hy]
    rcases Number.divideIntegers_cases m n with ⟨z, hz⟩ | hz
    · exact hz ▸ .quotient hrefuses ⟨m, n, rfl, rfl⟩ rfl
    · exact hz ▸ .quotientTooLarge hrefuses ⟨m, n, rfl, rfl⟩ rfl
  rw [Number.div_of_not_areIntegers hxy hy]
  rcases Number.combine_cases (fun _ _ => 0) (· / ·) x y with ⟨m, n, hx, hy, -⟩ | ⟨hlarge, hr⟩ |
    ⟨-, hsmall, z, hr⟩
  · exact absurd ⟨m, n, hx, hy⟩ hxy
  · exact hr ▸ .tooLarge hrefuses hlarge
  · exact hr ▸ .float hrefuses hxy hsmall

/-- Every operator but the power gives one of these. -/
theorem outcome_apply (hop : op ≠ .pow) (x y : Number) : op.Outcome x y (op.apply x y) := by
  cases op with
  | add | sub | mul => exact .combine (by rintro ⟨⟨⟩, -⟩) (by decide) _ _
  | div => exact .div x y
  | floorDiv | mod => exact .guarded rfl (by decide) _ _
  | pow => exact absurd rfl hop

namespace Outcome

variable {r : ArithmeticResult} {v : Number} {fault : ArithmeticFault}

/-- The fault of a zero divisor arises from nothing else. -/
theorem eq_zeroFault_iff (houtcome : op.Outcome x y r) (hfault : op.zeroFault? = some fault) :
    r = .error fault ↔ y.isZero := by
  have hother : fault ≠ .integerTooLargeForFloat ∧ fault ≠ .integerQuotientTooLarge := by
    cases op <;> cases hfault <;> exact ⟨nofun, nofun⟩
  have hnot (h : ¬op.Refuses y) : ¬y.isZero := fun hy => h ⟨by rw [hfault]; rfl, hy⟩
  cases houtcome with
  | zeroDivisor hfault' hy =>
    obtain rfl := Option.some.inj (hfault.symm.trans hfault')
    exact iff_of_true rfl hy
  | integer h | quotient h | float h => exact iff_of_false nofun (hnot h)
  | quotientTooLarge h =>
    exact iff_of_false (fun heq => hother.2 (Except.error.inj heq).symm) (hnot h)
  | tooLarge h => exact iff_of_false (fun heq => hother.1 (Except.error.inj heq).symm) (hnot h)

/-- Without a zero divisor an integer that is too large for a float is refused beside one. -/
theorem eq_tooLarge_iff (houtcome : op.Outcome x y r) (hrefuses : ¬op.Refuses y) :
    r = .error .integerTooLargeForFloat ↔ x.IsTooLargeBeside y := by
  cases houtcome with
  | zeroDivisor hfault hy => exact absurd ⟨by rw [hfault]; rfl, hy⟩ hrefuses
  | integer _ hxy | quotient _ hxy | quotientTooLarge _ hxy =>
    exact iff_of_false nofun fun hlarge => hlarge.1 hxy
  | tooLarge _ hlarge => exact iff_of_true rfl hlarge
  | float _ _ hsmall => exact iff_of_false nofun hsmall

/-- Otherwise only a quotient of integers can fail. -/
theorem ok_or_quotientTooLarge (houtcome : op.Outcome x y r) (hrefuses : ¬op.Refuses y)
    (hsmall : ¬x.IsTooLargeBeside y) :
    (∃ v, r = .ok v) ∨
      op = .div ∧ x.AreIntegers y ∧ r = .error .integerQuotientTooLarge := by
  cases houtcome with
  | zeroDivisor hfault hy => exact absurd ⟨by rw [hfault]; rfl, hy⟩ hrefuses
  | integer | quotient | float => exact .inl ⟨_, rfl⟩
  | quotientTooLarge _ hxy hop => exact .inr ⟨hop, hxy, rfl⟩
  | tooLarge _ hlarge => exact absurd hlarge hsmall

theorem isInteger_iff (houtcome : op.Outcome x y (.ok v)) :
    (∃ k, v = .integer k) ↔ x.AreIntegers y ∧ op ≠ .div := by
  cases houtcome with
  | integer _ hxy hop => exact iff_of_true ⟨_, rfl⟩ ⟨hxy, hop⟩
  | quotient _ _ hop => exact iff_of_false (by rintro ⟨k, ⟨⟩⟩) fun h => h.2 hop
  | float _ hxy => exact iff_of_false (by rintro ⟨k, ⟨⟩⟩) fun h => hxy h.1

end Outcome

/-- **When operators fail.** The power apart, a zero divisor is refused by the operators that look
for one, whatever the dividend. Otherwise an integer beside a float is refused if it is too large
for one, and nothing else fails, but for a quotient of two integers that is too large. A result is
an integer if and only if both operands are and the operator is not the quotient. -/
theorem apply_fails_iff (hop : op ≠ .pow) (x y : Number) :
    (∀ fault, op.zeroFault? = some fault →
      (op.apply x y = .error fault ↔ y = .integer 0 ∨ ∃ s, y = .float (.zero s))) ∧
    (¬op.Refuses y →
      (op.apply x y = .error .integerTooLargeForFloat ↔ x.IsTooLargeBeside y) ∧
      (¬x.IsTooLargeBeside y →
        (∃ v, op.apply x y = .ok v) ∨
          op = .div ∧ x.AreIntegers y ∧ op.apply x y = .error .integerQuotientTooLarge)) ∧
    ∀ v, op.apply x y = .ok v → ((∃ k, v = .integer k) ↔ x.AreIntegers y ∧ op ≠ .div) := by
  have houtcome := outcome_apply hop x y
  refine ⟨fun fault hfault => ?_, fun hrefuses => ⟨?_, ?_⟩, fun v hv => ?_⟩
  · rw [← Number.isZero_iff]
    exact houtcome.eq_zeroFault_iff hfault
  · exact houtcome.eq_tooLarge_iff hrefuses
  · exact houtcome.ok_or_quotientTooLarge hrefuses
  · rw [hv] at houtcome
    exact houtcome.isInteger_iff

/-- A remainder by a negative zero, and a sum with NaN, of an integer that is too large. -/
theorem apply_fails_two_pow_1024 :
    mod ≠ .pow ∧ mod.apply (.integer (2 ^ 1024)) (.float (.zero true)) = .error .moduloByZero ∧
      add ≠ .pow ∧
      add.apply (.integer (2 ^ 1024)) (.float .nan) = .error .integerTooLargeForFloat := by
  have hlarge : (Number.integer (2 ^ 1024)).IsTooLargeBeside (.float .nan) := by
    refine ⟨by rintro ⟨_, _, _, ⟨⟩⟩, .inl ?_⟩
    have habs : |((2 ^ 1024 : ℤ) : ℚ)| = 2 ^ 1024 := by
      rw [Int.cast_pow, Int.cast_ofNat, abs_of_nonneg (by positivity)]
    show 2 ^ 1024 - 2 ^ 970 ≤ |((2 ^ 1024 : ℤ) : ℚ)|
    rw [habs]
    exact sub_le_self _ (by positivity)
  obtain ⟨hzero, -⟩ := apply_fails_iff (show mod ≠ .pow by decide) (.integer (2 ^ 1024))
    (.float (.zero true))
  obtain ⟨-, hfloats, -⟩ := apply_fails_iff (show add ≠ .pow by decide) (.integer (2 ^ 1024))
    (.float .nan)
  exact ⟨by decide, (hzero _ rfl).2 (.inr ⟨true, rfl⟩), by decide,
    (hfloats (by rintro ⟨⟨⟩, -⟩)).1.2 hlarge⟩

end BinaryOp

end Calculator
