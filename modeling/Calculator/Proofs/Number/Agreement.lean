import Calculator.Proofs.Double.FloorDivision
import Calculator.Proofs.Number.Integers

/-!
# Integers and floats agree

Where an exact result and its operands are integers of at most `2^53`, which floats hold exactly, an
operator gives the same on integers, on the floats that equal them, and on one of each.

* `Number.Equals`: an integer, or the float that equals it.
* `Double.floorDivision_integers`: floor division of such floats is exact.
* `BinaryOp.apply_agrees`: all operators but `/` and `**`.
-/

namespace Calculator

/-! ## Floats that are integers -/

namespace Double

/-- A finite float of the value of an integer. -/
structure IsInteger (x : Double) (n : ℤ) : Prop where
  isFinite : x.isFinite
  toRat_eq : x.toRat = n

namespace IsInteger

variable {x y : Double} {a b v : ℤ}

theorem of_isNearest (h : x.IsNearest v) (hv : |v| ≤ 2 ^ 53) : x.IsInteger v := by
  have hbound : |(v : ℚ)| ≤ 2 ^ 53 := by exact_mod_cast hv
  obtain ⟨hfinite, hvalue⟩ := h.toRat_eq (lt_overflowBound (by decide) hbound)
  rw [roundNearest_intCast hv] at hvalue
  exact ⟨hfinite, hvalue⟩

theorem add (hx : x.IsInteger a) (hy : y.IsInteger b) (hv : |a + b| ≤ 2 ^ 53) :
    (x + y).IsInteger (a + b) := by
  refine of_isNearest ?_ hv
  rw [Int.cast_add, ← hx.toRat_eq, ← hy.toRat_eq]
  exact isNearest_add hx.isFinite hy.isFinite

theorem sub (hx : x.IsInteger a) (hy : y.IsInteger b) (hv : |a - b| ≤ 2 ^ 53) :
    (x - y).IsInteger (a - b) := by
  refine of_isNearest ?_ hv
  rw [Int.cast_sub, ← hx.toRat_eq, ← hy.toRat_eq]
  exact isNearest_sub hx.isFinite hy.isFinite

theorem mul (hx : x.IsInteger a) (hy : y.IsInteger b) (hv : |a * b| ≤ 2 ^ 53) :
    (x * y).IsInteger (a * b) := by
  refine of_isNearest ?_ hv
  rw [Int.cast_mul, ← hx.toRat_eq, ← hy.toRat_eq]
  exact isNearest_mul hx.isFinite hy.isFinite

/-- The quotient of a multiple by its divisor. -/
theorem div (hx : x.IsInteger (b * a)) (hy : y.IsInteger b) (hb : b ≠ 0) (ha : |a| ≤ 2 ^ 53) :
    (x / y).IsInteger a := by
  have hbq : (b : ℚ) ≠ 0 := Int.cast_ne_zero.2 hb
  have hne : y.toRat ≠ 0 := by rwa [hy.toRat_eq]
  refine of_isNearest ?_ ha
  have h := isNearest_div hx.isFinite hy.isFinite hne
  rwa [hx.toRat_eq, hy.toRat_eq, Int.cast_mul, mul_div_cancel_left₀ _ hbq] at h

theorem isZero_iff (hx : x.IsInteger a) : x.isZero ↔ a = 0 := by
  rw [Double.isZero_iff hx.isFinite, hx.toRat_eq, Int.cast_eq_zero]

end IsInteger

theorem isInteger_one : one.IsInteger 1 := by
  obtain ⟨hfinite, hvalue⟩ := one_eq
  exact ⟨hfinite, hvalue.trans Int.cast_one.symm⟩

variable {x y : Double} {a b : ℤ}

/-- The quotient is exact before it is settled. -/
theorem flooredParts_fst_integers (hx : x.IsInteger a) (hy : y.IsInteger b) (hb : b ≠ 0)
    (ha : |a| ≤ 2 ^ 53) (hv : |⌊(a / b : ℚ)⌋| ≤ 2 ^ 53) :
    (flooredParts x y).1.IsInteger ⌊(a / b : ℚ)⌋ := by
  have hne : y.toRat ≠ 0 := by
    rw [hy.toRat_eq]
    exact Int.cast_ne_zero.2 hb
  obtain ⟨r, n, hr, -, hrem, hle, hcases⟩ := flooredParts_cases hx.isFinite hy.isFinite hne
  rw [hx.toRat_eq, hy.toRat_eq] at hle hrem hcases
  have hmultiple : |b * n| ≤ 2 ^ 53 := by
    refine le_trans ?_ ha
    exact_mod_cast hle
  have hn : |n| ≤ 2 ^ 53 := by
    refine le_trans ?_ hmultiple
    rw [abs_mul]
    exact le_mul_of_one_le_left (abs_nonneg n) (Int.one_le_abs hb)
  have hrint : r.IsInteger (a - b * n) := ⟨hr, by rw [hrem]; push_cast; rfl⟩
  have hdiff : (x - r).IsInteger (b * n) := by
    have h := hx.sub hrint (by rwa [sub_sub_cancel])
    rwa [sub_sub_cancel] at h
  have hquotient := hdiff.div hy hb hn
  obtain ⟨hfloor, hparts⟩ | ⟨hfloor, -, hparts⟩ := hcases
  · rwa [hparts, ← hfloor]
  · rw [hparts]
    have hpred : n - 1 = ⌊(a / b : ℚ)⌋ := by omega
    rw [← hpred] at hv ⊢
    exact hquotient.sub isInteger_one hv

/-- **Floor division of integers that floats hold is exact.** -/
theorem floorDivision_integers (hx : x.IsInteger a) (hy : y.IsInteger b) (hb : b ≠ 0)
    (ha : |a| ≤ 2 ^ 53) :
    (|⌊(a / b : ℚ)⌋| ≤ 2 ^ 53 → (floorDivision x y).1.IsInteger ⌊(a / b : ℚ)⌋) ∧
    (|a - b * ⌊(a / b : ℚ)⌋| ≤ 2 ^ 53 →
      (floorDivision x y).2.IsInteger (a - b * ⌊(a / b : ℚ)⌋)) := by
  have hne : y.toRat ≠ 0 := by
    rw [hy.toRat_eq]
    exact Int.cast_ne_zero.2 hb
  constructor
  · intro hv
    obtain ⟨hfinite, hvalue⟩ := flooredParts_fst_integers hx hy hb ha hv
    have hnear := floorDivision_fst_of_near (x := x) (y := y) hfinite
    rw [hx.toRat_eq, hy.toRat_eq, hvalue] at hnear
    obtain ⟨hfinite, hvalue, -⟩ := hnear hv (by rw [sub_self]; norm_num)
      fun h => by rw [h, Int.cast_zero]
    exact ⟨hfinite, hvalue⟩
  · intro hv
    obtain ⟨hzero, hnearest⟩ := floorDivision_snd hx.isFinite hy.isFinite hne
    have hcast : (a : ℚ) - b * ⌊(a / b : ℚ)⌋ = (a - b * ⌊(a / b : ℚ)⌋ : ℤ) := by push_cast; rfl
    rw [hx.toRat_eq, hy.toRat_eq, hcast, Int.cast_eq_zero] at hzero
    rw [hx.toRat_eq, hy.toRat_eq, hcast, Int.cast_ne_zero] at hnearest
    by_cases h : a - b * ⌊(a / b : ℚ)⌋ = 0
    · rw [hzero h, h]
      exact ⟨rfl, by rw [toRat_zero, Int.cast_zero]⟩
    · exact .of_isNearest (hnearest h) hv

/-- Operands of at most 64 bits are rounded as they are. -/
theorem isInteger_ofOperand {n : ℤ} (hn : |n| ≤ 2 ^ 53) : (ofOperand n).IsInteger n := by
  have hsmall : n.natAbs.log2 < 64 := by
    rcases Nat.eq_zero_or_pos n.natAbs with h | h
    · rw [h]
      decide
    · rw [Nat.log2_lt (Nat.ne_of_gt h)]
      have : (n.natAbs : ℤ) ≤ 2 ^ 53 := by rwa [Int.natCast_natAbs]
      omega
  have hleading : leadingPart n.natAbs = n.natAbs := by
    rw [leadingPart, if_pos]
    unfold bitsBelowLeading wordBits
    omega
  rw [ofOperand, hleading, signed_natAbs]
  obtain ⟨hfinite, hvalue⟩ := ofInt_exact hn
  exact ⟨hfinite, hvalue⟩

end Double

/-! ## Numbers that are integers -/

/-- The integer itself, or a float that equals it. -/
inductive Number.Equals (n : ℤ) : Number → Prop
  | integer : Equals n (.integer n)
  | float {x : Double} (h : x.IsInteger n) : Equals n (.float x)

namespace Number

variable {x y : Number} {a b : ℤ}

theorem Equals.exists_toDouble (h : x.Equals a) (ha : |a| ≤ 2 ^ 53) :
    ∃ x', x.toDouble = .ok x' ∧ x'.IsInteger a := by
  cases h with
  | integer =>
    have hinteger := Double.isInteger_ofOperand ha
    exact ⟨_, by rw [toDouble, if_pos hinteger.isFinite], hinteger⟩
  | float h => exact ⟨_, rfl, h⟩

theorem Equals.isZero_iff (h : x.Equals a) : x.isZero ↔ a = 0 := by
  cases h with
  | integer => simp [isZero]
  | float h => exact h.isZero_iff

/-- Two operands of which one is a float are combined as floats. -/
theorem Equals.combine_eq (hx : x.Equals a) (hy : y.Equals b)
    (hmixed : ¬(x = .integer a ∧ y = .integer b)) {x' y' : Double} (hx' : x.toDouble = .ok x')
    (hy' : y.toDouble = .ok y') (f : Int → Int → Int) (g : Double → Double → Double) :
    combine f g x y = .ok (.float (g x' y')) := by
  have hfloats : combine f g x y = (do
      let x' ← x.toDouble
      let y' ← y.toDouble
      return .float (g x' y')) := by
    cases hx with
    | integer =>
      cases hy with
      | integer => exact absurd ⟨rfl, rfl⟩ hmixed
      | float => rfl
    | float => rfl
  rw [hfloats, hx', hy']
  rfl

end Number

/-- **Integers and floats agree.** For integers of at most `2^53` and an exact result of at most
`2^53`, an operator gives the result as an integer for integers, and as a float of the same value
where one or both operands are the floats that equal them. -/
theorem BinaryOp.apply_agrees {op : BinaryOp} (hop : op ∈ [add, sub, mul, floorDiv, mod])
    {a b v : ℤ} (ha : |a| ≤ 2 ^ 53) (hb : |b| ≤ 2 ^ 53) (hresult : op.onIntegers? a b = some v)
    (hv : |v| ≤ 2 ^ 53) :
    op.apply (.integer a) (.integer b) = .ok (.integer v) ∧
      ∀ x y : Number, x.Equals a → y.Equals b → ¬(x = .integer a ∧ y = .integer b) →
        ∃ z : Double, op.apply x y = .ok (.float z) ∧ z.IsInteger v := by
  have hpow : op ≠ .pow := by
    rintro rfl
    exact absurd hop (by decide)
  refine ⟨BinaryOp.apply_eq_integer_iff.2 ⟨a, b, rfl, rfl, hresult, fun h => absurd h hpow⟩, ?_⟩
  intro x y hx hy hmixed
  obtain ⟨x', hx', hxa⟩ := hx.exists_toDouble ha
  obtain ⟨y', hy', hyb⟩ := hy.exists_toDouble hb
  have hcombine := hx.combine_eq hy hmixed hx' hy'
  have hguarded (hb0 : b ≠ 0) (fault : ArithmeticFault) (f : Int → Int → Int)
      (g : Double → Double → Double) :
      (if y.isZero then .error fault else Number.combine f g x y) = .ok (.float (g x' y')) := by
    rw [if_neg (mt hy.isZero_iff.1 hb0), hcombine]
  cases op with
  | add =>
    obtain rfl := Option.some.inj hresult
    exact ⟨_, hcombine _ _, hxa.add hyb hv⟩
  | sub =>
    obtain rfl := Option.some.inj hresult
    exact ⟨_, hcombine _ _, hxa.sub hyb hv⟩
  | mul =>
    obtain rfl := Option.some.inj hresult
    exact ⟨_, hcombine _ _, hxa.mul hyb hv⟩
  | floorDiv =>
    simp only [onIntegers?, Option.ite_none_left_eq_some, Option.some.injEq] at hresult
    obtain ⟨hb0, rfl⟩ := hresult
    exact ⟨_, hguarded hb0 _ _ _, (Double.floorDivision_integers hxa hyb hb0 ha).1 hv⟩
  | mod =>
    simp only [onIntegers?, Option.ite_none_left_eq_some, Option.some.injEq] at hresult
    obtain ⟨hb0, rfl⟩ := hresult
    exact ⟨_, hguarded hb0 _ _ _, (Double.floorDivision_integers hxa hyb hb0 ha).2 hv⟩
  | div => cases hresult
  | pow => exact absurd rfl hpow

theorem BinaryOp.apply_agrees_floorDiv_minus_seven :
    BinaryOp.floorDiv ∈ [add, sub, mul, floorDiv, mod] ∧ |(-7 : ℤ)| ≤ 2 ^ 53 ∧ |(2 : ℤ)| ≤ 2 ^ 53 ∧
      floorDiv.onIntegers? (-7) 2 = some (-4) ∧ |(-4 : ℤ)| ≤ 2 ^ 53 ∧
      floorDiv.apply (.integer (-7)) (.integer 2) = .ok (.integer (-4)) ∧
      ∃ z : Double, floorDiv.apply (.integer (-7)) (.float (.ofInt 2)) = .ok (.float z) ∧
        z.IsInteger (-4) := by
  have hop : BinaryOp.floorDiv ∈ [add, sub, mul, floorDiv, mod] := by decide
  have ha : |(-7 : ℤ)| ≤ 2 ^ 53 := by norm_num
  have hb : |(2 : ℤ)| ≤ 2 ^ 53 := by norm_num
  have hv : |(-4 : ℤ)| ≤ 2 ^ 53 := by norm_num
  have hresult : floorDiv.onIntegers? (-7) 2 = some (-4) := by
    rw [onIntegers?, if_neg (by decide)]
    norm_num
  obtain ⟨hintegers, hfloats⟩ := BinaryOp.apply_agrees hop ha hb hresult hv
  obtain ⟨hfinite, hvalue⟩ := Double.ofInt_exact hb
  exact ⟨hop, ha, hb, hresult, hv, hintegers,
    hfloats _ _ .integer (.float ⟨hfinite, hvalue⟩) (by rintro ⟨-, ⟨⟩⟩)⟩

end Calculator
