import Calculator.Operator.Basic
import Mathlib.Algebra.Ring.Parity
import Mathlib.Data.Rat.Floor

/-!
# Operators on integers

An operator has an integer as its result only if both operands are integers, and then it is the
exact one.

* `BinaryOp.onIntegers?`: the exact result of an operator over the unbounded integers.
* `BinaryOp.Affordable`: the powers that are computed.
* `Number.bitLength_le_iff`: the integers that so many bits are enough for.
* `BinaryOp.apply_eq_integer_iff`: when an operator has an integer as its result, and which.
-/

namespace Calculator

/-- The exact result of an operator over the unbounded integers: `//` is the floor of the quotient
and `%` the remainder that belongs to it. There is none for `/`, a zero divisor and a negative
exponent. -/
def BinaryOp.onIntegers? : BinaryOp → Int → Int → Option Int
  | .add, m, n => some (m + n)
  | .sub, m, n => some (m - n)
  | .mul, m, n => some (m * n)
  | .div, _, _ => none
  | .floorDiv, m, n => if n = 0 then none else some ⌊(m / n : ℚ)⌋
  | .mod, m, n => if n = 0 then none else some (m - n * ⌊(m / n : ℚ)⌋)
  | .pow, m, n => if n < 0 then none else some (m ^ n.toNat)

/-- The integer with a sign before it. -/
def Sign.onInteger : Sign → Int → Int
  | .plus, n => n
  | .minus, n => -n

/-- An operation that is no power, or whose power is not too large to be computed. -/
def BinaryOp.Affordable (op : BinaryOp) (m n : Int) : Prop :=
  op = .pow → 2 ≤ m.natAbs → Number.bitLength m * n.toNat ≤ 1000000

/-- The quotient rounded toward negative infinity is the floor of the quotient. -/
theorem fdiv_eq_floor (m n : Int) : m.fdiv n = ⌊(m / n : ℚ)⌋ := by
  have hpos : ∀ (k : Int) (d : Nat), k.fdiv d = ⌊(k / (d : Int) : ℚ)⌋ := fun k d => by
    rw [Int.fdiv_eq_ediv_of_nonneg k (Int.natCast_nonneg d), Int.cast_natCast,
      Rat.floor_intCast_div_natCast]
  obtain ⟨d, rfl | rfl⟩ := n.eq_nat_or_neg
  · exact hpos m d
  · rw [← Int.neg_fdiv_neg, neg_neg, hpos, Int.cast_neg, Int.cast_neg, neg_div, div_neg]

namespace Number

/-! ## Bits of an integer -/

theorem bitLength_le_iff {n : Int} {k : Nat} : bitLength n ≤ k ↔ n.natAbs < 2 ^ k := by
  unfold bitLength
  split
  · next h => simp [h]
  · next h =>
    rw [Nat.add_one_le_iff]
    exact Nat.log2_lt (Int.natAbs_ne_zero.2 h)

theorem lt_bitLength_iff {n : Int} {k : Nat} : k < bitLength n ↔ 2 ^ k ≤ n.natAbs := by
  rw [← not_iff_not, Nat.not_lt, bitLength_le_iff, Nat.not_le]

theorem two_le_bitLength {b : Int} (hb : 2 ≤ b.natAbs) : 2 ≤ bitLength b := lt_bitLength_iff.2 hb

/-! ## Results that are integers -/

/-- An operation on integers or floats has an integer as its result only on integers. -/
theorem combine_eq_integer_iff {f : Int → Int → Int} {g : Double → Double → Double} {x y : Number}
    {v : Int} :
    combine f g x y = .ok (.integer v) ↔ ∃ m n, x = .integer m ∧ y = .integer n ∧ f m n = v := by
  cases x with
  | integer m =>
    cases y with
    | integer n => simp [combine]
    | float b =>
      refine iff_of_false ?_ (by simp)
      simp only [combine]
      cases (integer m).toDouble <;> exact nofun
  | float a =>
    refine iff_of_false ?_ (by simp)
    simp only [combine]
    cases y.toDouble <;> exact nofun

/-- The same with a test for a zero divisor before it. -/
theorem guarded_eq_integer_iff {f : Int → Int → Int} {g : Double → Double → Double}
    {fault : ArithmeticFault} {x y : Number} {v : Int} :
    (if y.isZero then .error fault else combine f g x y) = .ok (.integer v) ↔
      ∃ m n, x = .integer m ∧ y = .integer n ∧ n ≠ 0 ∧ f m n = v := by
  split
  · next h =>
    refine iff_of_false nofun ?_
    rintro ⟨m, n, -, rfl, hn, -⟩
    exact hn (by simpa [isZero] using h)
  · next h =>
    rw [combine_eq_integer_iff]
    constructor
    · rintro ⟨m, n, rfl, rfl, hv⟩
      exact ⟨m, n, rfl, rfl, by simpa [isZero] using h, hv⟩
    · rintro ⟨m, n, rfl, rfl, -, hv⟩
      exact ⟨m, n, rfl, rfl, hv⟩

/-- A quotient is never an integer. -/
theorem div_ne_integer (x y : Number) (v : Int) : div x y ≠ .ok (.integer v) := by
  unfold div
  split
  · exact nofun
  split
  · unfold divideIntegers divideScaled
    split
    · exact nofun
    · dsimp only
      split <;> exact nofun
  · cases x.toDouble with
    | error => exact nofun
    | ok a => cases y.toDouble <;> exact nofun

/-- A power of floats is never an integer. -/
theorem powFloats_ne_integer (x y : Double) (v : Int) : powFloats x y ≠ .ok (.integer v) := by
  unfold powFloats
  dsimp only
  split_ifs <;> exact nofun

/-- The power computed from the magnitude is the power. -/
theorem integerPower_eq (b : Int) (e : Nat) : integerPower b e = b ^ e := by
  unfold integerPower
  dsimp only
  obtain ⟨n, rfl | rfl⟩ := b.eq_nat_or_neg
  · rw [if_neg (by omega), Int.natAbs_natCast, Int.natCast_pow]
  rw [Int.natAbs_neg, Int.natAbs_natCast, Int.natCast_pow]
  rcases Nat.even_or_odd e with he | he
  · rw [if_neg (by have := Nat.even_iff.1 he; omega), he.neg_pow]
  · rw [he.neg_pow]
    split
    · rfl
    · obtain rfl : n = 0 := by have := Nat.odd_iff.1 he; omega
      simp [he.pos.ne']

/-- The power of a base of magnitude at most one is exact, whatever the exponent. -/
theorem powIntegers_of_natAbs_lt {b : Int} (h : b.natAbs < 2) (e : Nat) :
    powIntegers b e = .ok (.integer (b ^ e)) := by
  unfold powIntegers
  obtain rfl | he := Nat.eq_zero_or_pos e
  · rw [if_pos rfl, pow_zero]
  rw [if_neg he.ne']
  obtain rfl | rfl | rfl : b = 0 ∨ b = 1 ∨ b = -1 := by omega
  · rw [zero_pow he.ne']
    rfl
  · rw [one_pow]
    rfl
  · rw [if_neg (by decide), if_pos rfl]
    rcases Nat.even_or_odd e with h2 | h2
    · rw [if_pos (Nat.even_iff.1 h2), h2.neg_one_pow]
    · rw [if_neg (by have := Nat.odd_iff.1 h2; omega), h2.neg_one_pow]

/-- Counting in a word does not change which powers are refused for their size. -/
theorem maxPowerBits_lt_powerSize_iff {b : Int} (h : bitLength b ≠ 0) (e : Nat) :
    maxPowerBits < powerSize b e ↔ maxPowerBits < bitLength b * e := by
  have hword : maxPowerBits < greatestWord := by decide
  have he : e ≤ bitLength b * e := Nat.le_mul_of_pos_left e (Nat.pos_of_ne_zero h)
  unfold powerSize
  split <;> omega

/-- The exponent of a power that is not refused for its size fits in half a word. -/
theorem le_greatestExponent {b : Int} (h : bitLength b ≠ 0) {e : Nat}
    (hsize : powerSize b e ≤ maxPowerBits) : e ≤ greatestExponent := by
  have hproduct := (not_congr (maxPowerBits_lt_powerSize_iff h e)).1 (Nat.not_lt.2 hsize)
  have hexponent : maxPowerBits ≤ greatestExponent := by decide
  have he : e ≤ bitLength b * e := Nat.le_mul_of_pos_left e (Nat.pos_of_ne_zero h)
  omega

/-- The power of a greater base is exact or refused for its size. -/
theorem powIntegers_of_le_natAbs {b : Int} (h : 2 ≤ b.natAbs) (e : Nat) :
    powIntegers b e =
      if maxPowerBits < bitLength b * e then .error .integerPowerTooLarge
      else .ok (.integer (b ^ e)) := by
  have hb : bitLength b ≠ 0 := by
    have := two_le_bitLength h
    omega
  unfold powIntegers
  obtain rfl | he := Nat.eq_zero_or_pos e
  · rw [if_pos rfl, pow_zero, Nat.mul_zero, if_neg (Nat.not_lt_zero _)]
  rw [if_neg he.ne', if_neg (by omega), if_neg (by omega), integerPower_eq]
  simp only [maxPowerBits_lt_powerSize_iff hb]
  split
  · rfl
  · next hsize =>
    rw [← maxPowerBits_lt_powerSize_iff hb, Nat.not_lt] at hsize
    rw [if_neg (Nat.not_lt.2 (le_greatestExponent hb hsize))]

/-- An integer power has an integer as its result if it is no larger than what is computed, and
then the exact one. -/
theorem powIntegers_eq_integer_iff {b v : Int} {e : Nat} :
    powIntegers b e = .ok (.integer v) ↔
      b ^ e = v ∧ (2 ≤ b.natAbs → bitLength b * e ≤ maxPowerBits) := by
  rcases Nat.lt_or_ge b.natAbs 2 with hb | hb
  · simp [powIntegers_of_natAbs_lt hb, Nat.not_le.2 hb]
  · rw [powIntegers_of_le_natAbs hb]
    split
    · next h => simp [hb, Nat.not_le.2 h]
    · next h => simp [hb, Nat.not_lt.1 h]

/-- A power has an integer as its result only for integers and an exponent that is not negative. -/
theorem pow_eq_integer_iff {x y : Number} {v : Int} :
    pow x y = .ok (.integer v) ↔
      ∃ (b : Int) (e : Nat), x = .integer b ∧ y = .integer e ∧
        powIntegers b e = .ok (.integer v) := by
  unfold pow
  split
  · next b e => simp [Int.ofNat_eq_natCast]
  · next hne =>
    refine iff_of_false ?_ ?_
    · cases x.toDouble with
      | error => exact nofun
      | ok a =>
        cases y.toDouble with
        | error => exact nofun
        | ok b => exact powFloats_ne_integer a b v
    · rintro ⟨b, e, rfl, rfl, -⟩
      exact hne b e rfl rfl

end Number

/-- **Operators are exact on integers.** An operator has an integer as its result if and only if
both operands are integers, it has that exact result, and it is no power too large to be
computed. -/
theorem BinaryOp.apply_eq_integer_iff {op : BinaryOp} {x y : Number} {v : Int} :
    op.apply x y = .ok (.integer v) ↔
      ∃ m n, x = .integer m ∧ y = .integer n ∧ op.onIntegers? m n = some v ∧ op.Affordable m n := by
  cases op with
  | add | sub | mul =>
    simp [apply, Number.add, Number.sub, Number.mul, Number.combine_eq_integer_iff, onIntegers?,
      Affordable]
  | div => simp [apply, Number.div_ne_integer, onIntegers?]
  | floorDiv =>
    rw [apply, Number.floorDiv, Number.guarded_eq_integer_iff]
    simp [onIntegers?, Affordable, fdiv_eq_floor]
  | mod =>
    rw [apply, Number.mod, Number.guarded_eq_integer_iff]
    simp [onIntegers?, Affordable, Int.fmod_def, fdiv_eq_floor]
  | pow =>
    rw [apply, Number.pow_eq_integer_iff]
    constructor
    · rintro ⟨b, e, rfl, rfl, h⟩
      obtain ⟨hv, ha⟩ := Number.powIntegers_eq_integer_iff.1 h
      exact ⟨b, e, rfl, rfl, by simpa [onIntegers?] using hv, fun _ => ha⟩
    · rintro ⟨b, n, rfl, rfl, hv, ha⟩
      have hn : 0 ≤ n := by
        by_contra hneg
        rw [onIntegers?, if_pos (by omega)] at hv
        cases hv
      obtain ⟨e, rfl⟩ := Int.eq_ofNat_of_zero_le hn
      refine ⟨b, e, rfl, rfl, Number.powIntegers_eq_integer_iff.2 ⟨?_, ha rfl⟩⟩
      simpa [onIntegers?] using hv

/-- A sign has an integer as its result if and only if its operand is an integer. -/
theorem Sign.apply_eq_integer_iff {s : Sign} {x : Number} {v : Int} :
    s.apply x = .ok (.integer v) ↔ ∃ n, x = .integer n ∧ s.onInteger n = v := by
  cases s <;> cases x <;> simp [apply, Number.pos, Number.neg, onInteger]

end Calculator
