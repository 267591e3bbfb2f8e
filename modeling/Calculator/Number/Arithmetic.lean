import Calculator.Double.Power
import Calculator.Double.Scaling
import Calculator.Number.Basic

/-!
# Arithmetic of numbers

Two integers stay integers under `+ - * // % **`; any other pair of operands, and every `/`, gives
a binary64 number.

* `add`, `sub`, `mul`, `floorDiv`, `mod`: exact on integers, rounded on floats.
* `div`: two integers of any size are divided exactly before rounding.
* `pow`: exact for integers while the result is not too large.
-/

namespace Calculator

/-- The outcome of an operation on numbers. -/
abbrev ArithmeticResult := Except ArithmeticFault Number

namespace Number

/-- Two integers are combined as integers; otherwise both operands become binary64 numbers, the
left one first. -/
def combine (onIntegers : Int → Int → Int) (onFloats : Double → Double → Double) :
    Number → Number → ArithmeticResult
  | .integer m, .integer n => .ok (.integer (onIntegers m n))
  | x, y => do
    let a ← x.toDouble
    let b ← y.toDouble
    return .float (onFloats a b)

def add : Number → Number → ArithmeticResult := combine (· + ·) (· + ·)

def sub : Number → Number → ArithmeticResult := combine (· - ·) (· - ·)

def mul : Number → Number → ArithmeticResult := combine (· * ·) (· * ·)

/-- The quotient rounded toward negative infinity. -/
def floorDiv (x y : Number) : ArithmeticResult :=
  if y.isZero then .error .floorDivisionByZero
  else combine Int.fdiv (fun a b => (Double.floorDivision a b).1) x y

/-- The remainder that takes the sign of the divisor. -/
def mod (x y : Number) : ArithmeticResult :=
  if y.isZero then .error .moduloByZero
  else combine Int.fmod (fun a b => (Double.floorDivision a b).2) x y

/-! ## True division -/

/-- The number of bits of the magnitude of an integer. -/
def bitLength (n : Int) : Nat := if n = 0 then 0 else n.natAbs.log2 + 1

/-- The bits of a binary64 significand: integers of at most so many are exact as floats. -/
def significandBits : Nat := 53

/-- The least number of significant bits of a scaled integer quotient. -/
def quotientPrecision : Nat := 64

/-- The magnitude of `a / b`: the dividend or the divisor is shifted so that the integer quotient
has at least `quotientPrecision` bits, a remainder is recorded in its lowest bit, and the rounded
quotient is scaled back. -/
def scaledQuotient (a b : Nat) : Double :=
  let target := bitLength b + quotientPrecision
  let up := target - bitLength a
  let down := bitLength a - target
  let dividend := a * 2 ^ up
  let divisor := b * 2 ^ down
  let quotient := dividend / divisor
  let sticky := if dividend % divisor = 0 then quotient else quotient ||| 1
  (Double.ofInt sticky).scale ((down : Int) - up)

/-- `a / b` by the scaled integer quotient of the magnitudes. -/
def divideScaled (a b : Int) : ArithmeticResult :=
  let magnitude := scaledQuotient a.natAbs b.natAbs
  if magnitude.isInfinite then .error .integerQuotientTooLarge
  else .ok (.float (if decide (a < 0) != decide (b < 0) then -magnitude else magnitude))

/-- `a / b` for a divisor other than zero: directly where both are exact as floats, otherwise by
the scaled integer quotient. -/
def divideIntegers (a b : Int) : ArithmeticResult :=
  if bitLength a ≤ significandBits ∧ bitLength b ≤ significandBits then
    .ok (.float (Double.ofInt a / Double.ofInt b))
  else divideScaled a b

/-- The quotient, always a float. -/
def div (x y : Number) : ArithmeticResult :=
  if y.isZero then .error .divisionByZero
  else
    match x, y with
    | .integer m, .integer n => divideIntegers m n
    | x, y => do
      let a ← x.toDouble
      let b ← y.toDouble
      return .float (a / b)

/-! ## Powers -/

/-- An integer power is refused when its size is more. -/
def maxPowerBits : Nat := 1000000

/-- The greatest number that a word holds. -/
def greatestWord : Nat := 2 ^ wordBits - 1

/-- The size of a power: the bit length of its base times its exponent, counted in a word. Where the
exponent or the product does not fit, the greatest word stands for it. -/
def powerSize (base : Int) (exponent : Nat) : Nat :=
  if exponent ≤ greatestWord then min (bitLength base * exponent) greatestWord else greatestWord

/-- The greatest exponent of a power that is computed; it fits in half a word. -/
def greatestExponent : Nat := 2 ^ (wordBits / 2) - 1

/-- `base^exponent`, with the sign taken apart from the magnitude. -/
def integerPower (base : Int) (exponent : Nat) : Int :=
  let magnitude := base.natAbs ^ exponent
  if base < 0 ∧ exponent % 2 = 1 then -magnitude else magnitude

/-- The power of an integer. Bases of magnitude at most one have a power for every exponent. -/
def powIntegers (base : Int) (exponent : Nat) : ArithmeticResult :=
  if exponent = 0 then .ok (.integer 1)
  else if base = 0 ∨ base = 1 then .ok (.integer base)
  else if base = -1 then .ok (.integer (if exponent % 2 = 0 then 1 else base))
  else if maxPowerBits < powerSize base exponent then .error .integerPowerTooLarge
  else if greatestExponent < exponent then .error .integerPowerTooLarge
  else .ok (.integer (integerPower base exponent))

/-- The power of a float. Finite operands give a finite power or an error. -/
def powFloats (base exponent : Double) : ArithmeticResult :=
  if exponent.isZero || base.equal .one then .ok (.float .one)
  else if base.isZero && exponent.isBelowZero then .error .zeroToNegativePower
  else if base.isFinite && base.isBelowZero && exponent.isFinite && !exponent.isIntegral then
    .error .complexResult
  else
    let power := base.pow exponent
    if power.isInfinite && base.isFinite && exponent.isFinite then .error .floatPowerOutOfRange
    else .ok (.float power)

/-- The power: exact for integers with an exponent that is not negative, else a float. -/
def pow (base exponent : Number) : ArithmeticResult :=
  match base, exponent with
  | .integer b, .integer (.ofNat e) => powIntegers b e
  | base, exponent => do
    let x ← base.toDouble
    let y ← exponent.toDouble
    powFloats x y

/-! ## Signs -/

def pos (x : Number) : ArithmeticResult := .ok x

def neg : Number → ArithmeticResult
  | .integer n => .ok (.integer (-n))
  | .float x => .ok (.float (-x))

end Number

end Calculator
