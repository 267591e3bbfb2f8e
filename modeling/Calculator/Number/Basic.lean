import Calculator.Decimal.Layout
import Calculator.Double.Conversion

/-!
# Numbers

The values of the calculator: integers of any size and binary64 numbers. The two kinds stay apart:
`4` and `4.0` are different numbers with different texts.
-/

namespace Calculator

/-- What can go wrong in an operation on numbers. -/
inductive ArithmeticFault where
  | divisionByZero
  | floorDivisionByZero
  | moduloByZero
  | zeroToNegativePower
  /-- A negative base with a fractional exponent has no real power. -/
  | complexResult
  | integerPowerTooLarge
  | floatPowerOutOfRange
  | integerQuotientTooLarge
  /-- An integer that has to become a binary64 number lies beyond their range. -/
  | integerTooLargeForFloat
  deriving DecidableEq

namespace ArithmeticFault

/-- The wording of an overflow. -/
def overflowMessage (reason : String) : String := "numeric result out of range: " ++ reason

def message : ArithmeticFault → String
  | .divisionByZero => "division by zero"
  | .floorDivisionByZero => "floor division by zero"
  | .moduloByZero => "modulo by zero"
  | .zeroToNegativePower => "0 cannot be raised to a negative power"
  | .complexResult => "negative number cannot be raised to a fractional power"
  | .integerPowerTooLarge => overflowMessage "integer power too large"
  | .floatPowerOutOfRange => overflowMessage "float power out of range"
  | .integerQuotientTooLarge => overflowMessage "integer division result too large for a float"
  | .integerTooLargeForFloat => "integer too large to convert to float"

end ArithmeticFault

/-- A value of the calculator. -/
inductive Number where
  | integer (n : Int)
  | float (x : Double)
  deriving DecidableEq

namespace Number

/-- The least exponent that is written in scientific notation for its size. -/
def scientificUpperExponent : Int := 16

/-- The least exponent that is written in plain notation. -/
def scientificLowerExponent : Int := -4

/-- Results are plain from `10^-4` up to `10^16`, keep `.0` on integral floats, and have signed
exponents of at least two digits. -/
def layout : Layout where
  isPlain exponent := scientificLowerExponent ≤ exponent && exponent < scientificUpperExponent
  markIntegral := true
  plusSign := true
  exponentWidth := 2
  nan := "nan"

/-- The text of a binary64 result. -/
def floatText (x : Double) : String := layout.text x

/-- The text of a number. -/
def text : Number → String
  | .integer n => integerText n
  | .float x => floatText x

/-- The integer zero or a float zero of either sign. -/
def isZero : Number → Bool
  | .integer n => n == 0
  | .float x => x.isZero

/-- The number as a binary64 number, if it does not lie beyond their range. -/
def toDouble : Number → Except ArithmeticFault Double
  | .float x => .ok x
  | .integer n =>
    if (Double.ofOperand n).isFinite then .ok (.ofOperand n) else .error .integerTooLargeForFloat

/-- Equality of numbers: an integer never equals a float, and floats compare numerically. -/
def equal : Number → Number → Bool
  | .integer m, .integer n => m == n
  | .float x, .float y => x.equal y
  | _, _ => false

end Number

end Calculator
