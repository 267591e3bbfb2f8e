import Calculator.Double.Basic
import Calculator.Decimal.Shortest

/-!
# Reading decimals

`Decimal.toDouble` gives the binary64 number nearest to a decimal, ties to even. Exponents far
outside the binary64 range are decided without computing the power of ten.
-/

namespace Calculator.Decimal

/-- The exponent from which on every decimal other than zero is infinite. -/
def hugeExponent : Int := 400

/-- The exponent below which every decimal of these digits is nearer to zero than to any other
binary64 number. -/
def tinyExponent (digits : Nat) : Int := -400 - digits.log2

/-- The nearest binary64 number. -/
def toDouble (d : Decimal) : Double :=
  if d.digits = 0 then .zero false
  else if hugeExponent ≤ d.exponent then .infinite false
  else if d.exponent < tinyExponent d.digits then .zero false
  else if 0 ≤ d.exponent then
    .ofRatio false (d.digits * 10 ^ d.exponent.toNat * Double.unitsPerOne) 1
  else
    .ofRatio false (d.digits * Double.unitsPerOne) (10 ^ (-d.exponent).toNat)

end Calculator.Decimal
