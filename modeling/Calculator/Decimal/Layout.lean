import Calculator.Decimal.Shortest
import Calculator.Digits

/-!
# Layouts of decimal text

How a binary64 number is written once its shortest decimal is known. A `Layout` holds the choices
in which the texts of the calculator differ; the rest is common to them all: the decimal mark is a
point, a plain number has a digit before it, `e` stands before an exponent, infinity is `inf`, and a
minus sign stands before every number whose sign bit is set.

The exponent that a layout looks at is the decimal exponent of the leading digit.
-/

namespace Calculator

/-- The choices of a decimal text. -/
structure Layout where
  /-- Whether a number with this exponent is written without exponent. -/
  isPlain : Int → Bool
  /-- Whether a plain number without fraction gets `.0`. -/
  markIntegral : Bool
  /-- Whether a plus sign is written before an exponent that is not negative. -/
  plusSign : Bool
  /-- The least number of digits of an exponent. -/
  exponentWidth : Nat
  /-- What is written for NaN. -/
  nan : String

namespace Layout

/-- `count` zeros. -/
def zeros (count : Nat) : List Char := List.replicate count '0'

/-- Digits `ds` in plain notation, the first of them at the place of `10^exponent`. -/
def plain (layout : Layout) (ds : List Char) (exponent : Int) : List Char :=
  if exponent < 0 then
    '0' :: '.' :: zeros (-exponent - 1).toNat ++ ds
  else
    let whole := exponent.toNat + 1
    if ds.length ≤ whole then
      ds ++ zeros (whole - ds.length) ++ (if layout.markIntegral then ['.', '0'] else [])
    else
      ds.take whole ++ '.' :: ds.drop whole

/-- Digits `ds` in scientific notation. -/
def scientific (layout : Layout) (ds : List Char) (exponent : Int) : List Char :=
  let places := decimalDigits exponent.natAbs
  ds.take 1 ++ (if ds.length ≤ 1 then [] else '.' :: ds.drop 1)
    ++ 'e' :: (if exponent < 0 then ['-'] else if layout.plusSign then ['+'] else [])
    ++ zeros (layout.exponentWidth - places.length) ++ places

/-- The text of a decimal. -/
def decimalText (layout : Layout) (d : Decimal) : List Char :=
  let ds := decimalDigits d.digits
  let exponent := d.exponent + ds.length - 1
  if layout.isPlain exponent then layout.plain ds exponent else layout.scientific ds exponent

/-- The text of a binary64 number. -/
def text (layout : Layout) : Double → String
  | .nan => layout.nan
  | .infinite s => if s then "-inf" else "inf"
  | .finite s m =>
    let digits := layout.decimalText (.shortest m.units)
    String.ofList (if s then '-' :: digits else digits)

end Layout

end Calculator
