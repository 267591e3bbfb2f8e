import Calculator.Decimal.Reading
import Calculator.Digits

/-!
# Numeric literals

What the text of a numeric literal denotes. Digits may be separated by single underscores, each
between two digits; a radix mark may be followed by one more.

* `digitsOf`: the digits of a numeral without its separators, or its first fault.
* `digitsOf?`: the same for any radix, with no answer where it takes the digits of one that is no
  base.
* `readDecimal?`: the decimal that a text without separators denotes.
* `decimalInteger`, `markedInteger`, `decimalFloat`: the values of the three kinds of literal.
-/

namespace Calculator

/-- What is wrong with a numeric literal. -/
inductive LiteralFault where
  | missingDigits
  | misplacedSeparator
  | invalidDigit (c : Char) (radix : Nat)
  | leadingZeros
  /-- What is left without the separators is no integer. -/
  | notAnInteger
  /-- What is left without the separators is no float. -/
  | notAFloat
  deriving DecidableEq

def LiteralFault.message : LiteralFault → String
  | .missingDigits => "missing digits"
  | .misplacedSeparator => "misplaced digit separator"
  | .invalidDigit c radix =>
    "invalid digit '" ++ c.toString ++ "' for base " ++ naturalText radix
  | .leadingZeros => "leading zeros are not permitted; use 0o for octal"
  | .notAnInteger => "not a valid integer"
  | .notAFloat => "not a valid float"

namespace Literal

/-- The first fault of a numeral, where `afterDigit` says whether a digit stands before it. -/
def firstFault? (radix : Nat) : (afterDigit : Bool) → List Char → Option LiteralFault
  | true, [] => none
  | false, [] => some .misplacedSeparator
  | afterDigit, c :: cs =>
    if c = '_' then
      if afterDigit then firstFault? radix false cs else some .misplacedSeparator
    else if isDigitOf radix c then firstFault? radix true cs
    else some (.invalidDigit c radix)

/-- The numeral without the one separator that may stand before its first digit. -/
def dropLeadingSeparator : List Char → List Char
  | '_' :: cs => cs
  | cs => cs

/-- The digits of a numeral. With `allowLeading` one separator may precede the first digit. -/
def digitsOf (radix : Nat) (allowLeading : Bool) (cs : List Char) :
    Except LiteralFault (List Char) :=
  let numeral := if allowLeading then dropLeadingSeparator cs else cs
  if numeral.isEmpty then .error .missingDigits
  else
    match firstFault? radix false numeral with
    | some fault => .error fault
    | none => .ok (numeral.filter (· ≠ '_'))

/-- The radixes whose digits a character can be compared with. -/
def isBase (radix : Nat) : Bool := 2 ≤ radix && radix ≤ 36

/-- `digitsOf` for any radix. If it is no base there is an answer only where no character has to be
compared with its digits: if there are no characters, or a separator is the first of them. -/
def digitsOf? (radix : Nat) (allowLeading : Bool) (cs : List Char) :
    Option (Except LiteralFault (List Char)) :=
  let numeral := if allowLeading then dropLeadingSeparator cs else cs
  if isBase radix || numeral.head?.all (· = '_') then some (digitsOf radix allowLeading cs)
  else none

/-! ## Integers -/

/-- The integer that digits denote. -/
def integerOfDigits (radix : Nat) (digits : List Char) : Except LiteralFault Nat :=
  match readNumeral? radix digits with
  | some n => .ok n
  | none => .error .notAnInteger

/-- The value of a decimal integer literal. Only zero may be written with a leading zero. -/
def decimalInteger (cs : List Char) : Except LiteralFault Nat := do
  let digits ← digitsOf 10 false cs
  if digits.head? = some '0' ∧ digits.any (· ≠ '0') then .error .leadingZeros
  else integerOfDigits 10 digits

/-- The radix that the letter after a leading zero marks. -/
def markedRadix (c : Char) : Nat :=
  if c = 'x' ∨ c = 'X' then 16 else if c = 'o' ∨ c = 'O' then 8 else 2

/-- The value of an integer literal whose second character marks its radix. -/
def markedInteger (cs : List Char) : Except LiteralFault Nat := do
  let radix := markedRadix (cs.getD 1 'b')
  integerOfDigits radix (← digitsOf radix true (cs.drop 2))

/-! ## Floats -/

def isExponentMark (c : Char) : Bool := c = 'e' ∨ c = 'E'

/-- The text up to the mark of an exponent. -/
def mantissa (cs : List Char) : List Char := cs.takeWhile (!isExponentMark ·)

/-- The text from the mark of an exponent on. -/
def scale (cs : List Char) : List Char := cs.dropWhile (!isExponentMark ·)

/-- The text of a mantissa before its point. -/
def whole (mantissa : List Char) : List Char := mantissa.takeWhile (· ≠ '.')

/-- The text of a mantissa after its point. -/
def fraction (mantissa : List Char) : List Char := (mantissa.dropWhile (· ≠ '.')).drop 1

/-- The exponent that a text denotes from its mark on; zero if there is none. -/
def readExponent? : List Char → Option Int
  | [] => some 0
  | _ :: '+' :: cs => (readNumeral? 10 cs).map Int.ofNat
  | _ :: '-' :: cs => (readNumeral? 10 cs).map fun n => -Int.ofNat n
  | _ :: cs => (readNumeral? 10 cs).map Int.ofNat

/-- The decimal that a text denotes: digits, perhaps with a point before, among or after them, and
perhaps an exponent. -/
def readDecimal? (cs : List Char) : Option Decimal := do
  let digits ← readNumeral? 10 (whole (mantissa cs) ++ fraction (mantissa cs))
  let exponent ← readExponent? (scale cs)
  return ⟨digits, exponent - (fraction (mantissa cs)).length⟩

/-- The digits of a part of a float literal that may be left out. -/
def optionalDigits (cs : List Char) : Except LiteralFault (List Char) :=
  if cs.isEmpty then .ok [] else digitsOf 10 false cs

/-- The exponent of a float literal without separators, given the text from its mark on. -/
def exponentDigits : List Char → Except LiteralFault (List Char)
  | [] => .ok []
  | _ :: '+' :: cs => do return 'e' :: '+' :: (← digitsOf 10 false cs)
  | _ :: '-' :: cs => do return 'e' :: '-' :: (← digitsOf 10 false cs)
  | _ :: cs => do return 'e' :: (← digitsOf 10 false cs)

/-- A float literal without separators, with a point if it has none. -/
def floatDigits (cs : List Char) : Except LiteralFault (List Char) := do
  let whole ← optionalDigits (whole (mantissa cs))
  let fraction ← optionalDigits (fraction (mantissa cs))
  return whole ++ '.' :: fraction ++ (← exponentDigits (scale cs))

/-- The value of a float literal: the decimal that it denotes, rounded to nearest. -/
def decimalFloat (cs : List Char) : Except LiteralFault Double := do
  match readDecimal? (← floatDigits cs) with
  | some d => .ok d.toDouble
  | none => .error .notAFloat

end Literal

end Calculator
