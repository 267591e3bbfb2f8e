import Calculator.Power

/-!
# Digits

Numerals as lists of digit characters. A digit of radix at most 36 is an ASCII digit or an ASCII
letter of either case.

* `digitValue? radix c`: the value of a digit character below the radix.
* `numeralValue radix cs`: the number that a list of digits denotes.
* `readNumeral? radix cs`: the number that a text denotes, if it is a numeral.
* `decimalDigits n`: the decimal digits of `n`, without leading zeros.
-/

namespace Calculator

/-- The value of an ASCII digit or letter as a digit; letters count from ten in either case. -/
def asciiDigitValue? (c : Char) : Option Nat :=
  if '0' ≤ c ∧ c ≤ '9' then some (c.toNat - 48)
  else if 'a' ≤ c ∧ c ≤ 'z' then some (c.toNat - 87)
  else if 'A' ≤ c ∧ c ≤ 'Z' then some (c.toNat - 55)
  else none

/-- The value of `c` as a digit of the radix, if it is one. -/
def digitValue? (radix : Nat) (c : Char) : Option Nat :=
  (asciiDigitValue? c).filter (· < radix)

/-- A digit of the radix. -/
def isDigitOf (radix : Nat) (c : Char) : Bool := (digitValue? radix c).isSome

/-- The number that a list of digits denotes, the first digit most significant. -/
def numeralValue (radix : Nat) (cs : List Char) : Nat :=
  cs.foldl (fun n c => n * radix + (digitValue? radix c).getD 0) 0

/-- The number that a text denotes; none if it is empty or has a character that is no digit. -/
def readNumeral? (radix : Nat) (cs : List Char) : Option Nat :=
  if !cs.isEmpty && cs.all (isDigitOf radix) then some (numeralValue radix cs) else none

/-- The character of a decimal digit. -/
def decimalDigit (d : Nat) : Char := Char.ofNat (48 + d % 10)

/-- The last `2^w` decimal digits of `n`, with leading zeros. Each half is a numeral of half the
width, so that long numerals are split evenly. -/
def paddedDigits : Nat → Nat → List Char
  | 0, n => [decimalDigit n]
  | w + 1, n => paddedDigits w (n / 10 ^ 2 ^ w) ++ paddedDigits w (n % 10 ^ 2 ^ w)

/-- The decimal digits of `n`, without leading zeros; `0` for zero. -/
def decimalDigits (n : Nat) : List Char :=
  if n = 0 then ['0']
  else (paddedDigits ((n.log2 + 1).log2 + 1) n).dropWhile (· == '0')

/-- The decimal numeral of an integer, with a minus sign if it is negative. -/
def integerText (n : Int) : String :=
  String.ofList (if n < 0 then '-' :: decimalDigits n.natAbs else decimalDigits n.natAbs)

/-- The decimal numeral of a natural number. -/
def naturalText (n : Nat) : String := integerText n

end Calculator
