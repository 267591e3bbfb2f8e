import Calculator.Double.Basic

/-!
# Integers as operands of floats

An integer that meets a float is converted as by the library of big integers that the calculator
stands on, which is not always the rounding to nearest even of the integer itself.

The integer is rounded from its 64 leading bits. The lowest of them is set as well
when a set bit is found among those cut off, which keeps the rounding from taking the number for a
tie. The search goes through the words of 64 bits below the top word, but looks only at as many low
bits of each as the top word has. It is complete for integers of at most 128 bits and for those that
fill their top word: there the conversion rounds to nearest even, and so does the test for integers
that are too large, which fill their top word. Elsewhere a number just above a tie may be rounded as
the tie: `2^128 + 2^75 + 2^63` becomes `2^128`, although the next number is nearer.

* `hasLowBits`: the search.
* `leadingPart`: the number that is rounded in place of a natural number.
* `Double.ofOperand`: the binary64 number that an integer becomes.
-/

namespace Calculator

/-- The bits of a word. -/
def wordBits : Nat := 64

/-- The number of bits in the top word of `n`. -/
def topWordBits (n : Nat) : Nat := n.log2 % wordBits + 1

/-- Whether one of so many words of `n`, from the lowest up, has a set bit among its `width` low
bits. -/
def hasLowBits (width : Nat) : (words n : Nat) → Bool
  | 0, _ => false
  | words + 1, n => n % 2 ^ width != 0 || hasLowBits width words (n / 2 ^ wordBits)

/-- How many bits of `n` lie below its 64 leading bits. -/
def bitsBelowLeading (n : Nat) : Nat := n.log2 + 1 - wordBits

/-- The 64 leading bits of `n`, the lowest of them set when the search finds a bit below them. -/
def leadingBits (n : Nat) : Nat :=
  let leading := n / 2 ^ bitsBelowLeading n
  if hasLowBits (topWordBits n) (n.log2 / wordBits) n then leading ||| 1 else leading

/-- The number that is rounded in place of `n`. -/
def leadingPart (n : Nat) : Nat :=
  if bitsBelowLeading n = 0 then n else leadingBits n * 2 ^ bitsBelowLeading n

/-- The binary64 number that an integer becomes as an operand of a float; infinite when the integer
is too large. Up to 128 bits it is the nearest one, ties to even; above, the tie that an integer is
just beyond may decide. -/
def Double.ofOperand (n : Int) : Double := .ofInt (signed (n < 0) (leadingPart n.natAbs))

end Calculator
