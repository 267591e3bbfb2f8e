import Calculator.Double.Rounding

/-!
# Binary64 numbers

`Double` is the IEEE 754 binary64 format with its values exact: a finite number is a sign and a
magnitude, the magnitude a natural number of units of `2^-1074` with at most 53 significant bits.
There is one NaN. Rounding happens in `Double.ofRatio` only.

* `ofRatio negative a b`: the number nearest to `a / b` units, infinite beyond the range.
* `ofBits`/`toBits`: the interchange encoding; every NaN encoding reads as `nan`.
* `lt`/`equal`: the comparisons of IEEE 754, in which `-0.0` equals `0.0` and NaN nothing.
-/

namespace Calculator

/-- The magnitude of a finite binary64 number, in units of `2^-1074`. -/
structure Magnitude where
  units : Nat
  keepsPrecision : KeepsPrecision units
  lt_rangeEnd : units < rangeEnd
  deriving DecidableEq

/-- A binary64 number. -/
inductive Double where
  | nan
  | infinite (negative : Bool)
  | finite (negative : Bool) (magnitude : Magnitude)
  deriving DecidableEq

namespace Double

/-- The zero of the given sign. -/
def zero (negative : Bool) : Double := .finite negative ⟨0, rfl, rangeEnd_pos⟩

instance : Inhabited Double := ⟨zero false⟩

/-- The number of the given sign nearest to `a / b` units; infinite when that lies at or beyond
`2^1024`. -/
def ofRatio (negative : Bool) (a b : Nat) : Double :=
  if h : roundToPrecision a b < rangeEnd then
    .finite negative ⟨roundToPrecision a b, keepsPrecision_roundToPrecision a b, h⟩
  else
    .infinite negative

/-- The number nearest to `n` units, where `zeroSign` is the sign of a zero result. -/
def ofUnits (zeroSign : Bool) (n : Int) : Double :=
  if n = 0 then zero zeroSign else ofRatio (n < 0) n.natAbs 1

/-- How many units make one. -/
def unitsPerOne : Nat := 2 ^ unitPlaces

/-- The number nearest to an integer; infinite when the integer is too large. -/
def ofInt (n : Int) : Double := ofUnits false (n * unitsPerOne)

/-- The number 1. -/
def one : Double := ofInt 1

/-- The number 1/2. -/
def half : Double := ofRatio false unitsPerOne 2

/-- `n` units with the sign attached. -/
def signed (negative : Bool) (n : Nat) : Int := if negative then -n else n

def isNaN : Double → Bool
  | .nan => true
  | _ => false

def isInfinite : Double → Bool
  | .infinite _ => true
  | _ => false

def isFinite : Double → Bool
  | .finite _ _ => true
  | _ => false

/-- Zero of either sign. -/
def isZero : Double → Bool
  | .finite _ m => m.units == 0
  | _ => false

/-- The sign bit; that of NaN counts as clear. -/
def signBit : Double → Bool
  | .nan => false
  | .infinite s => s
  | .finite s _ => s

/-- A finite number without fraction. -/
def isIntegral : Double → Bool
  | .finite _ m => m.units % unitsPerOne == 0
  | _ => false

/-- A finite number without fraction whose integer is odd. -/
def isOddInteger : Double → Bool
  | .finite _ m => m.units % unitsPerOne == 0 && m.units / unitsPerOne % 2 == 1
  | _ => false

/-! ## Comparisons -/

/-- `x < y`; false when either is NaN. -/
def lt : Double → Double → Bool
  | .nan, _ | _, .nan => false
  | .infinite s, .infinite t => s && !t
  | .infinite s, .finite _ _ => s
  | .finite _ _, .infinite t => !t
  | .finite s a, .finite t b => signed s a.units < signed t b.units

/-- Numeric equality: the two zeros are equal, and NaN equals nothing. -/
def equal : Double → Double → Bool
  | .infinite s, .infinite t => s == t
  | .finite s a, .finite t b => signed s a.units == signed t b.units
  | _, _ => false

/-- Strictly below zero. -/
def isBelowZero (x : Double) : Bool := x.lt (zero false)

/-! ## The interchange encoding -/

/-- The 63 low bits of a magnitude's encoding. The encodings of the finite magnitudes are
consecutive, in order. -/
def magnitudeBits (n : Nat) : Nat := surplusBits n * 2 ^ 52 + n / 2 ^ surplusBits n

/-- The units that a finite encoding without its sign bit stands for. -/
def unitsOfBits (bits : Nat) : Nat :=
  if bits < 2 ^ 52 then bits else (2 ^ 52 + bits % 2 ^ 52) * 2 ^ (bits / 2 ^ 52 - 1)

/-- The encoding of infinity. -/
def infinityBits : Nat := 2047 * 2 ^ 52

/-- The IEEE 754 encoding; NaN is encoded quiet, positive and without payload. -/
def toBits : Double → UInt64
  | .nan => .ofNat (infinityBits + 2 ^ 51)
  | .infinite s => .ofNat ((if s then 2 ^ 63 else 0) + infinityBits)
  | .finite s m => .ofNat ((if s then 2 ^ 63 else 0) + magnitudeBits m.units)

/-- The number that an IEEE 754 encoding stands for. -/
def ofBits (bits : UInt64) : Double :=
  let negative := decide (2 ^ 63 ≤ bits.toNat)
  let rest := bits.toNat % 2 ^ 63
  if rest < infinityBits then
    ofRatio negative (unitsOfBits rest) 1
  else if rest = infinityBits then
    .infinite negative
  else
    .nan

end Double

end Calculator
