import Calculator.Double.Arithmetic

/-!
# Powers of binary64 numbers

The power of a positive number is the product of its repeated squares, one for every set bit of
the exponent's integer, and of its repeated square roots, one for every set bit of the fraction.
The factors are kept to `workingBits` significant bits, far beyond the 53 of the result, so that
the last rounding decides the result. Zeros, infinities and NaN follow IEEE 754.

The calculator takes its powers from the platform, which leaves their precision unspecified: where
the exact power lies close to the middle between two numbers, a platform may round to the other one.
What it does specify are the special cases: an exponent zero, a base one, zeros, infinities, NaN,
and negative bases with exponents that are no integers. Results rely on these cases and on the
guards around a power only, not on its digits.

* `Wide`: a positive number of `workingBits` significant bits and any exponent.
* `Wide.power`: powers of such numbers, with the exponent given in units of `2^-1074`.
* `Double.pow`: the rounded power.
-/

namespace Calculator

/-- Newton's iteration toward the square root of `n`, from an upper bound `guess`, until it stops
falling. -/
def floorSqrtFrom (n : Nat) : (steps guess : Nat) → Nat
  | 0, guess => guess
  | steps + 1, guess =>
    let next := (guess + n / guess) / 2
    if next < guess then floorSqrtFrom n steps next else guess

/-- The integer square root: the greatest `r` with `r * r ≤ n`. -/
def floorSqrt (n : Nat) : Nat :=
  if n = 0 then 0 else floorSqrtFrom n (n.log2 + 2) (2 ^ (n.log2 / 2 + 1))

/-- The number of significant bits kept in intermediate results of a power. -/
def workingBits : Nat := 320

/-- The positive number `mantissa * 2^exponent`. -/
structure Wide where
  mantissa : Nat
  exponent : Int

namespace Wide

/-- Drops the bits beyond the working precision. -/
def truncate (x : Wide) : Wide :=
  let surplus := x.mantissa.log2 + 1 - workingBits
  ⟨x.mantissa / 2 ^ surplus, x.exponent + surplus⟩

def one : Wide := ⟨1, 0⟩

def mul (x y : Wide) : Wide := truncate ⟨x.mantissa * y.mantissa, x.exponent + y.exponent⟩

/-- The square root, taken of a mantissa widened to twice the working precision and an even
exponent. -/
def sqrt (x : Wide) : Wide :=
  let widening := 2 * workingBits - x.mantissa.log2
  let shift := widening + ((x.exponent - widening) % 2).toNat
  truncate ⟨floorSqrt (x.mantissa * 2 ^ shift), (x.exponent - shift) / 2⟩

def inverse (x : Wide) : Wide :=
  let shift := x.mantissa.log2 + 1 + workingBits
  truncate ⟨2 ^ shift / x.mantissa, -x.exponent - shift⟩

/-- `x` to the power `n` for an `n` of at most `bits` bits, by squaring. -/
def powBits (x : Wide) : (bits n : Nat) → Wide
  | 0, _ => one
  | bits + 1, n =>
    let rest := powBits (mul x x) bits (n / 2)
    if n % 2 = 1 then mul x rest else rest

/-- `x` to the power `n`. -/
def powNat (x : Wide) (n : Nat) : Wide := if n = 0 then one else powBits x (n.log2 + 1) n

/-- `x` to the power `fraction / 2^places`, for a fraction below `2^places`: each place halves the
exponent of the square root taken for it. -/
def powFraction (x : Wide) (fraction : Nat) : Nat → Wide
  | 0 => one
  | places + 1 =>
    if fraction = 0 then one
    else
      let root := sqrt x
      if fraction / 2 ^ places = 1 then mul root (powFraction root (fraction % 2 ^ places) places)
      else powFraction root fraction places

/-- `x` to the power of `units` units of `2^-1074`. -/
def power (x : Wide) (units : Nat) : Wide :=
  mul (powNat x (units / 2 ^ unitPlaces)) (powFraction x (units % 2 ^ unitPlaces) unitPlaces)

/-- The binary64 number nearest to `x`. Exponents far outside the range are decided without
computing the power of two. -/
def toDouble (negative : Bool) (x : Wide) : Double :=
  let top := x.exponent + x.mantissa.log2
  if 1030 < top then .infinite negative
  else if top < -1100 then Double.zero negative
  else if 0 ≤ x.exponent + unitPlaces then
    .ofRatio negative (x.mantissa * 2 ^ (x.exponent + unitPlaces).toNat) 1
  else
    .ofRatio negative x.mantissa (2 ^ (-(x.exponent + unitPlaces)).toNat)

end Wide

namespace Double

/-- The rounded power of a positive magnitude and a finite exponent. -/
def powMagnitude (negative : Bool) (base : Magnitude) (exponentNegative : Bool)
    (exponent : Magnitude) : Double :=
  let power := Wide.power (Wide.truncate ⟨base.units, -unitPlaces⟩) exponent.units
  (if exponentNegative then power.inverse else power).toDouble negative

/-- What an infinite exponent of the given sign makes of a base whose magnitude compares with 1
as `side` says. -/
def powInfinite (side : Ordering) (exponentNegative : Bool) : Double :=
  match side, exponentNegative with
  | .eq, _ => one
  | .lt, false | .gt, true => zero false
  | .lt, true | .gt, false => .infinite false

/-- `x` to the power `y`. The special cases are those of IEEE 754. The precision of the other powers
is unspecified on the platform; here they are rounded to nearest, and only their signs and whether
they are finite are relied on. -/
def pow (x y : Double) : Double :=
  if y.isZero || x.equal one then one
  else
    match x, y with
    | .nan, _ | _, .nan => .nan
    | .infinite _, .infinite t => powInfinite .gt t
    | .finite _ a, .infinite t => powInfinite (compare a.units unitsPerOne) t
    | .infinite s, .finite t _ =>
      if t then zero (s && y.isOddInteger) else .infinite (s && y.isOddInteger)
    | .finite s a, .finite t b =>
      if a.units = 0 then
        if t then .infinite (s && y.isOddInteger) else zero (s && y.isOddInteger)
      else if s && !y.isIntegral then .nan
      else powMagnitude (s && y.isOddInteger) a t b

end Double

end Calculator
