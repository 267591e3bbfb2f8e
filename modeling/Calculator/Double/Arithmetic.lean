import Calculator.Double.Basic

/-!
# Binary64 arithmetic

Each operation computes its exact result in units of `2^-1074` and rounds once. The cases
without an exact result follow IEEE 754.

* `add`, `sub`, `mul`, `div`: the rounded operations; an exact zero sum is `+0.0` unless both
  operands are `-0.0`.
* `rem`: the remainder of the quotient cut toward zero, exact, with the sign of the dividend.
* `floor`: the greatest integer not above, with the operand's sign on a zero.
* `floorDivision`: floored quotient and the remainder that takes the divisor's sign.
-/

namespace Calculator.Double

def neg : Double → Double
  | .nan => .nan
  | .infinite s => .infinite !s
  | .finite s m => .finite (!s) m

/-- The rounded sum. -/
def add : Double → Double → Double
  | .nan, _ | _, .nan => .nan
  | .infinite s, .infinite t => if s = t then .infinite s else .nan
  | .infinite s, .finite _ _ => .infinite s
  | .finite _ _, .infinite t => .infinite t
  | .finite s a, .finite t b => ofUnits (s && t) (signed s a.units + signed t b.units)

/-- The rounded difference. -/
def sub (x y : Double) : Double := add x (neg y)

/-- The rounded product. -/
def mul : Double → Double → Double
  | .nan, _ | _, .nan => .nan
  | .infinite s, .infinite t => .infinite (s ^^ t)
  | .infinite s, .finite t b => if b.units = 0 then .nan else .infinite (s ^^ t)
  | .finite s a, .infinite t => if a.units = 0 then .nan else .infinite (s ^^ t)
  | .finite s a, .finite t b => ofRatio (s ^^ t) (a.units * b.units) unitsPerOne

/-- The rounded quotient. -/
def div : Double → Double → Double
  | .nan, _ | _, .nan => .nan
  | .infinite _, .infinite _ => .nan
  | .infinite s, .finite t _ => .infinite (s ^^ t)
  | .finite s _, .infinite t => zero (s ^^ t)
  | .finite s a, .finite t b =>
    if b.units = 0 then
      if a.units = 0 then .nan else .infinite (s ^^ t)
    else
      ofRatio (s ^^ t) (a.units * unitsPerOne) b.units

/-- What is left of `x` after the quotient `x / y`, cut toward zero, times `y` is taken off. -/
def rem : Double → Double → Double
  | .finite s a, .finite _ b => if b.units = 0 then .nan else ofRatio s (a.units % b.units) 1
  | .finite s a, .infinite _ => .finite s a
  | _, _ => .nan

/-- The greatest integer that is not above `x`; NaN and the infinities stay. -/
def floor : Double → Double
  | .finite s m =>
    if m.units % unitsPerOne = 0 then .finite s m
    else if s then ofRatio true ((m.units / unitsPerOne + 1) * unitsPerOne) 1
    else ofRatio false (m.units / unitsPerOne * unitsPerOne) 1
  | x => x

instance : Neg Double := ⟨neg⟩
instance : Add Double := ⟨add⟩
instance : Sub Double := ⟨sub⟩
instance : Mul Double := ⟨mul⟩
instance : Div Double := ⟨div⟩
instance : Mod Double := ⟨rem⟩

/-! ## Floor division -/

/-- The remainder that takes the divisor's sign, and the quotient that belongs to it, before that
quotient is brought to an integer. -/
def flooredParts (x y : Double) : Double × Double :=
  let r := x % y
  let q := (x - r) / y
  if r.isZero then (q, zero y.signBit)
  else if y.isBelowZero != r.isBelowZero then (q - one, r + y)
  else (q, r)

/-- The integer nearest to a quotient that is an integer up to rounding: its floor, or one more
when it lies above the middle. -/
def settleQuotient (q : Double) : Double :=
  if half.lt (q - q.floor) then q.floor + one else q.floor

/-- The floored quotient and the remainder of `x` and `y`. The remainder takes the sign of the
divisor, also as a zero; a zero quotient takes the sign of `x / y`. -/
def floorDivision (x y : Double) : Double × Double :=
  let (q, r) := flooredParts x y
  (if q.isZero then zero (x / y).signBit else settleQuotient q, r)

end Calculator.Double
