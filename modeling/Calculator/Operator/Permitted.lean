import Calculator.Operator.Basic

/-!
# Permitted operators

The operators that an evaluation may apply. Operators can be taken away from the full set; what an
operator does stays the same.
-/

namespace Calculator

/-- The operators that may be applied. -/
structure Permitted where
  binaryOps : List BinaryOp
  signs : List Sign
  deriving DecidableEq

namespace Permitted

/-- Every operator. -/
def all : Permitted where
  binaryOps := [.add, .sub, .mul, .div, .floorDiv, .mod, .pow]
  signs := [.plus, .minus]

def eraseBinary (p : Permitted) (op : BinaryOp) : Permitted :=
  { p with binaryOps := p.binaryOps.filter (· ≠ op) }

def eraseSign (p : Permitted) (sign : Sign) : Permitted :=
  { p with signs := p.signs.filter (· ≠ sign) }

/-- What a binary operator does, if it is permitted. -/
def binary? (p : Permitted) (op : BinaryOp) : Option (Number → Number → ArithmeticResult) :=
  if op ∈ p.binaryOps then some op.apply else none

/-- What a sign does, if it is permitted. -/
def sign? (p : Permitted) (sign : Sign) : Option (Number → ArithmeticResult) :=
  if sign ∈ p.signs then some sign.apply else none

end Permitted

end Calculator
