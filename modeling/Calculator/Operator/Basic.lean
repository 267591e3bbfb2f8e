import Calculator.Number.Arithmetic

/-!
# Operators

The seven binary operators and the two signs, their symbols and what they do to numbers.
-/

namespace Calculator

/-- A binary operator. -/
inductive BinaryOp where
  | add
  | sub
  | mul
  | div
  | floorDiv
  | mod
  | pow
  deriving DecidableEq

namespace BinaryOp

def symbol : BinaryOp → String
  | .add => "+"
  | .sub => "-"
  | .mul => "*"
  | .div => "/"
  | .floorDiv => "//"
  | .mod => "%"
  | .pow => "**"

/-- The operator applied to its operands. -/
def apply : BinaryOp → Number → Number → ArithmeticResult
  | .add => Number.add
  | .sub => Number.sub
  | .mul => Number.mul
  | .div => Number.div
  | .floorDiv => Number.floorDiv
  | .mod => Number.mod
  | .pow => Number.pow

/-- Addition and subtraction. -/
def isAdditive : BinaryOp → Bool
  | .add | .sub => true
  | _ => false

/-- Multiplication, the two divisions and the remainder. -/
def isMultiplicative : BinaryOp → Bool
  | .mul | .div | .floorDiv | .mod => true
  | _ => false

end BinaryOp

/-- A sign before an operand. -/
inductive Sign where
  | plus
  | minus
  deriving DecidableEq

namespace Sign

def symbol : Sign → String
  | .plus => "+"
  | .minus => "-"

/-- The sign applied to its operand. -/
def apply : Sign → Number → ArithmeticResult
  | .plus => Number.pos
  | .minus => Number.neg

end Sign

/-- The sign that an operator's symbol is when it stands before an operand. -/
def BinaryOp.sign? : BinaryOp → Option Sign
  | .add => some .plus
  | .sub => some .minus
  | _ => none

end Calculator
