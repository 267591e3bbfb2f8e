import Calculator.Expr.Basic

/-!
# Outlines of expressions

The outline of a tree spreads every node over lines: a title, the fields indented by four blanks
and ended by commas, and a closing bracket.
-/

namespace Calculator

/-- The floats of an outline are plain from `10^-4` up to `10^16`, keep `.0` when integral, and have
exponents without plus sign and padding. -/
def outlineLayout : Layout where
  isPlain exponent := -4 ≤ exponent && exponent < 16
  markIntegral := true
  plusSign := false
  exponentWidth := 1
  nan := "NaN"

namespace Outline

def indent (lines : List String) : List String := lines.map ("    " ++ ·)

/-- The lines with a comma after the last. -/
def withComma : List String → List String
  | [] => []
  | [line] => [line ++ ","]
  | line :: lines => line :: withComma lines

/-- The lines of a field: its name before the first, a comma after the last. -/
def field (name : String) : List String → List String
  | [] => []
  | line :: lines => withComma ((name ++ ": " ++ line) :: lines)

/-- A node with its fields. -/
def node (title : String) (fields : List (List String)) : List String :=
  (title ++ " \x7b") :: indent fields.flatten ++ ["\x7d"]

/-- A value inside the name of its kind. -/
def wrapped (title text : String) : List String := [title ++ "(", "    " ++ text ++ ",", ")"]

def number : Number → List String
  | .integer n => wrapped "Int" (integerText n)
  | .float x => wrapped "Float" (outlineLayout.text x)

def operatorName : BinaryOp → String
  | .add => "Add"
  | .sub => "Sub"
  | .mul => "Mul"
  | .div => "Div"
  | .floorDiv => "FloorDiv"
  | .mod => "Mod"
  | .pow => "Pow"

def signName : Sign → String
  | .plus => "Plus"
  | .minus => "Minus"

/-- The lines of an expression's outline. -/
def lines : Expr → List String
  | .literal v c => node "Number" [field "value" (number v), field "column" [naturalText c]]
  | .signed s e c =>
    node "UnaryOp"
      [field "op" [signName s], field "expr" (lines e), field "column" [naturalText c]]
  | .binary op l r c =>
    node "BinaryOp"
      [field "left" (lines l), field "op" [operatorName op], field "right" (lines r),
        field "column" [naturalText c]]

end Outline

/-- The outline of an expression, its lines ended by line feeds. -/
def Expr.outline (e : Expr) : String := String.join ((Outline.lines e).map (· ++ "\n"))

end Calculator
