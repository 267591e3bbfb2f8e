import Calculator.Expr.Evaluation
import Calculator.Parser.Cursor

/-!
# Calculations

From a source text to its value: parsing, then evaluation.
-/

namespace Calculator

/-- Why a source text has no value. -/
inductive CalculationError where
  | parse (error : ParseError)
  | eval (error : EvalError)
  deriving DecidableEq

def CalculationError.message : CalculationError → String
  | .parse error => error.message
  | .eval error => error.message

/-- The value of a tree, with all operators and the default limit. -/
def evaluate (e : Expr) : Except EvalError Number := Evaluator.standard.value e

/-- The value of a source text, with all operators and the default limits. -/
def calculate (source : String) : Except CalculationError Number := do
  let tree ← (parse source).mapError .parse
  (evaluate tree).mapError .eval

end Calculator
