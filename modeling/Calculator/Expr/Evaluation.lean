import Calculator.Expr.Basic
import Calculator.Operator.Permitted

/-!
# Evaluation

An evaluator computes the value of a tree with the operators it is permitted, from left to right;
the first failure ends the evaluation. Signed operands and right operands lie one level deeper than
their operation, left operands at the same level, so that chains such as `1 + 2 + 3` have no depth.
Trees deeper than the limit are refused.

* `Evaluator.value`: the value of a tree.
* `Evaluator.forNesting`: an evaluator for every tree that parses under a limit on nesting.
-/

namespace Calculator

/-- Why a tree has no value. -/
inductive EvalError where
  | unsupportedBinary (op : BinaryOp) (column : Nat)
  | unsupportedSign (sign : Sign) (column : Nat)
  /-- The operator at `column` failed. -/
  | arithmetic (cause : ArithmeticFault) (column : Nat)
  | nestingTooDeep (limit : Nat)
  deriving DecidableEq

namespace EvalError

/-- The wording for an operator that is not permitted. -/
def unsupportedMessage (arity symbol : String) (column : Nat) : String :=
  "unsupported " ++ arity ++ " operator '" ++ symbol ++ "' at column " ++ naturalText column

def message : EvalError → String
  | .unsupportedBinary op column => unsupportedMessage "binary" op.symbol column
  | .unsupportedSign sign column => unsupportedMessage "unary" sign.symbol column
  | .arithmetic cause column => cause.message ++ " (at column " ++ naturalText column ++ ")"
  | .nestingTooDeep limit => "expression nested too deeply (limit " ++ naturalText limit ++ ")"

end EvalError

/-- The limit on the depth of trees unless another is set. -/
def defaultEvaluationLimit : Nat := 512

/-- The greatest limit that can be set. -/
def greatestLimit : Nat := 2 ^ 64 - 1

/-- The operators that may be applied and how deep a tree may be. -/
structure Evaluator where
  permitted : Permitted
  limit : Nat
  deriving DecidableEq

namespace Evaluator

/-- The evaluator of the operators given, with the default limit. -/
def ofPermitted (permitted : Permitted) : Evaluator := ⟨permitted, defaultEvaluationLimit⟩

/-- The evaluator with every operator and the default limit. -/
def standard : Evaluator := ofPermitted .all

def withLimit (ev : Evaluator) (limit : Nat) : Evaluator := { ev with limit }

/-- A standard evaluator for every tree that parses under a limit on nesting. Each nesting level of
the source adds at most two levels to the tree. -/
def forNesting (nesting : Nat) : Evaluator :=
  standard.withLimit
    (max (min (min (2 * nesting) greatestLimit + 3) greatestLimit) defaultEvaluationLimit)

/-- Applies the sign at `column`. -/
def applySign (ev : Evaluator) (sign : Sign) (x : Number) (column : Nat) :
    Except EvalError Number :=
  match ev.permitted.sign? sign with
  | none => .error (.unsupportedSign sign column)
  | some f => (f x).mapError (.arithmetic · column)

/-- Applies the binary operator at `column`. -/
def applyBinary (ev : Evaluator) (op : BinaryOp) (x y : Number) (column : Nat) :
    Except EvalError Number :=
  match ev.permitted.binary? op with
  | none => .error (.unsupportedBinary op column)
  | some f => (f x y).mapError (.arithmetic · column)

/-- The value of a tree at a depth. The chain of a binary operation is walked from its leftmost
operand; each link's operand is evaluated one level deeper and then combined. -/
def valueAt (ev : Evaluator) (depth : Nat) (e : Expr) : Except EvalError Number :=
  if ev.limit < depth then .error (.nestingTooDeep ev.limit)
  else
    match e with
    | .literal v _ => .ok v
    | .signed sign operand column => do
      let x ← ev.valueAt (depth + 1) operand
      ev.applySign sign x column
    | .binary op left right column => do
      let first ← ev.valueAt depth (Expr.spine (.binary op left right column)).1
      (Expr.spine (.binary op left right column)).2.attach.foldlM
        (fun x k => do
          let y ← ev.valueAt (depth + 1) k.1.right
          ev.applyBinary k.1.op x y k.1.column)
        first
termination_by sizeOf e
decreasing_by
  · simp only [Expr.signed.sizeOf_spec]
    omega
  · exact Expr.sizeOf_spine_lt ..
  · exact Expr.sizeOf_right_lt_of_mem_spine k.2

/-- The value of a tree. -/
def value (ev : Evaluator) (e : Expr) : Except EvalError Number := ev.valueAt 1 e

end Evaluator

end Calculator
