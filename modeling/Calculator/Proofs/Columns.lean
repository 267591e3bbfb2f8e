import Calculator.Calculation
import Calculator.Proofs.Evaluation.PostOrder
import Calculator.Proofs.Parser.Recognition

/-!
# Columns are labels

The parser and the evaluator copy the columns of tokens into trees and errors and never compare
them. Tokens with other columns therefore have the same result with other columns.

* `Placed.mapColumn`, `Expr.mapColumns`, `ParseError.mapColumn`, `EvalError.mapColumn`: tokens, trees
  and errors with other columns.
* `Run.mapColumns`: every run of the parser takes the same course on tokens with other columns.
* `parseAll_mapColumns`, `Evaluator.value_mapColumns`: so do parsing and evaluation.
-/

namespace Calculator

/-! ## Other columns -/

/-- The token at another column. -/
def Placed.mapColumn (σ : Nat → Nat) (t : Placed) : Placed := ⟨t.token, σ t.column⟩

/-- The tree with another column at each node. -/
def Expr.mapColumns (σ : Nat → Nat) : Expr → Expr
  | .literal v column => .literal v (σ column)
  | .signed sign e column => .signed sign (e.mapColumns σ) (σ column)
  | .binary op l r column => .binary op (l.mapColumns σ) (r.mapColumns σ) (σ column)

/-- The fault at another column. -/
def ParseError.mapColumn (σ : Nat → Nat) (e : ParseError) : ParseError := ⟨e.fault, σ e.column⟩

/-- The error at another column, if it has one. -/
def EvalError.mapColumn (σ : Nat → Nat) : EvalError → EvalError
  | .unsupportedBinary op column => .unsupportedBinary op (σ column)
  | .unsupportedSign sign column => .unsupportedSign sign (σ column)
  | .arithmetic cause column => .arithmetic cause (σ column)
  | .nestingTooDeep limit => .nestingTooDeep limit

def CalculationError.mapColumn (σ : Nat → Nat) : CalculationError → CalculationError
  | .parse error => .parse (error.mapColumn σ)
  | .eval error => .eval (error.mapColumn σ)

/-! ## Parsing -/

def Outcome.mapColumns (σ : Nat → Nat) : Outcome → Outcome
  | .done e rest => .done (e.mapColumns σ) (rest.map (·.mapColumn σ))
  | .failed error rest levels => .failed (error.mapColumn σ) (rest.map (·.mapColumn σ)) levels

def Setting.mapColumn (σ : Nat → Nat) (s : Setting) : Setting := ⟨s.limit, σ s.endColumn⟩

def Goal.mapColumns (σ : Nat → Nat) : Goal → Goal
  | .level l => .level l
  | .nested column l => .nested (σ column) l
  | .rest c left => .rest c (left.mapColumns σ)

section

variable {σ : Nat → Nat}

theorem Avoids.mapColumn {property : BinaryOp → Bool} {ts : List Placed} (h : Avoids property ts) :
    Avoids property (ts.map (·.mapColumn σ)) := by
  cases ts with
  | nil => exact .nil
  | cons t ts =>
    refine .cons fun op ht => ?_
    obtain ⟨token, column⟩ := t
    obtain rfl : token = .operator op := ht
    exact h.head

/-- The course of a run does not depend on columns. -/
theorem Run.mapColumns {setting : Setting} {k : Nat} {goal : Goal} {ts : List Placed} {o : Outcome}
    (h : Run setting k goal ts o) :
    Run (setting.mapColumn σ) k (goal.mapColumns σ) (ts.map (·.mapColumn σ)) (o.mapColumns σ) := by
  induction h with
  | integer => exact .integer
  | float => exact .float
  | endOfInput => exact .endOfInput
  | refused ht => exact .refused ht
  | group _ ih => exact .group ih
  | groupUnclosed _ ih => exact .groupUnclosed ih
  | groupRefused _ ht ih => exact .groupRefused ih ht
  | groupFailed _ ih => exact .groupFailed ih
  | tooDeep => exact .tooDeep
  | deeper _ ih => exact .deeper ih
  | base _ ha ih => exact .base ih ha.mapColumn
  | baseFailed _ ih => exact .baseFailed ih
  | power _ _ ihb ihx => exact .power ihb ihx
  | powerFailed _ _ ihb ihx => exact .powerFailed ihb ihx
  | unsigned ha _ ih => exact .unsigned ha.mapColumn ih
  | signed _ ih => exact .signed ih
  | signedFailed _ ih => exact .signedFailed ih
  | first c _ _ iho ihr => exact .first c iho ihr
  | firstFailed c _ ih => exact .firstFailed c ih
  | stop ha => exact .stop ha.mapColumn
  | next ha _ _ iho ihr => exact .next ha iho ihr
  | nextFailed ha _ ih => exact .nextFailed ha ih

/-- Parsing gives the same tree or the same fault, with other columns. -/
theorem parseAll_mapColumns (σ : Nat → Nat) (ts : List Placed) (endColumn limit : Nat) :
    (Cursor.start (ts.map (·.mapColumn σ)) (σ endColumn) limit).parseAll.1 =
      ((Cursor.start ts endColumn limit).parseAll.1.map (·.mapColumns σ)).mapError
        (·.mapColumn σ) := by
  have hrun := (run_parse ⟨limit, endColumn⟩ limit (.level .additive) ts).mapColumns (σ := σ)
  rw [parseAll_start, parseAll_start]
  change Run ⟨limit, σ endColumn⟩ limit (.level .additive) _ _ at hrun
  rw [hrun.eq_parse]
  cases Goal.parse ⟨limit, endColumn⟩ limit (.level .additive) ts with
  | done e rest => cases rest <;> rfl
  | failed => rfl

/-! ## Evaluation -/

namespace Evaluator

variable {ev : Evaluator}

theorem applySign_mapColumn (sign : Sign) (x : Number) (column : Nat) :
    ev.applySign sign x (σ column) = (ev.applySign sign x column).mapError (·.mapColumn σ) := by
  unfold applySign
  cases ev.permitted.sign? sign with
  | none => rfl
  | some f =>
    dsimp only
    cases f x <;> rfl

theorem applyBinary_mapColumn (op : BinaryOp) (x y : Number) (column : Nat) :
    ev.applyBinary op x y (σ column) =
      (ev.applyBinary op x y column).mapError (·.mapColumn σ) := by
  unfold applyBinary
  cases ev.permitted.binary? op with
  | none => rfl
  | some f =>
    dsimp only
    cases f x y <;> rfl

theorem recurse_mapColumns (depth : Nat) (e : Expr) :
    ev.recurse depth (e.mapColumns σ) = (ev.recurse depth e).mapError (·.mapColumn σ) := by
  induction e generalizing depth with
  | literal v column =>
    rcases Nat.lt_or_ge ev.limit depth with h | h
    · rw [recurse_of_lt h, recurse_of_lt h]; rfl
    · rw [Expr.mapColumns, recurse_literal h, recurse_literal h]; rfl
  | signed sign operand column ih =>
    rcases Nat.lt_or_ge ev.limit depth with h | h
    · rw [recurse_of_lt h, recurse_of_lt h]; rfl
    · rw [Expr.mapColumns, recurse_signed h, recurse_signed h, ih]
      cases ev.recurse (depth + 1) operand with
      | error => rfl
      | ok x => exact applySign_mapColumn sign x column
  | binary op left right column ihl ihr =>
    rcases Nat.lt_or_ge ev.limit depth with h | h
    · rw [recurse_of_lt h, recurse_of_lt h]; rfl
    · rw [Expr.mapColumns, recurse_binary h, recurse_binary h, ihl, ihr]
      cases ev.recurse depth left with
      | error => rfl
      | ok x =>
        cases ev.recurse (depth + 1) right with
        | error => rfl
        | ok y => exact applyBinary_mapColumn op x y column

/-- A tree with other columns has the same value, or the same error with another column. -/
theorem value_mapColumns (e : Expr) :
    ev.value (e.mapColumns σ) = (ev.value e).mapError (·.mapColumn σ) := by
  rw [value, value, valueAt_eq_recurse, valueAt_eq_recurse, recurse_mapColumns]

end Evaluator

end

end Calculator
