import Calculator.Parser.Cursor

/-!
# The parser as functions that call one another

The levels of the grammar as functions over one cursor, which counts the levels that are open: a
function opens a level before it calls what is nested, and closes it after. How many calls may be
active at a time is bounded, and a call too many is an ending of its own.

* `Descent`: what a function does with a cursor. It never gives tokens back, so that the loops over
  operators end.
* `Descent.loop`: the loop over the operators of a chain.
* `Routine`: the functions of the parser.
* `Routine.body`: what each of them does, given what the others do.
* `Routine.within n`: a function of which at most `n` calls may be active at a time, this one and
  those inside of it.
-/

namespace Calculator

/-! ## What functions do with a cursor -/

/-- What a function does with a cursor: it ends with a result or an error and the cursor where it
stopped, or it runs out of calls. It never gives tokens back. -/
structure Descent (α : Type) where
  run : Cursor → Option (Except ParseError α × Cursor)
  length_le : ∀ {c r c'}, run c = some (r, c') → c'.tokens.length ≤ c.tokens.length

namespace Descent

variable {α β : Type}

protected def pure (a : α) : Descent α where
  run c := some (.ok a, c)
  length_le h := by
    cases h
    exact Nat.le_refl _

protected def bind (x : Descent α) (f : α → Descent β) : Descent β where
  run c :=
    match x.run c with
    | some (.ok a, c') => (f a).run c'
    | some (.error e, c') => some (.error e, c')
    | none => none
  length_le {c r c'} h := by
    split at h
    · next hx => exact Nat.le_trans ((f _).length_le h) (x.length_le hx)
    · next hx =>
      cases h
      exact x.length_le hx
    · cases h

instance : Monad Descent where
  pure := Descent.pure
  bind := Descent.bind

/-- One call too many. -/
def outOfCalls : Descent α where
  run _ := none
  length_le := nofun

def fail (e : ParseError) : Descent α where
  run c := some (.error e, c)
  length_le h := by
    cases h
    exact Nat.le_refl _

/-- The next token, which stays. -/
def peek : Descent (Option Placed) where
  run c := some (.ok c.peek, c)
  length_le h := by
    cases h
    exact Nat.le_refl _

/-- The next token, which is consumed. -/
def next : Descent (Option Placed) where
  run c := some (.ok c.peek, c.advance)
  length_le {c r c'} h := by
    cases h
    show (c.tokens.drop 1).length ≤ _
    rw [List.length_drop]
    exact Nat.sub_le _ _

def endColumn : Descent Nat where
  run c := some (.ok c.endColumn, c)
  length_le h := by
    cases h
    exact Nat.le_refl _

/-- Opens a nesting level for the token at `column`. -/
def enter (column : Nat) : Descent Unit where
  run c :=
    match c.enter column with
    | .ok c' => some (.ok (), c')
    | .error e => some (.error e, c)
  length_le {c r c'} h := by
    unfold Cursor.enter at h
    split at h
    · next hc =>
      split at hc
      · cases hc
      · cases hc
        cases h
        exact Nat.le_refl _
    · cases h
      exact Nat.le_refl _

/-- Closes a nesting level. -/
def leave : Descent Unit where
  run c := some (.ok (), c.leave)
  length_le h := by
    cases h
    exact Nat.le_refl _

/-- What the token at `column` opens, one level deeper. A failure leaves the level open. -/
def nested (column : Nat) (x : Descent α) : Descent α := do
  enter column
  let a ← x
  leave
  return a

/-! ## Loops -/

/-- Goes on with the operators accepted, after the left operand `left`. -/
def loopFrom (accepts : BinaryOp → Bool) (operand : Descent Expr) (left : Expr) (c : Cursor) :
    Option (Except ParseError Expr × Cursor) :=
  match _hpeek : c.peek with
  | some ⟨.operator op, column⟩ =>
    if accepts op then
      match _hrun : operand.run c.advance with
      | some (.ok right, c') => loopFrom accepts operand (.binary op left right column) c'
      | some (.error e, c') => some (.error e, c')
      | none => none
    else some (.ok left, c)
  | _ => some (.ok left, c)
termination_by c.tokens.length
decreasing_by
  obtain ⟨ts, hts⟩ := List.head?_eq_some_iff.1 _hpeek
  have hle := operand.length_le _hrun
  rw [Cursor.advance, hts] at hle
  rw [hts]
  exact Nat.lt_succ_of_le hle

theorem length_loopFrom_le {accepts : BinaryOp → Bool} {operand : Descent Expr} {left : Expr}
    {c c' : Cursor} {r : Except ParseError Expr}
    (h : loopFrom accepts operand left c = some (r, c')) :
    c'.tokens.length ≤ c.tokens.length := by
  have hadvance (c : Cursor) : c.advance.tokens.length ≤ c.tokens.length := next.length_le rfl
  fun_induction loopFrom accepts operand left c with
  | case1 left c op column _ _ right c₁ hrun ih =>
    exact Nat.le_trans (ih h) (Nat.le_trans (operand.length_le hrun) (hadvance c))
  | case2 left c op column _ _ e c₁ hrun =>
    cases h
    exact Nat.le_trans (operand.length_le hrun) (hadvance c)
  | case3 => cases h
  | case4 => cases h; exact Nat.le_refl _
  | case5 => cases h; exact Nat.le_refl _

/-- Goes on with the operators accepted. Each turn of the loop calls the function for an operand. -/
def loop (accepts : BinaryOp → Bool) (operand : Descent Expr) (left : Expr) : Descent Expr where
  run := loopFrom accepts operand left
  length_le := length_loopFrom_le

end Descent

/-! ## The functions of the parser -/

/-- The functions of the parser. -/
inductive Routine where
  /-- An expression that ends with the tokens. -/
  | expression
  | level (l : Level)
  /-- The rest of a group that was opened at `column`. -/
  | grouping (column : Nat)

namespace Routine

open Descent

/-- The end of a group that was opened at `column`, after the tree `e`. -/
def close (column : Nat) (e : Expr) : Descent Expr := do
  match ← next with
  | none => fail ⟨.expectedClosingParen, column⟩
  | some ⟨.rightParen, _⟩ => return e
  | some t => fail t.refusal

/-- The exponent after a base, if there is one. -/
def raise (call : Routine → Descent Expr) (base : Expr) : Descent Expr := do
  match ← peek with
  | some ⟨.operator .pow, column⟩ =>
    let _ ← next
    let exponent ← nested column (call (.level .unary))
    return .binary .pow base exponent column
  | _ => return base

/-- What a function of the parser does, by the functions that it calls. -/
def body (call : Routine → Descent Expr) : Routine → Descent Expr
  | .expression => do
    let e ← call (.level .additive)
    match ← next with
    | none => return e
    | some t => fail ⟨t.token.trailingFault, t.column⟩
  | .level .additive => do
    let left ← call (.level .multiplicative)
    loop BinaryOp.isAdditive (call (.level .multiplicative)) left
  | .level .multiplicative => do
    let left ← call (.level .unary)
    loop BinaryOp.isMultiplicative (call (.level .unary)) left
  | .level .unary => do
    match ← peek with
    | some ⟨.operator op, column⟩ =>
      match op.sign? with
      | some sign =>
        let _ ← next
        let e ← nested column (call (.level .unary))
        return .signed sign e column
      | none => call (.level .power)
    | _ => call (.level .power)
  | .level .power => do
    let base ← call (.level .primary)
    raise call base
  | .level .primary => do
    match ← next with
    | none => fail ⟨.unexpectedEndOfInput, ← endColumn⟩
    | some ⟨.integer n, column⟩ => return .literal (.integer n) column
    | some ⟨.float x, column⟩ => return .literal (.float x) column
    | some ⟨.leftParen, column⟩ => call (.grouping column)
    | some t => fail t.refusal
  | .grouping column => do
    let e ← nested column (call (.level .additive))
    close column e

/-- A function of the parser of which at most so many calls may be active at a time: this one and
those inside of it. -/
def within : Nat → Routine → Descent Expr
  | 0, _ => outOfCalls
  | n + 1, r => r.body (within n)

end Routine

end Calculator
