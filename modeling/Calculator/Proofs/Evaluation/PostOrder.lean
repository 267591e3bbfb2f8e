import Calculator.Expr.Evaluation

/-!
# Evaluation in post-order

The evaluator collects the left operands of a chain in a loop. This module compares it with the
recursion over the tree that has no loop, and with the list of the steps that the recursion takes.

* `Evaluator.recurse`: the value of a tree by recursion, left operand first.
* `Evaluator.valueAt_eq_recurse`: the loop computes what the recursion computes.
* `Expr.walk`, `Evaluator.step`: the steps of the recursion in order, each of which may fail.
* `Evaluator.value_postOrder`: the value is that of the recursion, and an error is that of the first
  step that fails.
-/

namespace Calculator

namespace Evaluator

/-- The value of a tree at a depth by recursion: the depth is checked on entry, the left operand is
evaluated at the same depth, then the right operand one level deeper, then the operator is applied.
A signed operand is one level deeper too. -/
def recurse (ev : Evaluator) (depth : Nat) (e : Expr) : Except EvalError Number :=
  if ev.limit < depth then .error (.nestingTooDeep ev.limit)
  else
    match e with
    | .literal v _ => .ok v
    | .signed sign operand column => do
      let x ← ev.recurse (depth + 1) operand
      ev.applySign sign x column
    | .binary op left right column => do
      let x ← ev.recurse depth left
      let y ← ev.recurse (depth + 1) right
      ev.applyBinary op x y column

section

variable {ev : Evaluator} {depth : Nat}

theorem recurse_of_lt (h : ev.limit < depth) (e : Expr) :
    ev.recurse depth e = .error (.nestingTooDeep ev.limit) := by
  cases e <;> exact if_pos h

theorem recurse_literal (h : depth ≤ ev.limit) (v : Number) (column : Nat) :
    ev.recurse depth (.literal v column) = .ok v :=
  if_neg (Nat.not_lt.2 h)

theorem recurse_signed (h : depth ≤ ev.limit) (sign : Sign) (operand : Expr) (column : Nat) :
    ev.recurse depth (.signed sign operand column) =
      (do let x ← ev.recurse (depth + 1) operand
          ev.applySign sign x column) :=
  if_neg (Nat.not_lt.2 h)

theorem recurse_binary (h : depth ≤ ev.limit) (op : BinaryOp) (left right : Expr) (column : Nat) :
    ev.recurse depth (.binary op left right column) =
      (do let x ← ev.recurse depth left
          let y ← ev.recurse (depth + 1) right
          ev.applyBinary op x y column) :=
  if_neg (Nat.not_lt.2 h)

/-! ## The loop over a spine -/

/-- Goes on with the links of a spine after the value `x`. -/
def follow (ev : Evaluator) (depth : Nat) (links : List Expr.Link) (x : Number) :
    Except EvalError Number :=
  links.foldlM (fun x k => do
    let y ← ev.recurse (depth + 1) k.right
    ev.applyBinary k.op x y k.column) x

theorem follow_cons (k : Expr.Link) (links : List Expr.Link) :
    ev.follow depth (k :: links) = fun x =>
      (do let y ← ev.recurse (depth + 1) k.right
          let z ← ev.applyBinary k.op x y k.column
          ev.follow depth links z) := by
  funext x
  simp only [follow, List.foldlM_cons, bind_assoc]

/-- A binary operation passed on the way down a spine is a link more to follow. -/
theorem follow_spineOnto (h : depth ≤ ev.limit) (links : List Expr.Link) (e : Expr) :
    (ev.recurse depth (Expr.spineOnto links e).1 >>= ev.follow depth (Expr.spineOnto links e).2) =
      ev.recurse depth e >>= ev.follow depth links := by
  fun_induction Expr.spineOnto links e with
  | case1 links op l r c ih =>
    rw [ih, recurse_binary h, follow_cons]
    simp only [bind_assoc]
  | case2 => rfl

theorem follow_spine (h : depth ≤ ev.limit) (e : Expr) :
    (ev.recurse depth e.spine.1 >>= ev.follow depth e.spine.2) = ev.recurse depth e := by
  rw [Expr.spine, follow_spineOnto h]
  exact bind_pure (ev.recurse depth e)

/-- The loop over the links of a spine may forget that they are links of it. -/
theorem follow_attach (links : List Expr.Link) (x : Number) :
    links.attach.foldlM (fun x k => do
      let y ← ev.recurse (depth + 1) k.1.right
      ev.applyBinary k.1.op x y k.1.column) x = ev.follow depth links x := by
  conv => rhs; rw [follow, ← List.attach_map_subtype_val links, List.foldlM_map]

end

/-- The loop over left spines computes what the recursion computes. -/
theorem valueAt_eq_recurse (ev : Evaluator) (depth : Nat) (e : Expr) :
    ev.valueAt depth e = ev.recurse depth e := by
  fun_induction valueAt ev depth e with
  | case1 depth e h => exact (recurse_of_lt h e).symm
  | case2 depth h v column => exact (recurse_literal (Nat.not_lt.1 h) v column).symm
  | case3 depth h sign operand column ih =>
    rw [recurse_signed (Nat.not_lt.1 h), ih]
  | case4 depth h op left right column ihl ihr =>
    rw [← follow_spine (Nat.not_lt.1 h), ihl]
    simp only [ihr, follow_attach]

end Evaluator

/-! ## The steps of the recursion -/

/-- A step of an evaluation. -/
inductive EvalStep where
  /-- A node is entered at a depth. -/
  | enter (depth : Nat)
  | literal (value : Number)
  /-- The sign at `column` is applied to the value before. -/
  | sign (sign : Sign) (column : Nat)
  /-- The operator at `column` is applied to the two values before. -/
  | operator (op : BinaryOp) (column : Nat)

/-- The steps of the evaluation of a tree at a depth, in post-order: a node is entered, then come
the steps of its operands from left to right, then its own. -/
def Expr.walk (depth : Nat) : Expr → List EvalStep
  | .literal v _ => [.enter depth, .literal v]
  | .signed sign operand column =>
    .enter depth :: (operand.walk (depth + 1) ++ [.sign sign column])
  | .binary op left right column =>
    .enter depth :: (left.walk depth ++ right.walk (depth + 1) ++ [.operator op column])

namespace Evaluator

/-- A step of an evaluation; the values of the operands evaluated are held last first. -/
def step (ev : Evaluator) : List Number → EvalStep → Except EvalError (List Number)
  | values, .enter depth =>
    if ev.limit < depth then .error (.nestingTooDeep ev.limit) else .ok values
  | values, .literal v => .ok (v :: values)
  | x :: values, .sign sign column => (ev.applySign sign x column).map (· :: values)
  | y :: x :: values, .operator op column => (ev.applyBinary op x y column).map (· :: values)
  | values, _ => .ok values

/-- The steps in order, up to the first that fails. -/
def run (ev : Evaluator) (steps : List EvalStep) (values : List Number) :
    Except EvalError (List Number) :=
  steps.foldlM ev.step values

section

variable {ev : Evaluator} {depth : Nat}

theorem run_cons (s : EvalStep) (steps : List EvalStep) (values : List Number) :
    ev.run (s :: steps) values = ev.step values s >>= ev.run steps :=
  List.foldlM_cons

theorem run_append (steps steps' : List EvalStep) (values : List Number) :
    ev.run (steps ++ steps') values = ev.run steps values >>= ev.run steps' :=
  List.foldlM_append

theorem run_enter (h : depth ≤ ev.limit) (steps : List EvalStep) (values : List Number) :
    ev.run (.enter depth :: steps) values = ev.run steps values := by
  rw [run_cons, step, if_neg (Nat.not_lt.2 h)]
  rfl

theorem run_enter_of_lt (h : ev.limit < depth) (steps : List EvalStep) (values : List Number) :
    ev.run (.enter depth :: steps) values = .error (.nestingTooDeep ev.limit) := by
  rw [run_cons, step, if_pos h]
  rfl

end

/-- The steps of a tree put its value before the values held, or fail as the recursion does. -/
theorem run_walk (ev : Evaluator) (depth : Nat) (e : Expr) (values : List Number) :
    ev.run (e.walk depth) values = (ev.recurse depth e).map (· :: values) := by
  induction e generalizing depth values with
  | literal v column =>
    rcases Nat.lt_or_ge ev.limit depth with h | h
    · rw [Expr.walk, run_enter_of_lt h, recurse_of_lt h]; rfl
    · rw [Expr.walk, run_enter h, recurse_literal h]; rfl
  | signed sign operand column ih =>
    rcases Nat.lt_or_ge ev.limit depth with h | h
    · rw [Expr.walk, run_enter_of_lt h, recurse_of_lt h]; rfl
    · rw [Expr.walk, run_enter h, recurse_signed h, run_append, ih]
      cases ev.recurse (depth + 1) operand with
      | error => rfl
      | ok x =>
        change ev.run [.sign sign column] (x :: values) = (ev.applySign sign x column).map _
        rw [run_cons, step]
        exact bind_pure _
  | binary op left right column ihl ihr =>
    rcases Nat.lt_or_ge ev.limit depth with h | h
    · rw [Expr.walk, run_enter_of_lt h, recurse_of_lt h]; rfl
    · rw [Expr.walk, run_enter h, recurse_binary h, run_append, run_append, ihl]
      cases ev.recurse depth left with
      | error => rfl
      | ok x =>
        change ev.run (right.walk (depth + 1)) (x :: values) >>= _ = _
        rw [ihr]
        cases ev.recurse (depth + 1) right with
        | error => rfl
        | ok y =>
          change ev.run [.operator op column] (y :: x :: values) =
            (ev.applyBinary op x y column).map _
          rw [run_cons, step]
          exact bind_pure _

/-- Steps fail with the error of the first of them that fails. -/
theorem run_eq_error_iff {ev : Evaluator} {steps : List EvalStep} {values : List Number}
    {err : EvalError} :
    ev.run steps values = .error err ↔
      ∃ before s after values', steps = before ++ s :: after ∧
        ev.run before values = .ok values' ∧ ev.step values' s = .error err := by
  constructor
  · intro h
    induction steps generalizing values with
    | nil => cases h
    | cons s steps ih =>
      cases hs : ev.step values s with
      | error err' =>
        rw [run_cons, hs] at h
        cases h
        exact ⟨[], s, steps, values, rfl, rfl, hs⟩
      | ok values₁ =>
        rw [run_cons, hs] at h
        obtain ⟨before, s', after, values', rfl, hb, hs'⟩ := ih h
        exact ⟨s :: before, s', after, values', rfl, by rw [run_cons, hs]; exact hb, hs'⟩
  · rintro ⟨before, s, after, values', rfl, hb, hs⟩
    rw [run_append, hb]
    change ev.run (s :: after) values' = _
    rw [run_cons, hs]
    rfl

/-- **The evaluator computes the plain recursion.** A tree has the value that the recursion
computes, or its first error, which is that of the first step in post-order that fails. -/
theorem value_postOrder (ev : Evaluator) (e : Expr) :
    ev.value e = ev.recurse 1 e ∧
      ∀ err, ev.value e = .error err ↔
        ∃ before s after values, e.walk 1 = before ++ s :: after ∧
          ev.run before [] = .ok values ∧ ev.step values s = .error err := by
  refine ⟨valueAt_eq_recurse ev 1 e, fun err => ?_⟩
  rw [← run_eq_error_iff, run_walk, value, valueAt_eq_recurse]
  cases ev.recurse 1 e with
  | ok x => exact iff_of_false nofun nofun
  | error err' => simp only [Except.map, Except.error.injEq]

end Evaluator

end Calculator
