import Calculator.Proofs.Evaluation.PostOrder
import Calculator.Proofs.Parser.Calls

/-!
# How many calls the evaluator needs

The evaluator as two functions that call one another: one for a tree, one for a chain of binary
operations. How many calls may be active at a time is bounded, and a call too many is an ending of
its own. For every level of depth that is left they need three active calls and no more, however
large the tree is.

* `Evaluator.body`: what each of the functions does, given what the others do.
* `Evaluator.within n`: a function of which at most `n` calls may be active at a time, this one and
  those inside of it.
* `within_value`: with enough calls a tree has the value that the recursion computes.
* `exists_within_eq_outOfCalls`: one call fewer is too few.
* `recursion_bounded`: the calls that parsing and evaluating need are bounded by their limits.
-/

namespace Calculator

/-- The leftmost operand of a chain is no chain. -/
theorem Expr.spine_spineOnto (links : List Link) (e : Expr) :
    (spineOnto links e).1.spine = ((spineOnto links e).1, []) := by
  fun_induction spineOnto links e with
  | case1 links op l r c ih => exact ih
  | case2 links e h =>
    cases e with
    | literal | signed => rfl
    | binary op l r c => exact absurd rfl (h op l r c)

theorem Expr.spine_spine (e : Expr) : e.spine.1.spine.1 = e.spine.1 := by
  have h : e.spine.1.spine = (e.spine.1, []) := spine_spineOnto [] e
  rw [h]

namespace Evaluator

/-- The functions of the evaluator. -/
inductive Task where
  | value
  /-- A binary operation with all those along its left operands. -/
  | chain

/-- What is computed with a bounded number of calls: it has a value or fails, or it runs out of
calls. -/
abbrev Bounded := ExceptT EvalError Option

/-- One call too many. -/
def outOfCalls {α : Type} : Bounded α := ExceptT.mk none

/-- A result that needs no calls. -/
def finished {α : Type} (x : Except EvalError α) : Bounded α := ExceptT.mk (some x)

/-- What a function of the evaluator does, by the functions that it calls. -/
def body (ev : Evaluator) (call : Task → Nat → Expr → Bounded Number) :
    Task → Nat → Expr → Bounded Number
  | .value, depth, e =>
    if ev.limit < depth then finished (.error (.nestingTooDeep ev.limit))
    else
      match e with
      | .literal v _ => finished (.ok v)
      | .signed sign operand column => do
        let x ← call .value (depth + 1) operand
        finished (ev.applySign sign x column)
      | .binary op left right column => call .chain depth (.binary op left right column)
  | .chain, depth, e => do
    let first ← call .value depth e.spine.1
    e.spine.2.foldlM
      (fun x k => do
        let y ← call .value (depth + 1) k.right
        finished (ev.applyBinary k.op x y k.column))
      first

/-- A function of the evaluator of which at most so many calls may be active at a time: this one
and those inside of it. -/
def within (ev : Evaluator) : Nat → Task → Nat → Expr → Bounded Number
  | 0, _, _, _ => outOfCalls
  | n + 1, task, depth, e => ev.body (ev.within n) task depth e

theorem finished_bind {α β : Type} (x : Except EvalError α) (f : α → Except EvalError β) :
    finished (x >>= f) = (do let a ← finished x; finished (f a)) := by
  cases x <;> rfl

section

variable {ev : Evaluator} {depth n : Nat}

theorem within_value_of_lt (h : ev.limit < depth) (e : Expr) :
    ev.within (n + 1) .value depth e = finished (ev.recurse depth e) := by
  rw [recurse_of_lt h]
  exact if_pos h

theorem within_literal (h : depth ≤ ev.limit) (v : Number) (column : Nat) :
    ev.within (n + 1) .value depth (.literal v column) = finished (.ok v) :=
  if_neg (Nat.not_lt.2 h)

theorem within_signed (h : depth ≤ ev.limit) (sign : Sign) (operand : Expr) (column : Nat) :
    ev.within (n + 1) .value depth (.signed sign operand column) =
      (do let x ← ev.within n .value (depth + 1) operand
          finished (ev.applySign sign x column)) :=
  if_neg (Nat.not_lt.2 h)

theorem within_binary (h : depth ≤ ev.limit) (op : BinaryOp) (left right : Expr) (column : Nat) :
    ev.within (n + 1) .value depth (.binary op left right column) =
      ev.within n .chain depth (.binary op left right column) :=
  if_neg (Nat.not_lt.2 h)

theorem within_spine (e : Expr) :
    ev.within (n + 1) .chain depth e =
      (do let first ← ev.within n .value depth e.spine.1
          e.spine.2.foldlM (fun x k => do
            let y ← ev.within n .value (depth + 1) k.right
            finished (ev.applyBinary k.op x y k.column)) first) := rfl

/-- What is no binary operation needs the calls for an operand, and its own. -/
theorem within_value_of_spine_eq {e : Expr} (h : depth ≤ ev.limit) (hspine : e.spine.1 = e)
    (ih : ∀ e', ev.within n .value (depth + 1) e' = finished (ev.recurse (depth + 1) e')) :
    ev.within (n + 1) .value depth e = finished (ev.recurse depth e) := by
  cases e with
  | literal v column => rw [within_literal h, recurse_literal h]
  | signed sign operand column => rw [within_signed h, recurse_signed h, ih, finished_bind]
  | binary op left right column =>
    have hlt := Expr.sizeOf_spine_lt op left right column
    rw [hspine] at hlt
    exact absurd hlt (Nat.lt_irrefl _)

/-- The links of a spine add no calls to those for their operands. -/
theorem foldlM_finished
    (ih : ∀ e', ev.within n .value (depth + 1) e' = finished (ev.recurse (depth + 1) e'))
    (links : List Expr.Link) (x : Number) :
    links.foldlM (fun x k => do
      let y ← ev.within n .value (depth + 1) k.right
      finished (ev.applyBinary k.op x y k.column)) x = finished (ev.follow depth links x) := by
  induction links generalizing x with
  | nil => rfl
  | cons k links ihl =>
    rw [List.foldlM_cons, follow_cons, finished_bind, ih, bind_assoc]
    simp only [finished_bind, ihl]

/-- A chain needs the calls for its leftmost operand, and its own. -/
theorem within_chain (h : depth ≤ ev.limit)
    (ih : ∀ n', n ≤ n' → ∀ e',
      ev.within n' .value (depth + 1) e' = finished (ev.recurse (depth + 1) e')) (e : Expr) :
    ev.within (n + 2) .chain depth e = finished (ev.recurse depth e) := by
  have hfirst : ev.within (n + 1) .value depth e.spine.1 = finished (ev.recurse depth e.spine.1) :=
    within_value_of_spine_eq h e.spine_spine (ih n (Nat.le_refl n))
  have hlinks := foldlM_finished (ih (n + 1) (Nat.le_succ n)) e.spine.2
  rw [← follow_spine h e, finished_bind, within_spine, hfirst]
  exact congrArg _ (funext hlinks)

end

/-- With enough calls a tree has the value that the recursion computes. The induction is on the
levels of depth that are left. -/
theorem within_value {ev : Evaluator} {k n depth : Nat} (hk : ev.limit + 1 - depth = k)
    (hn : 3 * k + 1 ≤ n) (e : Expr) :
    ev.within n .value depth e = finished (ev.recurse depth e) := by
  induction k generalizing n depth e with
  | zero =>
    obtain ⟨m, rfl⟩ : ∃ m, n = m + 1 := ⟨n - 1, by omega⟩
    exact within_value_of_lt (by omega) e
  | succ k ih =>
    have hdepth : depth ≤ ev.limit := by omega
    have hnext {n' : Nat} (h : 3 * k + 1 ≤ n') (e' : Expr) :
        ev.within n' .value (depth + 1) e' = finished (ev.recurse (depth + 1) e') :=
      ih (by omega) h e'
    obtain ⟨m, rfl⟩ : ∃ m, n = m + 3 := ⟨n - 3, by omega⟩
    cases e with
    | literal v column => exact within_value_of_spine_eq hdepth rfl (hnext (by omega))
    | signed sign operand column => exact within_value_of_spine_eq hdepth rfl (hnext (by omega))
    | binary op left right column =>
      rw [within_binary hdepth]
      exact within_chain hdepth (fun n' hn' => hnext (by omega)) _

/-! ## One call fewer -/

/-- A chain that starts with a signed operand, which is such a chain again. -/
def signedChains : Nat → Expr
  | 0 => .literal (.integer 0) 1
  | k + 1 => .binary .add (.signed .minus (signedChains k) 1) (.literal (.integer 0) 1) 1

/-- Such chains need all the calls, if there are as many as levels of depth left. -/
theorem within_signedChains {ev : Evaluator} {depth k : Nat} (h : depth + k ≤ ev.limit + 1) :
    ev.within (3 * k) .value depth (signedChains k) = outOfCalls := by
  induction k generalizing depth with
  | zero => rfl
  | succ k ih =>
    have hdepth : depth ≤ ev.limit := by omega
    have hfirst : ev.within (3 * k + 1) .value depth (.signed .minus (signedChains k) 1) =
        outOfCalls := by
      rw [within_signed hdepth, ih (by omega)]
      rfl
    rw [signedChains, Nat.mul_succ, within_binary hdepth, within_spine, Expr.spine]
    simp only [Expr.spineOnto, hfirst]
    rfl

/-- With one call fewer than `within_value` asks for, some trees run out of calls. -/
theorem exists_within_eq_outOfCalls (ev : Evaluator) :
    ∃ e, ev.within (3 * ev.limit) .value 1 e = outOfCalls :=
  ⟨_, within_signedChains (Nat.le_of_eq (Nat.add_comm 1 ev.limit))⟩

end Evaluator

/-- **Recursion is bounded by the limit, not by the input.** However many tokens there are, an
expression is parsed with six active calls for each nesting level permitted, and seven more; and
however large a tree is, it is evaluated with three for each level of depth permitted, and one more.
Neither runs out of calls, and both end as they do without a bound on calls. -/
theorem recursion_bounded :
    (∀ (ts : List Placed) (endColumn limit : Nat),
      (Routine.within (6 * (limit + 1) + 1) .expression).run (.start ts endColumn limit) =
        some (Cursor.start ts endColumn limit).parseAll) ∧
    ∀ (ev : Evaluator) (e : Expr),
      (ev.within (3 * ev.limit + 1) .value 1 e).run = some (ev.value e) := by
  refine ⟨fun ts endColumn limit => run_within_expression (Nat.le_refl _), fun ev e => ?_⟩
  have hwithin : ev.within (3 * ev.limit + 1) .value 1 e = Evaluator.finished (ev.recurse 1 e) :=
    Evaluator.within_value (Nat.add_sub_cancel ev.limit 1) (Nat.le_refl _) e
  rw [hwithin, Evaluator.value, Evaluator.valueAt_eq_recurse]
  rfl

end Calculator
