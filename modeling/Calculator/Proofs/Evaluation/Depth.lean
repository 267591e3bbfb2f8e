import Calculator.Proofs.Evaluation.PostOrder
import Calculator.Proofs.Parser.Phrase

/-!
# The depth of trees

How deep an evaluator goes into a tree, and how deep the trees of the grammar are.

* `Expr.depth`: the depth of a tree. Left operands have the depth of their operation.
* `Evaluator.value_ne_nestingTooDeep`: no tree within the limit is refused for its depth.
* `Phrase.depth_tree_le`: each group, sign or exponent adds at most two levels to a tree.
* `Phrase.depth_tree_le_length`: a tree is no deeper than its tokens are many.
-/

namespace Calculator

/-- How deep an evaluator goes into a tree: signed operands and right operands lie one level deeper
than their operation, left operands at the same level. -/
def Expr.depth : Expr → Nat
  | .literal _ _ => 1
  | .signed _ operand _ => operand.depth + 1
  | .binary _ left right _ => max left.depth (right.depth + 1)

theorem Expr.depth_pos (e : Expr) : 0 < e.depth := by
  induction e with
  | literal => exact Nat.one_pos
  | signed => exact Nat.succ_pos _
  | binary op left right column ihl => exact Nat.lt_of_lt_of_le ihl (Nat.le_max_left ..)

namespace Evaluator

section

variable {ev : Evaluator} {n : Nat}

/-- A sign fails only for its own sake. -/
theorem applySign_ne_nestingTooDeep (sign : Sign) (x : Number) (column : Nat) :
    ev.applySign sign x column ≠ .error (.nestingTooDeep n) := by
  unfold applySign
  split
  · exact nofun
  · next f _ => cases f x <;> exact nofun

/-- An operator fails only for its own sake. -/
theorem applyBinary_ne_nestingTooDeep (op : BinaryOp) (x y : Number) (column : Nat) :
    ev.applyBinary op x y column ≠ .error (.nestingTooDeep n) := by
  unfold applyBinary
  split
  · exact nofun
  · next f _ => cases f x y <;> exact nofun

/-- A tree that ends within the limit is not refused for its depth. -/
theorem recurse_ne_nestingTooDeep {depth : Nat} {e : Expr} (h : depth + e.depth ≤ ev.limit + 1) :
    ev.recurse depth e ≠ .error (.nestingTooDeep n) := by
  have hd : depth ≤ ev.limit := by have := e.depth_pos; omega
  induction e generalizing depth with
  | literal v column => rw [recurse_literal hd]; exact nofun
  | signed sign operand column ih =>
    rw [Expr.depth] at h
    have hx := @ih (depth + 1) (by omega) (by have := operand.depth_pos; omega)
    rw [recurse_signed hd]
    cases hr : ev.recurse (depth + 1) operand with
    | error err => rw [hr] at hx; exact hx
    | ok x => exact applySign_ne_nestingTooDeep sign x column
  | binary op left right column ihl ihr =>
    rw [Expr.depth] at h
    have hx := @ihl depth (by omega) hd
    have hy := @ihr (depth + 1) (by omega) (by have := right.depth_pos; omega)
    rw [recurse_binary hd]
    cases hl : ev.recurse depth left with
    | error err => rw [hl] at hx; exact hx
    | ok x =>
      cases hr : ev.recurse (depth + 1) right with
      | error err => rw [hr] at hy; exact hy
      | ok y => exact applyBinary_ne_nestingTooDeep op x y column

/-- A tree within the limit is not refused for its depth. -/
theorem value_ne_nestingTooDeep {e : Expr} (h : e.depth ≤ ev.limit) :
    ev.value e ≠ .error (.nestingTooDeep n) := by
  rw [value, valueAt_eq_recurse]
  exact recurse_ne_nestingTooDeep (by omega)

end

end Evaluator

/-! ## Trees of the grammar -/

/-- The depth of the trees of a level that nest nothing: each of the two chains may add a right
operand. -/
def Level.flatDepth : Level → Nat
  | .additive => 3
  | .multiplicative => 2
  | .unary | .power | .primary => 1

/-- Each nesting level adds at most two levels to a tree. Within a group, a sum may have a product as
its right operand, and the product has a right operand; signs and exponents add one level. -/
theorem Phrase.depth_tree_le {l : Level} (p : Phrase l) :
    p.tree.depth ≤ 2 * p.nesting + l.flatDepth := by
  induction p with
  | integer | float => exact Nat.le_refl 1
  | atom p ih | unsigned p ih => exact ih
  | group _ body _ ih => simp only [tree, nesting, Level.flatDepth] at ih ⊢; omega
  | signed _ _ operand ih => simp only [tree, nesting, Expr.depth, Level.flatDepth] at ih ⊢; omega
  | factor p ih | term p ih => simp only [tree, nesting, Level.flatDepth] at ih ⊢; omega
  | power _ _ _ ihl ihr | product _ _ _ _ _ ihl ihr | sum _ _ _ _ _ ihl ihr =>
    simp only [tree, nesting, Expr.depth, Level.flatDepth] at ihl ihr ⊢
    omega

/-- A tree is no deeper than its tokens are many. -/
theorem Phrase.depth_tree_le_length {l : Level} (p : Phrase l) :
    p.tree.depth ≤ p.tokens.length := by
  induction p with
  | integer | float => exact Nat.le_refl 1
  | atom p ih | unsigned p ih | factor p ih | term p ih => exact ih
  | group _ body _ ih => simp only [tree, tokens, List.length_cons, List.length_append]; omega
  | signed _ _ operand ih => simp only [tree, tokens, Expr.depth, List.length_cons]; omega
  | power _ _ _ ihl ihr | product _ _ _ _ _ ihl ihr | sum _ _ _ _ _ ihl ihr =>
    simp only [tree, tokens, Expr.depth, List.length_append, List.length_cons]
    omega

end Calculator
