import Calculator.Operator.Basic

/-!
# Expressions

An expression tree has three kinds of node: literals, signed operands and binary operations. Each
node keeps the column of the token that introduced it. Groups leave no node.

* `text`: the tree written out with every operation in parentheses.
* `equal`: equality of trees, columns included, with literals compared as numbers.
* `spine`: the leftmost operand of a chain of binary operations and the links that follow it.
-/

namespace Calculator

/-- An expression tree. -/
inductive Expr where
  | literal (value : Number) (column : Nat)
  | signed (sign : Sign) (operand : Expr) (column : Nat)
  | binary (op : BinaryOp) (left right : Expr) (column : Nat)
  deriving DecidableEq

namespace Expr

/-- The column of the token that introduced the node. -/
def column : Expr → Nat
  | .literal _ c | .signed _ _ c | .binary _ _ _ c => c

/-- The name of the kind of node. -/
def kind : Expr → String
  | .literal _ _ => "number"
  | .signed _ _ _ => "unary operation"
  | .binary _ _ _ _ => "binary operation"

/-- The expression with every operation in parentheses. -/
def text : Expr → String
  | .literal v _ => v.text
  | .signed s e _ => "(" ++ s.symbol ++ e.text ++ ")"
  | .binary op l r _ => "(" ++ l.text ++ " " ++ op.symbol ++ " " ++ r.text ++ ")"

/-- Equality of trees, with literals compared as numbers. -/
def equal : Expr → Expr → Bool
  | .literal v c, .literal w d => v.equal w && c == d
  | .signed s e c, .signed t f d => s == t && e.equal f && c == d
  | .binary o l r c, .binary p m q d => o == p && l.equal m && r.equal q && c == d
  | _, _ => false

/-! ## Left spines -/

/-- A binary operation without its left operand. -/
structure Link where
  op : BinaryOp
  right : Expr
  column : Nat

/-- Walks down the left operands of `e` and puts the links passed before `links`. -/
def spineOnto (links : List Link) : Expr → Expr × List Link
  | .binary op l r c => spineOnto (⟨op, r, c⟩ :: links) l
  | e => (e, links)

/-- The leftmost operand of a chain of binary operations, and its links from left to right. -/
def spine (e : Expr) : Expr × List Link := spineOnto [] e

theorem sizeOf_spineOnto_le (links : List Link) (e : Expr) :
    sizeOf (spineOnto links e).1 ≤ sizeOf e := by
  fun_induction spineOnto links e with
  | case1 links op l r c ih => simp only [binary.sizeOf_spec]; omega
  | case2 links e _ => exact Nat.le_refl _

theorem sizeOf_right_lt_of_mem_spineOnto {links : List Link} {e : Expr} {k : Link}
    (h : k ∈ (spineOnto links e).2) : k ∈ links ∨ sizeOf k.right < sizeOf e := by
  fun_induction spineOnto links e with
  | case1 links op l r c ih =>
    rcases ih h with hmem | hlt
    · rcases List.mem_cons.1 hmem with rfl | hmem
      · right; simp only [binary.sizeOf_spec]; omega
      · exact .inl hmem
    · right; simp only [binary.sizeOf_spec]; omega
  | case2 links e _ => exact .inl h

theorem sizeOf_spine_lt (op : BinaryOp) (l r : Expr) (c : Nat) :
    sizeOf (spine (.binary op l r c)).1 < sizeOf (Expr.binary op l r c) := by
  have := sizeOf_spineOnto_le [⟨op, r, c⟩] l
  simp only [spine, spineOnto, binary.sizeOf_spec]
  omega

theorem sizeOf_right_lt_of_mem_spine {e : Expr} {k : Link} (h : k ∈ (spine e).2) :
    sizeOf k.right < sizeOf e :=
  (sizeOf_right_lt_of_mem_spineOnto h).resolve_left List.not_mem_nil

end Expr

end Calculator
