import Calculator.Parser.Cursor

/-!
# Phrases of the grammar

A phrase is a derivation in the grammar of expressions (`Calculator/Parser/Grammar.lean`), one
constructor for each rule, with the columns of its tokens. The loops of the grammar are written as
left recursion, so a phrase says how its operators group.

* `Phrase.tokens`: what is derived.
* `Phrase.tree`: the tree that the derivation stands for.
* `Phrase.nesting`: the largest number of groups, signs and exponents around a token.
* `Phrase.openings`: for each token the nesting level that it opens, if it opens one. The nesting
  of a phrase is its highest opening (`nesting_le_iff`).
* `Chain`: the two levels that join operands by operators, in one notation.
-/

namespace Calculator

/-- The operator whose symbol the sign is. -/
def Sign.operator : Sign → BinaryOp
  | .plus => .add
  | .minus => .sub

@[simp] theorem Sign.sign?_operator (s : Sign) : s.operator.sign? = some s := by
  cases s <;> rfl

theorem BinaryOp.eq_operator_of_sign? {op : BinaryOp} {s : Sign} (h : op.sign? = some s) :
    op = s.operator := by
  cases op <;> cases h <;> rfl

/-- A derivation of tokens from a level of the grammar. -/
inductive Phrase : Level → Type where
  | integer (n column : Nat) : Phrase .primary
  | float (x : Double) (column : Nat) : Phrase .primary
  | group (opened : Nat) (body : Phrase .additive) (closed : Nat) : Phrase .primary
  | atom (p : Phrase .primary) : Phrase .power
  | power (base : Phrase .primary) (column : Nat) (exponent : Phrase .unary) : Phrase .power
  | unsigned (p : Phrase .power) : Phrase .unary
  | signed (sign : Sign) (column : Nat) (operand : Phrase .unary) : Phrase .unary
  | factor (p : Phrase .unary) : Phrase .multiplicative
  | product (left : Phrase .multiplicative) (op : BinaryOp) (accepted : op.isMultiplicative)
      (column : Nat) (right : Phrase .unary) : Phrase .multiplicative
  | term (p : Phrase .multiplicative) : Phrase .additive
  | sum (left : Phrase .additive) (op : BinaryOp) (accepted : op.isAdditive)
      (column : Nat) (right : Phrase .multiplicative) : Phrase .additive

namespace Phrase

/-- The tokens derived. -/
def tokens : {l : Level} → Phrase l → List Placed
  | _, .integer n column => [⟨.integer n, column⟩]
  | _, .float x column => [⟨.float x, column⟩]
  | _, .group opened body closed => ⟨.leftParen, opened⟩ :: (body.tokens ++ [⟨.rightParen, closed⟩])
  | _, .atom p => p.tokens
  | _, .power base column exponent => base.tokens ++ ⟨.operator .pow, column⟩ :: exponent.tokens
  | _, .unsigned p => p.tokens
  | _, .signed sign column operand => ⟨.operator sign.operator, column⟩ :: operand.tokens
  | _, .factor p => p.tokens
  | _, .product left op _ column right => left.tokens ++ ⟨.operator op, column⟩ :: right.tokens
  | _, .term p => p.tokens
  | _, .sum left op _ column right => left.tokens ++ ⟨.operator op, column⟩ :: right.tokens

/-- The tree of the derivation. Groups leave no node, and each node has the column of its own
literal or operator. -/
def tree : {l : Level} → Phrase l → Expr
  | _, .integer n column => .literal (.integer n) column
  | _, .float x column => .literal (.float x) column
  | _, .group _ body _ => body.tree
  | _, .atom p => p.tree
  | _, .power base column exponent => .binary .pow base.tree exponent.tree column
  | _, .unsigned p => p.tree
  | _, .signed sign column operand => .signed sign operand.tree column
  | _, .factor p => p.tree
  | _, .product left op _ column right => .binary op left.tree right.tree column
  | _, .term p => p.tree
  | _, .sum left op _ column right => .binary op left.tree right.tree column

/-- The largest number of groups, signs and exponents that a token of the phrase stands in. -/
def nesting : {l : Level} → Phrase l → Nat
  | _, .integer _ _ => 0
  | _, .float _ _ => 0
  | _, .group _ body _ => body.nesting + 1
  | _, .atom p => p.nesting
  | _, .power base _ exponent => max base.nesting (exponent.nesting + 1)
  | _, .unsigned p => p.nesting
  | _, .signed _ _ operand => operand.nesting + 1
  | _, .factor p => p.nesting
  | _, .product left _ _ _ right => max left.nesting right.nesting
  | _, .term p => p.nesting
  | _, .sum left _ _ _ right => max left.nesting right.nesting

/-- The nesting level that each token opens, where the phrase itself stands at level `depth`. -/
def openings : {l : Level} → Nat → Phrase l → List (Option Nat)
  | _, _, .integer _ _ => [none]
  | _, _, .float _ _ => [none]
  | _, depth, .group _ body _ => some (depth + 1) :: (body.openings (depth + 1) ++ [none])
  | _, depth, .atom p => p.openings depth
  | _, depth, .power base _ exponent =>
    base.openings depth ++ some (depth + 1) :: exponent.openings (depth + 1)
  | _, depth, .unsigned p => p.openings depth
  | _, depth, .signed _ _ operand => some (depth + 1) :: operand.openings (depth + 1)
  | _, depth, .factor p => p.openings depth
  | _, depth, .product left _ _ _ right => left.openings depth ++ none :: right.openings depth
  | _, depth, .term p => p.openings depth
  | _, depth, .sum left _ _ _ right => left.openings depth ++ none :: right.openings depth

/-- A construct nests one level deeper than what it encloses. -/
theorem succ_nesting_le_iff {depth a n : Nat} {os : List (Option Nat)}
    (ih : ∀ n, a ≤ n ↔ ∀ m, some m ∈ os → m ≤ depth + 1 + n) :
    a + 1 ≤ n ↔ ∀ m, some m ∈ some (depth + 1) :: os → m ≤ depth + n := by
  simp only [List.mem_cons, Option.some.injEq, forall_eq_or_imp]
  cases n with
  | zero => omega
  | succ n => rw [Nat.add_le_add_iff_right, ih n]; grind

/-- The nesting of a phrase is its highest opening. -/
theorem nesting_le_iff {l : Level} (p : Phrase l) (depth n : Nat) :
    p.nesting ≤ n ↔ ∀ m, some m ∈ p.openings depth → m ≤ depth + n := by
  induction p generalizing depth n with
  | integer | float => simp [nesting, openings]
  | group _ body _ ih =>
    rw [nesting, openings, succ_nesting_le_iff (ih (depth + 1))]
    simp [or_imp, forall_and]
  | power base _ exponent ihb ihe =>
    rw [nesting, openings, Nat.max_le, ihb depth, succ_nesting_le_iff (ihe (depth + 1))]
    simp only [List.mem_append, or_imp, forall_and]
  | signed _ _ operand ih =>
    rw [nesting, openings, succ_nesting_le_iff (ih (depth + 1))]
  | product left _ _ _ right ihl ihr | sum left _ _ _ right ihl ihr =>
    rw [nesting, openings, Nat.max_le, ihl depth, ihr depth]
    simp [or_imp, forall_and]
  | atom p ih | unsigned p ih | factor p ih | term p ih => exact ih depth n

end Phrase

/-! ## Chains -/

/-- The levels whose phrases are chains of operands. -/
inductive Chain where
  | sums
  | products

namespace Chain

/-- The level of the chain itself. -/
def level : Chain → Level
  | .sums => .additive
  | .products => .multiplicative

/-- The level of its operands. -/
def operand : Chain → Level
  | .sums => .multiplicative
  | .products => .unary

/-- The operators that join its operands. -/
def accepts : Chain → BinaryOp → Bool
  | .sums => BinaryOp.isAdditive
  | .products => BinaryOp.isMultiplicative

/-- A chain of one operand. -/
def single : (c : Chain) → Phrase c.operand → Phrase c.level
  | .sums, p => .term p
  | .products, p => .factor p

/-- A chain and one more operand. -/
def join : (c : Chain) → Phrase c.level → (op : BinaryOp) → c.accepts op → (column : Nat) →
    Phrase c.operand → Phrase c.level
  | .sums, left, op, accepted, column, right => .sum left op accepted column right
  | .products, left, op, accepted, column, right => .product left op accepted column right

section

variable (c : Chain) (p : Phrase c.operand) (left : Phrase c.level) (op : BinaryOp)
  (accepted : c.accepts op) (column : Nat)

@[simp] theorem tokens_single : (c.single p).tokens = p.tokens := by
  cases c <;> rfl

@[simp] theorem tree_single : (c.single p).tree = p.tree := by
  cases c <;> rfl

@[simp] theorem nesting_single : (c.single p).nesting = p.nesting := by
  cases c <;> rfl

@[simp] theorem tokens_join : (c.join left op accepted column p).tokens =
    left.tokens ++ ⟨.operator op, column⟩ :: p.tokens := by
  cases c <;> rfl

@[simp] theorem tree_join : (c.join left op accepted column p).tree =
    .binary op left.tree p.tree column := by
  cases c <;> rfl

@[simp] theorem nesting_join : (c.join left op accepted column p).nesting =
    max left.nesting p.nesting := by
  cases c <;> rfl

end

end Chain

end Calculator
