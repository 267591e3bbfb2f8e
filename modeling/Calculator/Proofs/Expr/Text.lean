import Calculator.Expr.Basic
import Calculator.Proofs.Number.Text
import Calculator.Proofs.Parser.Recognition

/-!
# The text of a tree

The text of a tree has every operation in parentheses, so that its derivation follows the tree: each
operation is a group whose operands are literals or groups.

* `Expr.literals`, `Expr.height`, `Expr.withoutColumns`: the numbers at the leaves; how far
  operations are nested; the tree apart from where it stood.
* `Phrase.ofExpr`: the derivation of the text of a tree.
* `Expr.placedFrom_cut_text`: the text is cut and read as the tokens of that derivation.
* `Expr.isUnsigned_of_parseWithin`: the literals of a parsed tree have no sign.
* `Expr.parseWithin_text`: the text parses to the tree.
-/

namespace Calculator

namespace Expr

/-- The numbers at the leaves, from left to right. -/
def literals : Expr → List Number
  | .literal v _ => [v]
  | .signed _ e _ => e.literals
  | .binary _ l r _ => l.literals ++ r.literals

/-- The largest number of operations around a literal. -/
def height : Expr → Nat
  | .literal _ _ => 0
  | .signed _ e _ => e.height + 1
  | .binary _ l r _ => max l.height r.height + 1

/-- The tree with every column zero. -/
def withoutColumns : Expr → Expr
  | .literal v _ => .literal v 0
  | .signed s e _ => .signed s e.withoutColumns 0
  | .binary op l r _ => .binary op l.withoutColumns r.withoutColumns 0

end Expr

namespace Phrase

/-- Two operands joined at the level to which the operator belongs. -/
def joined (left : Phrase .primary) (op : BinaryOp) (column : Nat) (right : Phrase .primary) :
    Phrase .additive :=
  if ha : op.isAdditive then
    .sum (.term (.factor (.unsigned (.atom left)))) op ha column
      (.factor (.unsigned (.atom right)))
  else if hm : op.isMultiplicative then
    .term (.product (.factor (.unsigned (.atom left))) op hm column (.unsigned (.atom right)))
  else
    .term (.factor (.unsigned (.power left column (.unsigned (.atom right)))))

/-- The derivation of the text of a tree from `column` on. -/
def ofExpr (column : Nat) : Expr → Phrase .primary
  | .literal v _ => .ofNumber column v
  | .signed s e _ =>
    .group column
      (.term (.factor (.signed s (column + 1) (.unsigned (.atom (ofExpr (column + 2) e))))))
      (column + 2 + e.text.length)
  | .binary op l r _ =>
    let opColumn := column + 1 + l.text.length + 1
    let rightColumn := opColumn + op.symbol.length + 1
    .group column (joined (ofExpr (column + 1) l) op opColumn (ofExpr rightColumn r))
      (rightColumn + r.text.length)

section

variable (left : Phrase .primary) (op : BinaryOp) (column : Nat) (right : Phrase .primary)

@[simp] theorem tokens_joined : (joined left op column right).tokens =
    left.tokens ++ ⟨.operator op, column⟩ :: right.tokens := by
  cases op <;> rfl

@[simp] theorem tree_joined : (joined left op column right).tree =
    .binary op left.tree right.tree column := by
  cases op <;> rfl

theorem nesting_joined_le :
    (joined left op column right).nesting ≤ max left.nesting right.nesting + 1 := by
  unfold joined
  split
  · exact Nat.le_succ _
  split
  · exact Nat.le_succ _
  · simp only [nesting]
    omega

/-- Each operation costs a group, and a sign or a power one nesting level more. -/
theorem nesting_ofExpr_le (column : Nat) (e : Expr) : (ofExpr column e).nesting ≤ 2 * e.height := by
  induction e generalizing column with
  | literal v c => rw [ofExpr, nesting_ofNumber]; exact Nat.zero_le _
  | signed s e c ih =>
    have := ih (column + 2)
    simp only [ofExpr, nesting, Expr.height]
    omega
  | binary op l r c ihl ihr =>
    have hl := ihl (column + 1)
    have hr := ihr (column + 1 + l.text.length + 1 + op.symbol.length + 1)
    have hjoined := nesting_joined_le (ofExpr (column + 1) l) op (column + 1 + l.text.length + 1)
      (ofExpr (column + 1 + l.text.length + 1 + op.symbol.length + 1) r)
    simp only [ofExpr, nesting, Expr.height]
    omega

end

/-- The derivation stands for the tree, but with the columns of its own tokens. -/
theorem withoutColumns_tree_ofExpr {e : Expr} (he : ∀ v ∈ e.literals, v.isUnsigned)
    (column : Nat) : (ofExpr column e).tree.withoutColumns = e.withoutColumns := by
  induction e generalizing column with
  | literal v c => rw [ofExpr, tree_ofNumber column (he v List.mem_cons_self)]; rfl
  | signed s e c ih => simp only [ofExpr, tree, Expr.withoutColumns, ih he]
  | binary op l r c ihl ihr =>
    have hl := ihl fun v hv => he v (List.mem_append_left _ hv)
    have hr := ihr fun v hv => he v (List.mem_append_right _ hv)
    simp only [ofExpr, tree, tree_joined, Expr.withoutColumns, hl, hr]

/-- The literals of a tree are the numbers among its tokens. -/
theorem literals_tree {l : Level} (p : Phrase l) :
    p.tree.literals = p.tokens.filterMap (·.token.number?) := by
  induction p with
  | integer | float => rfl
  | group _ body _ ih => simp [tree, tokens, Token.number?, ih]
  | atom p ih | unsigned p ih | factor p ih | term p ih => exact ih
  | power base _ exponent ihb ihx => simp [tree, tokens, Expr.literals, Token.number?, ihb, ihx]
  | signed _ _ operand ih => simp [tree, tokens, Expr.literals, Token.number?, ih]
  | product left op _ _ right ihl ihr | sum left op _ _ right ihl ihr =>
    simp [tree, tokens, Expr.literals, Token.number?, ihl, ihr]

end Phrase

/-! ## Its tokens -/

section

open Lexeme

variable {column : Nat} {cs : List Char} {ts : List Placed}

/-- What stands here starts with a digit or an opening parenthesis, as every operand does. -/
def Lexeme.StartsOperand (cs : List Char) : Prop :=
  ∃ c cs', cs = c :: cs' ∧ (c = '(' ∨ '0' ≤ c ∧ c ≤ '9')

/-- A sign before an operand. -/
theorem placedFrom_cut_sign (s : Sign) (hcs : StartsOperand cs)
    (h : placedFrom (column + 1) (cut cs) = .ok ts) :
    placedFrom column (cut (s.symbol.toList ++ cs)) =
      .ok (⟨.operator s.operator, column⟩ :: ts) := by
  obtain ⟨c, cs, rfl, hc⟩ := hcs
  cases s with
  | plus =>
    refine placedFrom_cut_token (.operator .add) ?_ rfl h
    change measureSymbol '+' (some c) = _
    simp [measureSymbol, isDoubleSymbol]
  | minus =>
    have hnext : c ≠ '>' := by
      rcases hc with rfl | hc
      · decide
      · exact ne_of_isDigit hc (by decide)
    refine placedFrom_cut_token (.operator .sub) ?_ rfl h
    change measureSymbol '-' (some c) = _
    simp [measureSymbol, isDoubleSymbol, hnext]

/-- An operator between blanks, before an operand. -/
theorem placedFrom_cut_operator (op : BinaryOp) (hcs : StartsOperand cs)
    (h : placedFrom (column + 1 + op.symbol.length + 1) (cut cs) = .ok ts) :
    placedFrom column (cut (' ' :: (op.symbol.toList ++ ' ' :: cs))) =
      .ok (⟨.operator op, column + 1⟩ :: ts) := by
  obtain ⟨c, cs, rfl, hc⟩ := hcs
  have hblank : isBlank c = false := by
    rcases hc with rfl | hc
    · rfl
    · simp [isBlank, ne_of_isDigit hc]
  have hcut : cut (op.symbol.toList ++ ' ' :: c :: cs) =
      ⟨.operator op, op.symbol.toList⟩ :: cut (' ' :: c :: cs) := by
    cases op <;> exact cut_cons rfl
  have hop : placedFrom (column + 1) (cut (op.symbol.toList ++ ' ' :: c :: cs)) =
      .ok (⟨.operator op, column + 1⟩ :: ts) := by
    rw [hcut]
    refine placedFrom_cons_token rfl ?_
    rw [String.length_toList]
    exact placedFrom_cut_blank (measure_blank hblank) h
  cases op <;> exact placedFrom_cut_blank (measure_blank rfl) hop

namespace Expr

variable {e : Expr}

theorem toList_text_signed (s : Sign) (e : Expr) (c : Nat) :
    (Expr.signed s e c).text.toList = '(' :: (s.symbol.toList ++ (e.text.toList ++ [')'])) := by
  simp [text]

theorem toList_text_binary (op : BinaryOp) (l r : Expr) (c : Nat) :
    (Expr.binary op l r c).text.toList = '(' :: (l.text.toList ++ ' ' ::
      (op.symbol.toList ++ ' ' :: (r.text.toList ++ [')']))) := by
  simp [text]

theorem length_text_signed (s : Sign) (e : Expr) (c : Nat) :
    (Expr.signed s e c).text.length = e.text.length + 3 := by
  rw [← String.length_toList, toList_text_signed]
  cases s <;> simp [Sign.symbol, String.length_toList]

theorem length_text_binary (op : BinaryOp) (l r : Expr) (c : Nat) :
    (Expr.binary op l r c).text.length =
      l.text.length + op.symbol.length + r.text.length + 4 := by
  rw [← String.length_toList, toList_text_binary]
  simp [String.length_toList]
  omega

theorem startsOperand_text (he : ∀ v ∈ e.literals, v.isUnsigned ∧ v.isFinite) (rest : List Char) :
    StartsOperand (e.text.toList ++ rest) := by
  cases e with
  | literal v c =>
    obtain ⟨hu, hf⟩ := he v List.mem_cons_self
    obtain ⟨d, ds, hds, hd⟩ := Number.exists_head_text hu hf
    exact ⟨d, ds ++ rest, by rw [text, hds]; rfl, .inr hd⟩
  | signed s e c => exact ⟨'(', _, by rw [toList_text_signed]; rfl, .inl rfl⟩
  | binary op l r c => exact ⟨'(', _, by rw [toList_text_binary]; rfl, .inl rfl⟩

/-- The text of a tree is cut and read as the tokens of its derivation. -/
theorem placedFrom_cut_text (he : ∀ v ∈ e.literals, v.isUnsigned ∧ v.isFinite)
    {rest : List Char} (hrest : Delimited rest)
    (h : placedFrom (column + e.text.length) (cut rest) = .ok ts) :
    placedFrom column (cut (e.text.toList ++ rest)) =
      .ok ((Phrase.ofExpr column e).tokens ++ ts) := by
  -- A closing parenthesis ends every literal before it.
  have hdelimited : ∀ cs, Delimited (')' :: cs) := by
    rintro cs _ ⟨⟩
    decide
  induction e generalizing column rest ts with
  | literal v c =>
    obtain ⟨hu, hf⟩ := he v List.mem_cons_self
    rw [Phrase.ofExpr, Phrase.tokens_ofNumber]
    exact Number.placedFrom_cut_text hu hf hrest h
  | signed s e c ih =>
    rw [length_text_signed] at h
    have hclosed : placedFrom (column + 2 + e.text.length) (cut (')' :: rest)) =
        .ok (⟨.rightParen, column + 2 + e.text.length⟩ :: ts) := by
      refine placedFrom_cut_token .rightParen (measure_rightParen _) rfl ?_
      rw [← h]
      congr 1
      omega
    have hoperand := ih he (hdelimited rest) hclosed
    have hsigned := placedFrom_cut_sign s (startsOperand_text (e := e) he _) hoperand
    rw [toList_text_signed]
    simp only [List.cons_append, List.append_assoc, List.nil_append]
    rw [placedFrom_cut_token .leftParen (measure_leftParen _) rfl hsigned]
    simp [Phrase.ofExpr, Phrase.tokens]
  | binary op l r c ihl ihr =>
    have hl : ∀ v ∈ l.literals, v.isUnsigned ∧ v.isFinite :=
      fun v hv => he v (List.mem_append_left _ hv)
    have hr : ∀ v ∈ r.literals, v.isUnsigned ∧ v.isFinite :=
      fun v hv => he v (List.mem_append_right _ hv)
    rw [length_text_binary] at h
    simp only [Phrase.ofExpr]
    generalize hcolumn : column + 1 + l.text.length + 1 + op.symbol.length + 1 = rightColumn
    have hclosed : placedFrom (rightColumn + r.text.length) (cut (')' :: rest)) =
        .ok (⟨.rightParen, rightColumn + r.text.length⟩ :: ts) := by
      refine placedFrom_cut_token .rightParen (measure_rightParen _) rfl ?_
      rw [← h]
      congr 1
      omega
    have hright := ihr hr (hdelimited rest) hclosed
    rw [← hcolumn] at hright
    have hop := placedFrom_cut_operator op (startsOperand_text hr _) hright
    have hleft := ihl hl (by rintro _ ⟨⟩; decide) hop
    rw [toList_text_binary]
    simp only [List.cons_append, List.append_assoc, List.nil_append]
    rw [placedFrom_cut_token .leftParen (measure_leftParen _) rfl hleft]
    simp [Phrase.tokens, hcolumn]

/-- The text of a tree has the tokens of its derivation. -/
theorem tokenize_text (he : ∀ v ∈ e.literals, v.isUnsigned ∧ v.isFinite) :
    tokenize e.text = .ok (Phrase.ofExpr 1 e).tokens := by
  rw [tokenize, ← List.append_nil e.text.toList, ← List.append_nil (Phrase.tokens _)]
  exact placedFrom_cut_text he nofun (by rw [cut]; rfl)

end Expr

end

/-! ## Trees and texts -/

namespace Expr

/-- The text of a tree parses to the tree, but for the columns, under every limit that is at least
twice its height. -/
theorem exists_parseWithin_text {e : Expr} (he : ∀ v ∈ e.literals, v.isUnsigned ∧ v.isFinite)
    {limit : Nat} (hlimit : 2 * e.height ≤ limit) :
    ∃ e', parseWithin e.text limit = .ok e' ∧ e'.withoutColumns = e.withoutColumns := by
  -- The whole text is a sum of one term.
  let p : Phrase .additive := .term (.factor (.unsigned (.atom (.ofExpr 1 e))))
  have hnesting : p.nesting ≤ limit := Nat.le_trans (Phrase.nesting_ofExpr_le 1 e) hlimit
  exact ⟨p.tree, p.parseWithin_eq (tokenize_text he) hnesting,
    Phrase.withoutColumns_tree_ofExpr (fun v hv => (he v hv).1) 1⟩

/-- The literals of a parsed tree have no sign. -/
theorem isUnsigned_of_parseWithin {source : String} {limit : Nat} {e : Expr}
    (h : parseWithin source limit = .ok e) : ∀ v ∈ e.literals, v.isUnsigned := by
  obtain ⟨p, ht, -, rfl⟩ := exists_phrase_of_parseWithin h
  intro v hv
  rw [p.literals_tree, List.mem_filterMap] at hv
  obtain ⟨t, htok, hv⟩ := hv
  obtain ⟨l, -, hread⟩ := exists_lexeme_of_mem_placedFrom ht htok
  exact Lexeme.isUnsigned_of_read? hread hv

/-- **Trees and texts are inverse.** Every literal of a parsed tree is an integer that is not
negative, or a float that is not NaN and has a clear sign bit. Conversely, the text of each tree of
such literals, if the floats are finite, parses to the tree, but for the columns, under every limit
that is at least twice its height. -/
theorem parseWithin_text :
    (∀ (source : String) (limit : Nat) (e : Expr), parseWithin source limit = .ok e →
      ∀ v ∈ e.literals, v.isUnsigned) ∧
    ∀ (e : Expr) (limit : Nat), (∀ v ∈ e.literals, v.isUnsigned ∧ v.isFinite) →
      2 * e.height ≤ limit →
      ∃ e', parseWithin e.text limit = .ok e' ∧ e'.withoutColumns = e.withoutColumns :=
  ⟨fun _ _ _ h => isUnsigned_of_parseWithin h,
    fun _ _ he hlimit => exists_parseWithin_text he hlimit⟩

/-- The text of a power with a sign in its exponent parses under four levels, and the literals of
what it parses to have no sign. -/
theorem parseWithin_text_signed_exponent :
    ∃ e', parseWithin (Expr.binary .pow (.literal (.integer 2) 3)
        (.signed .minus (.literal (.float (.zero false)) 0) 7) 1).text 4 = .ok e' ∧
      e'.withoutColumns = .binary .pow (.literal (.integer 2) 0)
        (.signed .minus (.literal (.float (.zero false)) 0) 0) 0 ∧
      ∀ v ∈ e'.literals, v.isUnsigned := by
  obtain ⟨e', hparse, he'⟩ := parseWithin_text.2 (.binary .pow (.literal (.integer 2) 3)
    (.signed .minus (.literal (.float (.zero false)) 0) 7) 1) 4 (by decide) (by decide)
  exact ⟨e', hparse, he', parseWithin_text.1 _ _ _ hparse⟩

end Expr

end Calculator
