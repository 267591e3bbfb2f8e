import Calculator.Calculation
import Calculator.Proofs.Evaluation.Depth
import Calculator.Proofs.Parser.Recognition
import Calculator.Proofs.Token.Cut

/-!
# Trees that parse can be evaluated

A tree that parses under a limit on nesting is within the limit of the evaluator for that nesting.

* `depth_le_of_parseWithin`, `depth_le_length_of_parseWithin`: how deep its tree is.
* `depth_le_forNesting`: the evaluator for a nesting admits the tree, also where its limit is the
  greatest that can be set.
* `calculate_ne_nestingTooDeep`: with the default limits too.
-/

namespace Calculator

section

variable {source : String} {limit : Nat} {tree : Expr}

theorem depth_le_of_parseWithin (h : parseWithin source limit = .ok tree) :
    tree.depth ≤ 2 * limit + 3 := by
  obtain ⟨p, -, hp, rfl⟩ := exists_phrase_of_parseWithin h
  have hd : p.tree.depth ≤ 2 * p.nesting + 3 := p.depth_tree_le
  omega

theorem depth_le_length_of_parseWithin (h : parseWithin source limit = .ok tree) :
    tree.depth ≤ source.length := by
  obtain ⟨p, ht, -, rfl⟩ := exists_phrase_of_parseWithin h
  exact Nat.le_trans p.depth_tree_le_length (length_tokenize_le ht)

/-- The limit of the evaluator for a nesting, unless it is too large to be set. -/
theorem le_limit_forNesting {n : Nat} (h : n ≤ 2 * limit + 3) (hn : n ≤ greatestLimit) :
    n ≤ (Evaluator.forNesting limit).limit := by
  change n ≤ max (min (min (2 * limit) greatestLimit + 3) greatestLimit) defaultEvaluationLimit
  omega

/-- The evaluator for a nesting admits what parses under it. A source so short cannot have the tokens
for a tree beyond the greatest limit. -/
theorem depth_le_forNesting (h : parseWithin source limit = .ok tree)
    (hs : source.length ≤ greatestLimit) : tree.depth ≤ (Evaluator.forNesting limit).limit :=
  le_limit_forNesting (depth_le_of_parseWithin h)
    (Nat.le_trans (depth_le_length_of_parseWithin h) hs)

/-- With the default limits no source is refused for the depth of its tree. -/
theorem calculate_ne_nestingTooDeep (source : String) (n : Nat) :
    calculate source ≠ .error (.eval (.nestingTooDeep n)) := by
  unfold calculate parse
  cases hp : parseWithin source defaultNesting with
  | error err => exact nofun
  | ok tree =>
    have hd : tree.depth ≤ defaultEvaluationLimit :=
      Nat.le_trans (depth_le_of_parseWithin hp) (by decide)
    have hv := @Evaluator.value_ne_nestingTooDeep .standard n tree hd
    change (Evaluator.standard.value tree).mapError CalculationError.eval ≠ _
    intro h
    cases he : Evaluator.standard.value tree with
    | ok x => rw [he] at h; cases h
    | error err => rw [he] at h hv; cases h; exact hv rfl

end

end Calculator
