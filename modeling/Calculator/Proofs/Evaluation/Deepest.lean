import Calculator.Proofs.Evaluation.PostOrder
import Calculator.Proofs.Parser.Recognition
import Calculator.Proofs.Token.Cut

/-!
# Sources of the deepest trees

In `1 + 2 * (…)` the group is the right operand of a right operand, so every nesting level of the
source adds two levels to the tree. No nesting level adds more.

* `nestedSums`: the source with so many groups.
* `Phrase.nestedSums`: its derivation.
* `parseWithin_nestedSums`: it parses under its nesting.
* `value_nestedSums`: its tree is too deep for evaluators whose limit is twice the nesting and two.
-/

namespace Calculator

/-- A sum whose innermost part stands in `p` groups, each a factor in a sum. -/
def nestedSums : Nat → String
  | 0 => "1 + 2 * 3"
  | p + 1 => "1 + 2 * (" ++ nestedSums p ++ ")"

namespace Phrase

/-- A derivation of `1 + 2 * x` from `column` on, for a number or group `x`. -/
def onePlusTwice (column : Nat) (x : Phrase .primary) : Phrase .additive :=
  .sum (.term (.factor (.unsigned (.atom (.integer 1 column))))) .add rfl (column + 2)
    (.product (.factor (.unsigned (.atom (.integer 2 (column + 4))))) .mul rfl (column + 6)
      (.unsigned (.atom x)))

/-- The derivation of `nestedSums p` from `column` on. -/
def nestedSums (column : Nat) : Nat → Phrase .additive
  | 0 => onePlusTwice column (.integer 3 (column + 8))
  | p + 1 =>
    onePlusTwice column
      (.group (column + 8) (nestedSums (column + 9) p) (column + 9 + (10 * p + 9)))

theorem tokens_onePlusTwice (column : Nat) (x : Phrase .primary) :
    (onePlusTwice column x).tokens =
      ⟨.integer 1, column⟩ :: ⟨.operator .add, column + 2⟩ :: ⟨.integer 2, column + 4⟩ ::
        ⟨.operator .mul, column + 6⟩ :: x.tokens := rfl

theorem nesting_onePlusTwice (column : Nat) (x : Phrase .primary) :
    (onePlusTwice column x).nesting = x.nesting := by
  simp [onePlusTwice, nesting]

theorem nesting_nestedSums (column p : Nat) : (nestedSums column p).nesting = p := by
  induction p generalizing column with
  | zero => rw [nestedSums, nesting_onePlusTwice]; rfl
  | succ p ih => rw [nestedSums, nesting_onePlusTwice, nesting, ih]

end Phrase

/-! ## Its tokens -/

section

open Lexeme

variable {column : Nat} {ts : List Placed}

/-- What stands before each group and before the innermost number. -/
theorem placedFrom_onePlusTwice {c : Char} {cs : List Char} (hc : isBlank c = false)
    (h : placedFrom (column + 8) (cut (c :: cs)) = .ok ts) :
    placedFrom column (cut ("1 + 2 * ".toList ++ c :: cs)) =
      .ok (⟨.integer 1, column⟩ :: ⟨.operator .add, column + 2⟩ :: ⟨.integer 2, column + 4⟩ ::
        ⟨.operator .mul, column + 6⟩ :: ts) := by
  refine placedFrom_cut_token .decimalInteger rfl rfl ?_
  refine placedFrom_cut_blank rfl ?_
  refine placedFrom_cut_token (.operator .add) rfl rfl ?_
  refine placedFrom_cut_blank rfl ?_
  refine placedFrom_cut_token .decimalInteger rfl rfl ?_
  refine placedFrom_cut_blank rfl ?_
  refine placedFrom_cut_token (.operator .mul) rfl rfl ?_
  exact placedFrom_cut_blank (measure_blank hc) h

/-- The tokens of the source from `column` on, with `q` more parentheses after it. -/
theorem placedFrom_nestedSums {p q : Nat}
    (h : placedFrom (column + (10 * p + 9)) (cut (List.replicate q ')')) = .ok ts) :
    placedFrom column (cut ((nestedSums p).toList ++ List.replicate q ')')) =
      .ok ((Phrase.nestedSums column p).tokens ++ ts) := by
  induction p generalizing column q ts with
  | zero =>
    refine placedFrom_onePlusTwice rfl ?_
    refine placedFrom_cut_token .decimalInteger ?_ rfl h
    cases q <;> rfl
  | succ p ih =>
    have hclosed : placedFrom (column + 9 + (10 * p + 9)) (cut (List.replicate (q + 1) ')')) =
        .ok (⟨.rightParen, column + 9 + (10 * p + 9)⟩ :: ts) := by
      refine placedFrom_cut_token .rightParen (measure_rightParen _) rfl ?_
      rw [← h]
      congr 1
      omega
    have hbody := placedFrom_cut_token .leftParen (measure_leftParen _) rfl (ih hclosed)
    have hchars : (nestedSums (p + 1)).toList ++ List.replicate q ')' =
        "1 + 2 * ".toList ++ '(' :: ((nestedSums p).toList ++ List.replicate (q + 1) ')') := by
      simp [nestedSums, List.replicate_succ]
    rw [hchars, placedFrom_onePlusTwice rfl hbody]
    simp [Phrase.nestedSums, Phrase.tokens_onePlusTwice, Phrase.tokens]

/-- The source is the text of its derivation. -/
theorem tokenize_nestedSums (p : Nat) :
    tokenize (nestedSums p) = .ok (Phrase.nestedSums 1 p).tokens := by
  have h := @placedFrom_nestedSums 1 [] p 0 (by rw [List.replicate_zero, cut]; rfl)
  rwa [List.replicate_zero, List.append_nil, List.append_nil] at h

end

/-- The source parses under its nesting. -/
theorem parseWithin_nestedSums (p : Nat) :
    parseWithin (nestedSums p) p = .ok (Phrase.nestedSums 1 p).tree :=
  Phrase.parseWithin_eq _ (tokenize_nestedSums p) (Nat.le_of_eq (Phrase.nesting_nestedSums 1 p))

/-! ## Its tree -/

section

variable {ev : Evaluator}

/-- A literal operand before has no failure of its own, so that of the right operand counts. -/
theorem recurse_binary_error {depth column column' : Nat} {op : BinaryOp} {v : Number}
    {right : Expr} {err : EvalError} (hd : depth ≤ ev.limit)
    (h : ev.recurse (depth + 1) right = .error err) :
    ev.recurse depth (.binary op (.literal v column) right column') = .error err := by
  rw [Evaluator.recurse_binary hd, Evaluator.recurse_literal hd]
  change ev.recurse (depth + 1) right >>= _ = _
  rw [h]
  rfl

/-- The innermost number is reached before any operator is applied, two levels deeper for every
group. -/
theorem recurse_nestedSums {depth column p : Nat} (h : ev.limit = depth + (2 * p + 1)) :
    ev.recurse depth (Phrase.nestedSums column p).tree = .error (.nestingTooDeep ev.limit) := by
  induction p generalizing depth column with
  | zero =>
    refine recurse_binary_error (by omega) (recurse_binary_error (by omega) ?_)
    exact Evaluator.recurse_of_lt (by omega) _
  | succ p ih =>
    refine recurse_binary_error (by omega) (recurse_binary_error (by omega) ?_)
    exact ih (by omega)

/-- The tree is too deep for evaluators with a limit one level below twice the nesting and three,
whatever operators they permit. -/
theorem value_nestedSums {p : Nat} (h : ev.limit = 2 * p + 2) :
    ev.value (Phrase.nestedSums 1 p).tree = .error (.nestingTooDeep ev.limit) := by
  rw [Evaluator.value, Evaluator.valueAt_eq_recurse]
  exact recurse_nestedSums (by omega)

end

end Calculator
