import Calculator.Calculation
import Calculator.Proofs.Evaluation.PostOrder
import Calculator.Proofs.Expr.Text

/-!
# Results are expressions

The text of a finite result is an expression: a literal, after a minus sign if the result has one.
Its value is the result itself, so that no two results have the same text.

* `Number.exists_neg_eq`: a number with a sign is the opposite of a literal.
* `calculate_text`: the text of a result has the result as its value.
-/

namespace Calculator

/-! ## Parsing -/

namespace Number

variable {v : Number}

/-- The text of a number without a sign parses to its literal. -/
theorem parse_text (hu : v.isUnsigned) (hf : v.isFinite) : parse v.text = .ok (.literal v 1) := by
  let p : Phrase .additive := .term (.factor (.unsigned (.atom (.ofNumber 1 v))))
  have hp : p.tokens = [⟨v.token, 1⟩] := Phrase.tokens_ofNumber 1 v
  have htokens : tokenize v.text = .ok p.tokens := by
    rw [hp]
    exact placedFrom_cut_text_alone hu hf 1
  have hnesting : p.nesting ≤ defaultNesting :=
    Nat.le_trans (Nat.le_of_eq (Phrase.nesting_ofNumber 1 v)) (Nat.zero_le _)
  have htree : p.tree = .literal v 1 := Phrase.tree_ofNumber 1 hu
  rw [← htree]
  exact p.parseWithin_eq htokens hnesting

/-- A finite number with a sign is the opposite of a number without one, and its text is the text of
that number after a minus sign. -/
theorem exists_neg_eq (hu : ¬v.isUnsigned) (hf : v.isFinite) :
    ∃ w : Number, w.isUnsigned ∧ w.isFinite ∧ w.neg = .ok v ∧
      v.text.toList = '-' :: w.text.toList := by
  cases v with
  | integer n =>
    have hn : n < 0 := by simpa [isUnsigned] using hu
    refine ⟨.integer (-n), ?_, rfl, ?_, ?_⟩
    · simp [isUnsigned]; omega
    · simp [neg]
    · have hpos : ¬-n < 0 := by omega
      rw [text, text, integerText, integerText, if_pos hn, if_neg hpos, Int.natAbs_neg,
        String.toList_ofList, String.toList_ofList]
  | float x =>
    cases x with
    | nan | infinite s => cases hf
    | finite s m =>
      cases s with
      | false => exact absurd rfl hu
      | true =>
        exact ⟨.float (.finite false m), rfl, rfl, rfl, by simp [text, floatText, Layout.text]⟩

/-- The text of a number with a sign parses to its opposite under a minus sign. -/
theorem parse_text_neg {w : Number} (hu : w.isUnsigned) (hf : w.isFinite)
    (h : v.text.toList = '-' :: w.text.toList) :
    parse v.text = .ok (.signed .minus (.literal w 2) 1) := by
  let p : Phrase .additive :=
    .term (.factor (.signed .minus 1 (.unsigned (.atom (.ofNumber 2 w)))))
  obtain ⟨c, cs, hcs, hc⟩ := exists_head_text hu hf
  have hp : p.tokens = [⟨.operator .sub, 1⟩, ⟨w.token, 2⟩] :=
    congrArg (List.cons _) (Phrase.tokens_ofNumber 2 w)
  have htokens : tokenize v.text = .ok p.tokens := by
    rw [tokenize, h, hp]
    exact placedFrom_cut_sign .minus ⟨c, cs, hcs, .inr hc⟩ (placedFrom_cut_text_alone hu hf 2)
  have hnesting : p.nesting ≤ defaultNesting := by
    have := Phrase.nesting_ofNumber 2 w
    change (Phrase.ofNumber 2 w).nesting + 1 ≤ 200
    omega
  have htree : p.tree = .signed .minus (.literal w 2) 1 :=
    congrArg (Expr.signed .minus · 1) (Phrase.tree_ofNumber 2 hu)
  rw [← htree]
  exact p.parseWithin_eq htokens hnesting

end Number

/-! ## Evaluation -/

theorem evaluate_literal (v : Number) (column : Nat) : evaluate (.literal v column) = .ok v := by
  rw [evaluate, Evaluator.value, Evaluator.valueAt_eq_recurse,
    Evaluator.recurse_literal (by decide)]

theorem evaluate_minus {v w : Number} (h : w.neg = .ok v) (column column' : Nat) :
    evaluate (.signed .minus (.literal w column) column') = .ok v := by
  rw [evaluate, Evaluator.value, Evaluator.valueAt_eq_recurse, Evaluator.recurse_signed (by decide),
    Evaluator.recurse_literal (by decide)]
  change (Number.neg w).mapError (EvalError.arithmetic · column') = .ok v
  rw [h]
  rfl

/-! ## Results -/

/-- The text of a finite result has the result as its value. -/
theorem calculate_text_of_isFinite {v : Number} (hf : v.isFinite) : calculate v.text = .ok v := by
  by_cases hu : v.isUnsigned
  · rw [calculate, Number.parse_text hu hf]
    change (evaluate (.literal v 1)).mapError _ = _
    rw [evaluate_literal]
    rfl
  · obtain ⟨w, hwu, hwf, hneg, htext⟩ := Number.exists_neg_eq hu hf
    rw [calculate, Number.parse_text_neg hwu hwf htext]
    change (evaluate (.signed .minus (.literal w 2) 1)).mapError _ = _
    rw [evaluate_minus hneg]
    rfl

/-- No integer has the text of a float: a finite float has another value, and the others are written
in letters. -/
theorem integer_text_ne_float_text (n : Int) (x : Double) :
    (Number.integer n).text ≠ (Number.float x).text := by
  intro h
  have hletter : 'n' ∉ (Number.float x).text.toList := by
    intro hn
    rw [← h] at hn
    exact absurd (isDigit_of_mem_integerText hn) (by decide)
  cases x with
  | nan => exact hletter (by decide)
  | infinite s => cases s <;> exact hletter (by decide)
  | finite s m =>
    have hn := calculate_text_of_isFinite (v := .integer n) rfl
    rw [h, calculate_text_of_isFinite rfl] at hn
    cases hn

/-- **Results can be typed in.** The value of the text of an integer or a finite float is this
number, of the same kind and, if it is a float, with the same bits. Hence two of these numbers never
have the same text, and no integer has the text of a float. -/
theorem calculate_text :
    (∀ v : Number, v.isFinite → calculate v.text = .ok v) ∧
      (∀ v w : Number, v.isFinite → w.isFinite → v.text = w.text → v = w) ∧
      ∀ (n : Int) (x : Double), (Number.integer n).text ≠ (Number.float x).text := by
  refine ⟨fun v => calculate_text_of_isFinite, ?_, integer_text_ne_float_text⟩
  intro v w hv hw htext
  have h := calculate_text_of_isFinite hv
  rw [htext, calculate_text_of_isFinite hw] at h
  exact (Except.ok.inj h).symm

/-- The negative zero is read back with its sign, and the two zeros have different texts. -/
theorem calculate_text_negative_zero :
    calculate (Number.float (.zero true)).text = .ok (.float (.zero true)) ∧
      (Number.float (.zero true)).text ≠ (Number.float (.zero false)).text :=
  ⟨calculate_text.1 (.float (.zero true)) rfl, fun h =>
    absurd (calculate_text.2.1 (.float (.zero true)) (.float (.zero false)) rfl rfl h) (by decide)⟩

end Calculator
