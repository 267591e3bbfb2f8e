import Calculator.Proofs.Token.Measure
import Calculator.Proofs.Token.Pattern

/-!
# Matches and measures

Every match of a pattern at the front of a text is within the measure of the lexeme there.

* `Pattern.cons_mem_language`: the matches of each pattern, by their first character.
* `Pattern.Covered`, `Pattern.covered_of_mem`: no match goes on beyond the lexeme measured there.
* `Pattern.eq_of_mem`: the match tells its pattern.
-/

namespace Calculator

open Lexeme

namespace Pattern

/-- What starts with digits, by its first character. -/
theorem cons_mem_digits_mul {l : Language Char} {c : Char} {x : List Char} :
    c :: x ∈ digits * l ↔
      isDigit c ∧ ∃ ds y, (∀ d ∈ ds, isNumeralPart d) ∧ y ∈ l ∧ x = ds ++ y := by
  simp only [Language.mem_mul, mem_digits]
  constructor
  · rintro ⟨_, ⟨d, ds, hd, hds, rfl⟩, y, hy, h⟩
    obtain ⟨rfl, rfl⟩ := List.cons.inj h
    exact ⟨hd, ds, y, hds, hy, rfl⟩
  · rintro ⟨hc, ds, y, hds, hy, rfl⟩
    exact ⟨_, ⟨c, ds, hc, hds, rfl⟩, y, hy, rfl⟩

/-- The matches of each pattern, by their first character. -/
theorem cons_mem_language {p : Pattern} {c : Char} {x : List Char} :
    c :: x ∈ p.language ↔
      match p with
      | .pointFloat => isDigit c ∧ ∃ ds f e, (∀ d ∈ ds, isNumeralPart d) ∧ f ∈ optionally digits ∧
          e ∈ optionally exponent ∧ x = ds ++ '.' :: (f ++ e)
      | .fractionFloat => c = '.' ∧ ∃ f e, f ∈ digits ∧ e ∈ optionally exponent ∧ x = f ++ e
      | .exponentFloat => isDigit c ∧ ∃ ds e, (∀ d ∈ ds, isNumeralPart d) ∧ e ∈ exponent ∧
          x = ds ++ e
      | .decimalInteger => isDigit c ∧ ∀ d ∈ x, isNumeralPart d
      | .markedInteger => c = '0' ∧ ∃ m y, isRadixMark m ∧ (∀ d ∈ y, isNamePart d) ∧ x = m :: y
      | .operator op => c :: x = op.symbol.toList
      | .leftParen => c = '(' ∧ x = []
      | .rightParen => c = ')' ∧ x = []
      | .name => isNameStart c ∧ ∀ d ∈ x, isNamePart d
      | .singleQuote => c = '\x27' ∧ x = []
      | .doubleQuote => c = '\x22' ∧ x = []
      | .symbol => (∃ d, x = [d] ∧ isDoubleSymbol c d) ∨ x = [] ∧ isSymbol c
      | .comment => c = '#' ∧ x = []
      | .blank => isBlank c ∧ ∀ d ∈ x, isBlank d := by
  cases p with
  | pointFloat =>
    rw [language, mul_assoc, mul_assoc, cons_mem_digits_mul]
    simp only [mem_anyOf_mul]
    simp only [Language.mem_mul]
    refine and_congr_right fun _ => ?_
    constructor
    · rintro ⟨ds, _, hds, ⟨_, ⟨f, hf, e, he, rfl⟩, rfl⟩, rfl⟩
      exact ⟨ds, f, e, hds, hf, he, rfl⟩
    · rintro ⟨ds, f, e, hds, hf, he, rfl⟩
      exact ⟨ds, _, hds, ⟨_, ⟨f, hf, e, he, rfl⟩, rfl⟩, rfl⟩
  | fractionFloat =>
    rw [language, mul_assoc, mem_anyOf_mul]
    simp only [Language.mem_mul]
    constructor
    · rintro ⟨_, ⟨f, hf, e, he, rfl⟩, h⟩
      obtain ⟨rfl, rfl⟩ := List.cons.inj h
      exact ⟨rfl, f, e, hf, he, rfl⟩
    · rintro ⟨rfl, f, e, hf, he, rfl⟩
      exact ⟨_, ⟨f, hf, e, he, rfl⟩, rfl⟩
  | markedInteger =>
    rw [language, mul_assoc, mem_anyOf_mul]
    simp only [mem_oneOf_mul, mem_kstar_oneOf]
    constructor
    · rintro ⟨_, ⟨m, y, hm, hy, rfl⟩, h⟩
      obtain ⟨rfl, rfl⟩ := List.cons.inj h
      exact ⟨rfl, m, y, hm, hy, rfl⟩
    · rintro ⟨rfl, m, y, hm, hy, rfl⟩
      exact ⟨_, ⟨m, y, hm, hy, rfl⟩, rfl⟩
  | symbol =>
    rw [language, Language.mem_add, mem_anyOf]
    refine or_congr ?_ ?_
    · constructor
      · intro h
        simp only [List.map_cons, List.map_nil, List.mem_cons, List.not_mem_nil, or_false] at h
        rcases h with h | h | h | h | h | h | h | h <;>
          (obtain ⟨rfl, rfl⟩ := List.cons.inj h; exact ⟨_, rfl, rfl⟩)
      · rintro ⟨d, rfl, h⟩
        unfold isDoubleSymbol at h
        split at h
        case h_9 => cases h
        all_goals decide
    · constructor
      · rintro ⟨d, hd, h⟩
        obtain ⟨rfl, rfl⟩ := List.cons.inj h
        exact ⟨rfl, hd⟩
      · rintro ⟨rfl, hc⟩
        exact ⟨c, hc, rfl⟩
  | operator op => simp [language, mem_anyOf]
  | exponentFloat => exact cons_mem_digits_mul
  | decimalInteger => simp [language, mem_digits]
  | name | blank => simp [language, mem_oneOf_mul, mem_kstar_oneOf]
  | leftParen | rightParen | singleQuote | doubleQuote | comment => simp [language, mem_anyOf]

/-! ## Exponents and fractions -/

section

variable {f e rest : List Char}

/-- An exponent at the front of a text is within its measure. -/
theorem le_exponentLength (he : e ∈ exponent) (rest : List Char) :
    e.length ≤ exponentLength (e ++ rest) := by
  obtain ⟨s, hs, ds, hds, rfl⟩ := Language.mem_mul.1 he
  obtain ⟨d, x, hd, hx, rfl⟩ := mem_digits.1 hds
  obtain ⟨m, hm, hs⟩ := mem_signedMark.1 hs
  have hrun := le_runLength_append hx rest
  have hlength (before : Nat) :
      before + 1 + x.length ≤ exponentDigitsLength before (d :: (x ++ rest)) := by
    rw [exponentDigitsLength, if_pos hd]
    omega
  have hone := hlength 1
  have htwo := hlength 2
  have hsign : ¬(d = '+' ∨ d = '-') := by
    rintro (rfl | rfl) <;> cases hd
  rw [List.append_assoc]
  rcases hs with rfl | rfl | rfl
  · simp only [List.cons_append, List.nil_append, List.length_cons,
      exponentLength_unsigned hm hsign]
    omega
  · simp only [List.cons_append, List.nil_append, List.length_cons,
      exponentLength_sign hm (.inl rfl)]
    omega
  · simp only [List.cons_append, List.nil_append, List.length_cons,
      exponentLength_sign hm (.inr rfl)]
    omega

/-- An exponent starts with its mark. -/
theorem exists_cons_of_mem_exponent (he : e ∈ exponent) :
    ∃ m x, e = m :: x ∧ Literal.isExponentMark m := by
  obtain ⟨s, hs, ds, -, rfl⟩ := Language.mem_mul.1 he
  obtain ⟨m, hm, rfl | rfl | rfl⟩ := mem_signedMark.1 hs
  all_goals exact ⟨m, _, rfl, hm⟩

theorem isNumeralPart_head?_of_mem_exponent (he : e ∈ exponent) (rest : List Char) :
    ∀ c ∈ (e ++ rest).head?, isNumeralPart c = false := by
  obtain ⟨m, x, rfl, hm⟩ := exists_cons_of_mem_exponent he
  rintro _ ⟨⟩
  exact isNumeralPart_of_isExponentMark hm

/-- Fraction digits and an exponent at the front of a text are within their measures. -/
theorem le_fractionLength_add (hf : f ∈ optionally digits) (he : e ∈ optionally exponent)
    (rest : List Char) :
    f.length + e.length ≤ fractionLength (f ++ (e ++ rest)) +
      exponentLength ((f ++ (e ++ rest)).drop (fractionLength (f ++ (e ++ rest)))) := by
  rcases mem_optionally.1 he with rfl | he
  · -- Without an exponent the digits are within the fraction.
    rcases mem_optionally.1 hf with rfl | hf
    · exact Nat.zero_le _
    · obtain ⟨d, x, hd, hx, rfl⟩ := mem_digits.1 hf
      have hrun := le_runLength_append hx rest
      have hlength : x.length + 1 ≤ fractionLength (d :: (x ++ rest)) := by
        rw [fractionLength, if_pos hd]
        omega
      exact Nat.le_trans hlength (Nat.le_add_right _ _)
  · -- The mark of an exponent ends the fraction.
    have hend := isNumeralPart_head?_of_mem_exponent he rest
    have hexponent := le_exponentLength he rest
    have hlength : fractionLength (f ++ (e ++ rest)) = f.length := by
      rcases mem_optionally.1 hf with rfl | hf
      · obtain ⟨m, x, rfl, hm⟩ := exists_cons_of_mem_exponent he
        have hdigit : isDigit m = false := by
          rcases isExponentMark_iff.1 hm with rfl | rfl <;> rfl
        simp [fractionLength, hdigit]
      · obtain ⟨d, x, hd, hx, rfl⟩ := mem_digits.1 hf
        exact fractionLength_append hd hx hend
    rw [hlength, List.drop_left]
    omega

theorem fractionLength_ne_zero (hf : f ∈ digits) (rest : List Char) :
    fractionLength (f ++ rest) ≠ 0 := by
  obtain ⟨d, x, hd, -, rfl⟩ := mem_digits.1 hf
  rw [List.cons_append, fractionLength, if_pos hd]
  omega

end

/-! ## Matches -/

theorem le_measureNumeral (cs : List Char) :
    runLength isNumeralPart cs ≤ (measureNumeral cs).2 := by
  unfold measureNumeral
  dsimp only
  split
  · split <;> simp only <;> omega
  · split <;> simp only <;> omega

/-- The match `c :: x` does not go on beyond the lexeme that is measured there, and if nothing follows
the match, the lexeme has the shape of the pattern. -/
structure Covered (p : Pattern) (c : Char) (x rest : List Char) : Prop where
  length_le : x.length ≤ (Lexeme.measure c (x ++ rest)).2
  shape_eq : rest = [] → (Lexeme.measure c (x ++ rest)).1 = p.shape

section

variable {c : Char} {x rest : List Char}

theorem Covered.of_measure {p : Pattern} {n : Nat}
    (hm : Lexeme.measure c (x ++ rest) = (p.shape, n)) (hle : x.length ≤ n) :
    Covered p c x rest :=
  ⟨by rwa [hm], fun _ => by rw [hm]⟩

theorem covered_pointFloat (h : c :: x ∈ language .pointFloat) : Covered .pointFloat c x rest := by
  obtain ⟨hc, ds, f, e, hds, hf, he, rfl⟩ := cons_mem_language.1 h
  have hradix : ∀ c ∈ (ds ++ '.' :: (f ++ (e ++ rest))).head?, isRadixMark c = false :=
    isRadixMark_head?_append hds (by rintro _ ⟨⟩; rfl)
  have hbound := le_fractionLength_add hf he rest
  have hsplit : (ds ++ '.' :: (f ++ e)) ++ rest = ds ++ '.' :: (f ++ (e ++ rest)) := by simp
  have hlength : (ds ++ '.' :: (f ++ e)).length = ds.length + 1 + (f.length + e.length) := by
    simp
    omega
  have hm := measure_decimal hc hradix
  rw [measureNumeral_point hds, ← hsplit] at hm
  split at hm
  · next hexception =>
    obtain ⟨hfraction, hexponent, hmark⟩ := hexception
    constructor
    · rw [hm, hlength]
      simp only
      omega
    · rintro rfl
      -- Nothing stands after the point, hence no mark.
      obtain rfl := List.eq_nil_of_length_eq_zero (show f.length = 0 by omega)
      obtain rfl := List.eq_nil_of_length_eq_zero (show e.length = 0 by omega)
      cases hmark
  · exact .of_measure hm (by omega)

theorem covered_fractionFloat (h : c :: x ∈ language .fractionFloat) :
    Covered .fractionFloat c x rest := by
  obtain ⟨rfl, f, e, hf, he, rfl⟩ := cons_mem_language.1 h
  have hbound := le_fractionLength_add (mem_optionally.2 (.inr hf)) he rest
  have hm : Lexeme.measure '.' (f ++ e ++ rest) = measurePoint (f ++ (e ++ rest)) := by
    rw [List.append_assoc]
    rfl
  unfold measurePoint at hm
  dsimp only at hm
  rw [if_neg (fractionLength_ne_zero hf (e ++ rest))] at hm
  exact .of_measure hm (by rwa [List.length_append])

theorem covered_exponentFloat (h : c :: x ∈ language .exponentFloat) :
    Covered .exponentFloat c x rest := by
  obtain ⟨hc, ds, e, hds, he, rfl⟩ := cons_mem_language.1 h
  have hexponent := le_exponentLength he rest
  obtain ⟨m, x, rfl, hm⟩ := exists_cons_of_mem_exponent he
  have hend : ∀ c ∈ (m :: x ++ rest).head?, isNumeralPart c = false ∧ c ≠ '.' := by
    rintro _ ⟨⟩
    exact ⟨isNumeralPart_of_isExponentMark hm, by rintro rfl; cases hm⟩
  have hradix : ∀ c ∈ (ds ++ (m :: x ++ rest)).head?, isRadixMark c = false := by
    refine isRadixMark_head?_append hds ?_
    rintro _ ⟨⟩
    rcases isExponentMark_iff.1 hm with rfl | rfl <;> rfl
  have hne : exponentLength (m :: x ++ rest) ≠ 0 := by
    rw [List.length_cons] at hexponent
    omega
  have hmeasure := measure_decimal hc hradix
  rw [measureNumeral_append hds hend, if_neg hne, ← List.append_assoc] at hmeasure
  exact .of_measure hmeasure (by rw [List.length_append]; omega)

theorem covered_decimalInteger (h : c :: x ∈ language .decimalInteger) :
    Covered .decimalInteger c x rest := by
  obtain ⟨hc, hx⟩ := cons_mem_language.1 h
  have hm := measure_digit hc (x ++ rest)
  rw [measureDigit] at hm
  split at hm
  · next hradix =>
    -- A radix mark is no part of the digits, so that they end before it.
    cases x with
    | nil =>
      refine ⟨Nat.zero_le _, ?_⟩
      rintro rfl
      cases hradix.2
    | cons d x =>
      have hd := isRadixMark_of_isNumeralPart (hx d List.mem_cons_self)
      rw [List.cons_append, List.head?_cons, Option.any_some, hd] at hradix
      cases hradix.2
  · constructor
    · rw [hm]
      exact Nat.le_trans (le_runLength_append hx rest) (le_measureNumeral _)
    · rintro rfl
      have hend : ∀ c ∈ ([] : List Char).head?, isNumeralPart c = false ∧ c ≠ '.' := by
        rintro _ ⟨⟩
      rw [hm, measureNumeral_append hx hend]
      rfl

theorem covered_markedInteger (h : c :: x ∈ language .markedInteger) :
    Covered .markedInteger c x rest := by
  obtain ⟨rfl, m, y, hm, hy, rfl⟩ := cons_mem_language.1 h
  have hrun := le_runLength_append hy rest
  have hradix : '0' = '0' ∧ (m :: y ++ rest).head?.any isRadixMark := ⟨rfl, hm⟩
  have hmeasure := measure_digit (d := '0') rfl (m :: y ++ rest)
  rw [measureDigit, if_pos hradix] at hmeasure
  refine .of_measure hmeasure ?_
  simp only [List.cons_append, List.drop_succ_cons, List.drop_zero, List.length_cons]
  omega

theorem covered_operator {op : BinaryOp} (h : c :: x ∈ language (.operator op)) :
    Covered (.operator op) c x rest := by
  have hop := cons_mem_language.1 h
  cases op <;> simp [BinaryOp.symbol] at hop <;> obtain ⟨rfl, rfl⟩ := hop
  case floorDiv | pow => exact .of_measure rfl (Nat.le_refl _)
  all_goals
    refine ⟨Nat.zero_le _, ?_⟩
    rintro rfl
    rfl

theorem covered_symbol (h : c :: x ∈ language .symbol) : Covered .symbol c x rest := by
  rcases cons_mem_language.1 h with ⟨d, rfl, hd⟩ | ⟨rfl, hc⟩
  · unfold isDoubleSymbol at hd
    split at hd
    case h_9 => cases hd
    all_goals exact .of_measure rfl (Nat.le_refl _)
  · refine ⟨Nat.zero_le _, ?_⟩
    rintro rfl
    have hc := List.contains_iff_mem.1 hc
    simp only [String.reduceToList, List.mem_cons, List.not_mem_nil, or_false] at hc
    rcases hc with rfl | rfl | rfl | rfl | rfl | rfl | rfl | rfl | rfl | rfl | rfl | rfl | rfl |
      rfl | rfl | rfl | rfl <;> rfl

/-- No match goes on beyond the measure of the lexeme. -/
theorem covered_of_mem {p : Pattern} (h : c :: x ∈ p.language) (rest : List Char) :
    Covered p c x rest := by
  cases p with
  | pointFloat => exact covered_pointFloat h
  | fractionFloat => exact covered_fractionFloat h
  | exponentFloat => exact covered_exponentFloat h
  | decimalInteger => exact covered_decimalInteger h
  | markedInteger => exact covered_markedInteger h
  | operator op => exact covered_operator h
  | symbol => exact covered_symbol h
  | name =>
    obtain ⟨hc, hx⟩ := cons_mem_language.1 h
    exact .of_measure (measure_name hc _) (le_runLength_append hx rest)
  | blank =>
    obtain ⟨hc, hx⟩ := cons_mem_language.1 h
    have hm : Lexeme.measure c (x ++ rest) = (.blank, runLength isBlank (x ++ rest)) := by
      simp [Lexeme.measure, hc]
    exact .of_measure hm (le_runLength_append hx rest)
  | leftParen | rightParen | singleQuote | doubleQuote | comment =>
    obtain ⟨rfl, rfl⟩ := cons_mem_language.1 h
    refine ⟨Nat.zero_le _, ?_⟩
    rintro rfl
    rfl

end

section

variable {p q : Pattern} {c : Char} {x : List Char}

/-- After the digits stands either a point or the mark of an exponent. -/
theorem not_mem_exponentFloat (h : c :: x ∈ language .pointFloat) :
    c :: x ∉ language .exponentFloat := by
  intro h'
  obtain ⟨-, ds, f, e, hds, -, -, rfl⟩ := cons_mem_language.1 h
  obtain ⟨-, ds', e', hds', he', heq⟩ := cons_mem_language.1 h'
  obtain ⟨m, y, rfl, hm⟩ := exists_cons_of_mem_exponent he'
  obtain ⟨-, hcons⟩ := run_unique hds (by rintro _ ⟨⟩; rfl) hds'
    (by rintro _ ⟨⟩; exact isNumeralPart_of_isExponentMark hm) heq
  obtain ⟨rfl, -⟩ := List.cons.inj hcons
  cases hm

/-- A match that starts with a point is no match that starts with a digit. -/
theorem not_isDigit_of_fractionFloat (h : c :: x ∈ language .fractionFloat) : ¬isDigit c := by
  obtain ⟨rfl, -⟩ := cons_mem_language.1 h
  decide

/-- The match tells its pattern. -/
theorem eq_of_mem (hp : c :: x ∈ p.language) (hq : c :: x ∈ q.language) : p = q := by
  have hshape : p.shape = q.shape :=
    ((covered_of_mem hp []).shape_eq rfl).symm.trans ((covered_of_mem hq []).shape_eq rfl)
  -- Only floats and quotes share their shape.
  cases p <;> cases q <;> cases hshape <;> try rfl
  case pointFloat.fractionFloat | exponentFloat.fractionFloat =>
    exact absurd (cons_mem_language.1 hp).1 (not_isDigit_of_fractionFloat hq)
  case fractionFloat.pointFloat | fractionFloat.exponentFloat =>
    exact absurd (cons_mem_language.1 hq).1 (not_isDigit_of_fractionFloat hp)
  case pointFloat.exponentFloat => exact absurd hq (not_mem_exponentFloat hp)
  case exponentFloat.pointFloat => exact absurd hp (not_mem_exponentFloat hq)
  case singleQuote.doubleQuote | doubleQuote.singleQuote =>
    exact absurd ((cons_mem_language.1 hp).1.symm.trans (cons_mem_language.1 hq).1) (by decide)

/-- The character that begins a comment is a match alone. -/
theorem eq_nil_of_mem_comment (h : '#' :: x ∈ p.language) : x = [] := by
  have hshape : Shape.comment = p.shape := (covered_of_mem h []).shape_eq rfl
  cases p <;> cases hshape
  exact (cons_mem_language.1 h).2

/-- A quote is a match alone. -/
theorem eq_nil_of_mem_quote (hc : c = '\x27' ∨ c = '\x22') (h : c :: x ∈ p.language) : x = [] := by
  have hshape : (measureQuote c (x ++ [])).1 = p.shape := by
    rw [← (covered_of_mem h []).shape_eq rfl]
    rcases hc with rfl | rfl <;> rfl
  unfold measureQuote at hshape
  dsimp only at hshape
  split at hshape
  · cases p <;> cases hshape
  · cases p <;> cases hshape
    all_goals exact (cons_mem_language.1 h).2

/-- Every match has a first character. -/
theorem nil_not_mem_language (p : Pattern) : [] ∉ p.language := by
  have hdigits : [] ∉ digits := fun h => by
    obtain ⟨d, x, -, -, h⟩ := mem_digits.1 h
    cases h
  have honeOf (p : Char → Bool) : [] ∉ oneOf p := fun h => by
    obtain ⟨d, -, h⟩ := h
    cases h
  cases p with
  | operator op => cases op <;> simp [language, mem_anyOf, BinaryOp.symbol]
  | symbol => exact fun h => ((Language.mem_add _ _ _).1 h).elim (by simp [mem_anyOf]) (honeOf _)
  | _ => simp [language, Language.mem_mul, hdigits, honeOf, mem_anyOf]

end

end Pattern

end Calculator
