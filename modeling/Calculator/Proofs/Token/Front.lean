import Calculator.Proofs.Token.Match

/-!
# The front of a text

What is measured at the front of a text is what is read there: the longest match of a pattern, with
what a comment or a quote takes beyond it, or the exception of a point before a letter that begins
no exponent.

* `exists_fraction`, `exists_exponent`: what is measured after a point or digits is matched there.
* `measure_of_pointBeforeMark`, `not_pointBeforeMark`: the exception is measured as such.
* `isRead`: the lexeme that is measured at the front of a text is what is read there.
-/

namespace Calculator

open Lexeme Pattern

/-! ## Measures are matches -/

/-- The fraction that is measured at the front of a text consists of digits. -/
theorem exists_fraction (cs : List Char) :
    ∃ f rest, cs = f ++ rest ∧ f ∈ optionally digits ∧ fractionLength cs = f.length := by
  cases cs with
  | nil => exact ⟨[], [], rfl, mem_optionally.2 (.inl rfl), rfl⟩
  | cons d cs =>
    by_cases hd : isDigit d
    · obtain ⟨x, rest, rfl, hx, hrest⟩ := exists_run isNumeralPart cs
      refine ⟨d :: x, rest, rfl, mem_optionally.2 (.inr (mem_digits.2 ⟨d, x, hd, hx, rfl⟩)), ?_⟩
      rw [fractionLength_append hd hx hrest, List.length_cons]
    · exact ⟨[], d :: cs, rfl, mem_optionally.2 (.inl rfl), by rw [fractionLength, if_neg hd]; rfl⟩

theorem exists_exponentDigits {before : Nat} {cs : List Char}
    (h : exponentDigitsLength before cs ≠ 0) :
    ∃ ds rest, cs = ds ++ rest ∧ ds ∈ digits ∧
      exponentDigitsLength before cs = before + ds.length := by
  cases cs with
  | nil => exact absurd rfl h
  | cons d cs =>
    by_cases hd : isDigit d
    · obtain ⟨x, rest, rfl, hx, hrest⟩ := exists_run isNumeralPart cs
      refine ⟨d :: x, rest, rfl, mem_digits.2 ⟨d, x, hd, hx, rfl⟩, ?_⟩
      rw [exponentDigitsLength_append hd hx hrest, List.length_cons]
      omega
    · exact absurd (by rw [exponentDigitsLength, if_neg hd]) h

theorem exists_signedMark {cs : List Char} (h : exponentLength cs ≠ 0) :
    ∃ s after, cs = s ++ after ∧ s ∈ signedMark ∧
      exponentLength cs = exponentDigitsLength s.length after := by
  match cs with
  | [] => exact absurd rfl h
  | m :: cs =>
    by_cases hm : Literal.isExponentMark m
    · match cs with
      | [] => exact absurd (by unfold exponentLength; dsimp only; rw [if_pos hm]; rfl) h
      | d :: cs =>
        by_cases hd : d = '+' ∨ d = '-'
        · refine ⟨[m, d], cs, rfl, mem_signedMark.2 ⟨m, hm, ?_⟩, exponentLength_sign hm hd cs⟩
          rcases hd with rfl | rfl
          · exact .inr (.inl rfl)
          · exact .inr (.inr rfl)
        · exact ⟨[m], d :: cs, rfl, mem_signedMark.2 ⟨m, hm, .inl rfl⟩,
            exponentLength_unsigned hm hd cs⟩
    · exact absurd (by unfold exponentLength; dsimp only; rw [if_neg hm]) h

/-- The exponent that is measured at the front of a text is one. -/
theorem exists_exponent (cs : List Char) :
    ∃ e rest, cs = e ++ rest ∧ e ∈ optionally exponent ∧ exponentLength cs = e.length := by
  by_cases hzero : exponentLength cs = 0
  · exact ⟨[], cs, rfl, mem_optionally.2 (.inl rfl), hzero⟩
  · obtain ⟨s, after, rfl, hs, hlength⟩ := exists_signedMark hzero
    rw [hlength] at hzero
    obtain ⟨ds, rest, rfl, hds, hdigits⟩ := exists_exponentDigits hzero
    refine ⟨s ++ ds, rest, (List.append_assoc ..).symm,
      mem_optionally.2 (.inr (Language.append_mem_mul hs hds)), ?_⟩
    rw [hlength, hdigits, List.length_append]

/-- No exponent is measured where none begins. -/
theorem exponentLength_eq_zero_iff {cs : List Char} :
    exponentLength cs = 0 ↔ ∀ v ∈ signedMark * oneOf isDigit, ¬v <+: cs := by
  constructor
  · rintro hzero v hv ⟨t, rfl⟩
    obtain ⟨s, hs, _, ⟨d, hd, rfl⟩, rfl⟩ := Language.mem_mul.1 hv
    have he : s ++ [d] ∈ exponent :=
      Language.append_mem_mul hs (mem_digits.2 ⟨d, [], hd, nofun, rfl⟩)
    have := le_exponentLength he t
    rw [hzero, List.length_append, List.length_singleton] at this
    omega
  · intro hnone
    obtain ⟨e, rest, rfl, he, hlength⟩ := exists_exponent cs
    rcases mem_optionally.1 he with rfl | he
    · exact hlength
    · obtain ⟨s, hs, ds, hds, rfl⟩ := Language.mem_mul.1 he
      obtain ⟨d, x, hd, -, rfl⟩ := mem_digits.1 hds
      refine absurd ⟨x ++ rest, ?_⟩ (hnone _ (Language.append_mem_mul hs ⟨d, hd, rfl⟩))
      simp

/-! ## The exception -/

section

variable {c : Char} {x cs rest : List Char}

theorem PointBeforeMark.ne_nil {w : List Char} (h : PointBeforeMark w rest) : w ≠ [] := by
  obtain ⟨_, hds, _, -, rfl⟩ := Language.mem_mul.1 h.matched
  obtain ⟨d, x, -, -, rfl⟩ := mem_digits.1 hds
  exact List.cons_ne_nil _ _

theorem cons_mem_digits_point : c :: x ∈ digits * anyOf ["."] ↔
    isDigit c ∧ ∃ ds, (∀ d ∈ ds, isNumeralPart d) ∧ x = ds ++ ['.'] := by
  simp [cons_mem_digits_mul, mem_anyOf]

/-- The exception is measured as such. -/
theorem measure_of_pointBeforeMark (h : PointBeforeMark (c :: x) rest) :
    Lexeme.measure c (x ++ rest) = (.pointBeforeMark, x.length) := by
  obtain ⟨hc, ds, hds, rfl⟩ := cons_mem_digits_point.1 h.matched
  obtain ⟨m, hmark, hm⟩ := h.mark
  obtain ⟨after, rfl⟩ := List.head?_eq_some_iff.1 hmark
  have hradix : ∀ c ∈ (ds ++ '.' :: (m :: after)).head?, isRadixMark c = false :=
    isRadixMark_head?_append hds (by rintro _ ⟨⟩; rfl)
  have hfraction : fractionLength (m :: after) = 0 := by
    have hdigit : ¬isDigit m := by rcases isExponentMark_iff.1 hm with rfl | rfl <;> decide
    rw [fractionLength, if_neg hdigit]
  have hexponent : exponentLength ((m :: after).drop (fractionLength (m :: after))) = 0 := by
    rw [hfraction]
    exact exponentLength_eq_zero_iff.2 h.noExponent
  rw [List.append_assoc, List.singleton_append, measure_decimal hc hradix, measureNumeral_point hds,
    if_pos ⟨hfraction, hexponent, hm⟩, List.length_append, List.length_singleton]

/-- Where another lexeme is measured there is no exception. -/
theorem not_pointBeforeMark (h : (Lexeme.measure c cs).1 ≠ .pointBeforeMark) (v after : List Char)
    (heq : v ++ after = c :: cs) : ¬PointBeforeMark v after := by
  intro hv
  cases v with
  | nil => exact hv.ne_nil rfl
  | cons d x =>
    rw [List.cons_append] at heq
    obtain ⟨rfl, rfl⟩ := List.cons.inj heq
    exact h (by rw [measure_of_pointBeforeMark hv])

theorem firstFault?_point (afterDigit : Bool) (cs : List Char) :
    ∃ fault, Literal.firstFault? 10 afterDigit (cs ++ ['.']) = some fault := by
  induction cs generalizing afterDigit with
  | nil => cases afterDigit <;> exact ⟨_, rfl⟩
  | cons c cs ih =>
    rw [List.cons_append, Literal.firstFault?]
    split
    · split
      · exact ih false
      · exact ⟨_, rfl⟩
    · split
      · exact ih true
      · exact ⟨_, rfl⟩

/-- A point is a fault of an integer. -/
theorem decimalInteger_point (cs : List Char) :
    ∃ fault, Literal.decimalInteger (cs ++ ['.']) = .error fault := by
  obtain ⟨fault, hfault⟩ := firstFault?_point false cs
  have hdigits : Literal.digitsOf 10 false (cs ++ ['.']) = .error fault := by
    simp [Literal.digitsOf, hfault]
  exact ⟨fault, by rw [Literal.decimalInteger, hdigits]; rfl⟩

/-! ## What is measured is read -/

/-- The lexeme that is measured at the front of `c :: cs` is what is read there. -/
def IsRead (c : Char) (cs : List Char) : Prop :=
  Front (c :: cs.take (Lexeme.measure c cs).2) (cs.drop (Lexeme.measure c cs).2)
    (read? ⟨(Lexeme.measure c cs).1, c :: cs.take (Lexeme.measure c cs).2⟩)

theorem isRead_of_front {shape : Shape} (hm : Lexeme.measure c (x ++ rest) = (shape, x.length))
    (hf : Front (c :: x) rest (read? ⟨shape, c :: x⟩)) : IsRead c (x ++ rest) := by
  rw [IsRead, hm]
  dsimp only
  rw [List.take_left, List.drop_left]
  exact hf

/-- A match that no other exceeds is chosen. -/
theorem chosen_of_longest {p : Pattern} (hw : c :: x ∈ p.language)
    (hlongest : ∀ (q : Pattern) y t, c :: y ∈ q.language → y ++ t = x ++ rest →
      y.length ≤ x.length) : p.Chosen (c :: x) rest := by
  refine ⟨hw, fun q hq => eq_of_mem hq hw, ?_⟩
  rintro q v hv ⟨t, ht⟩
  cases v with
  | nil => exact absurd hv (nil_not_mem_language q)
  | cons d y =>
    simp only [List.cons_append] at ht
    obtain ⟨rfl, htail⟩ := List.cons.inj ht
    exact Nat.succ_le_succ (hlongest q y t hv htail)

/-- What is taken at a chosen match is read if it is what is measured. -/
theorem isRead_of_takes {p : Pattern} {shape : Shape} {e : List Char}
    (hm : Lexeme.measure c (x ++ e ++ rest) = (shape, (x ++ e).length))
    (hshape : shape ≠ .pointBeforeMark) (hchosen : p.Chosen (c :: x) (e ++ rest))
    (htakes : p.Takes (c :: x) e rest (read? ⟨shape, c :: (x ++ e)⟩)) :
    IsRead c (x ++ e ++ rest) := by
  refine isRead_of_front hm (Front.matched ?_ hchosen htakes)
  have hregular : (Lexeme.measure c (x ++ e ++ rest)).1 ≠ .pointBeforeMark := by rwa [hm]
  intro v after heq
  rw [← List.append_assoc] at heq
  exact not_pointBeforeMark hregular v after heq

/-- A match that is as long as the lexeme is read. -/
theorem isRead_plain {p : Pattern} (hp : p.isPlain) (hw : c :: x ∈ p.language)
    (hm : Lexeme.measure c (x ++ rest) = (p.shape, x.length)) : IsRead c (x ++ rest) := by
  have hchosen : p.Chosen (c :: x) rest := by
    refine chosen_of_longest hw fun q y t hy ht => ?_
    have := (covered_of_mem hy t).length_le
    rw [ht, hm] at this
    exact this
  have hshape : p.shape ≠ .pointBeforeMark := by cases p <;> nofun
  rw [← List.append_nil x] at hm ⊢
  exact isRead_of_takes hm hshape hchosen (by rw [List.append_nil]; exact .plain hp)

theorem isRead_blank (hc : isBlank c) (cs : List Char) : IsRead c cs := by
  obtain ⟨x, rest, rfl, hx, hrest⟩ := exists_run isBlank cs
  refine isRead_plain (p := .blank) rfl (cons_mem_language.2 ⟨hc, hx⟩) ?_
  rw [← runLength_append hx hrest]
  simp [Lexeme.measure, hc, Pattern.shape]

theorem isRead_name (hc : isNameStart c) (cs : List Char) : IsRead c cs := by
  obtain ⟨x, rest, rfl, hx, hrest⟩ := exists_run isNamePart cs
  refine isRead_plain (p := .name) rfl (cons_mem_language.2 ⟨hc, hx⟩) ?_
  rw [measure_name hc, runLength_append hx hrest]
  rfl

/-- A comment is taken up to the end of its line. -/
theorem isRead_comment (cs : List Char) : IsRead '#' cs := by
  obtain ⟨body, rest, rfl, hbody, hrest⟩ := exists_run (!isLineEnd ·) cs
  have hm : Lexeme.measure '#' (body ++ rest) = (.comment, body.length) := by
    rw [← runLength_append hbody hrest]
    rfl
  have hchosen : Pattern.comment.Chosen ['#'] (body ++ rest) := by
    refine chosen_of_longest (cons_mem_language.2 ⟨rfl, rfl⟩) fun q y t hy _ => ?_
    rw [eq_nil_of_mem_comment hy]
  refine isRead_of_takes (x := []) (e := body) hm nofun hchosen (.comment ?_ ?_)
  · exact fun c hc => by simpa using hbody c hc
  · exact fun c hc => by simpa using hrest c hc

/-- After a run without quotes that ends with the line, every quote is on a later line. -/
theorem exists_lineEnd_before_quote {body after b : List Char} (hbody : ∀ d ∈ body, d ≠ c)
    (hafter : ∀ d ∈ after.head?, d ≠ c ∧ isLineEnd d) (heq : body ++ after = b ++ c :: rest) :
    ∃ d ∈ b, isLineEnd d := by
  rcases List.append_eq_append_iff.1 heq with ⟨b', rfl, rfl⟩ | ⟨b', rfl, hb'⟩
  · cases b' with
    | nil => exact absurd rfl (hafter c rfl).1
    | cons d b' => exact ⟨d, List.mem_append_right _ List.mem_cons_self, (hafter d rfl).2⟩
  · cases b' with
    | nil =>
      obtain rfl := hb'
      exact absurd rfl (hafter c rfl).1
    | cons d b' =>
      obtain ⟨rfl, -⟩ := List.cons.inj hb'
      exact absurd rfl (hbody c (List.mem_append_right _ List.mem_cons_self))

/-- A quote is taken through the next of its kind on the line, or alone. -/
theorem isRead_quote (hc : c = '\x27' ∨ c = '\x22') (cs : List Char) : IsRead c cs := by
  obtain ⟨body, after, rfl, hbody, hafter⟩ := exists_run (fun d => d ≠ c ∧ !isLineEnd d) cs
  have hrun := runLength_append hbody hafter
  have hm : Lexeme.measure c (body ++ after) = measureQuote c (body ++ after) := by
    rcases hc with rfl | rfl <;> rfl
  have hchosen : ∃ p : Pattern, p.isQuote ∧ p.Chosen [c] (body ++ after) := by
    have hlongest (q : Pattern) (y t : List Char) (hy : c :: y ∈ q.language)
        (_ : y ++ t = [] ++ (body ++ after)) : y.length ≤ ([] : List Char).length := by
      rw [eq_nil_of_mem_quote hc hy]
    rcases hc with rfl | rfl
    · exact ⟨.singleQuote, rfl, chosen_of_longest (cons_mem_language.2 ⟨rfl, rfl⟩) hlongest⟩
    · exact ⟨.doubleQuote, rfl, chosen_of_longest (cons_mem_language.2 ⟨rfl, rfl⟩) hlongest⟩
  obtain ⟨p, hp, hchosen⟩ := hchosen
  unfold measureQuote at hm
  dsimp only at hm
  rw [hrun, List.drop_left] at hm
  split at hm
  · next hclosed =>
    obtain ⟨rest, rfl⟩ := List.head?_eq_some_iff.1 hclosed
    have hsplit : body ++ c :: rest = (body ++ [c]) ++ rest := by simp
    rw [hsplit] at hm hchosen ⊢
    rw [← List.length_singleton (a := c), ← List.length_append] at hm
    refine isRead_of_takes (x := []) (e := body ++ [c]) hm nofun hchosen (.closed hp ?_)
    exact fun d hd => by simpa using hbody d hd
  · next hopen =>
    refine isRead_of_takes (x := []) (e := []) hm nofun hchosen (.unclosed hp ?_)
    have hquote : ∀ d ∈ body, d ≠ c := fun d hd => (of_decide_eq_true (hbody d hd)).1
    have hend : ∀ d ∈ after.head?, d ≠ c ∧ isLineEnd d := fun d hd => by
      have hne : d ≠ c := fun h => hopen (h ▸ hd)
      exact ⟨hne, by simpa [hne] using hafter d hd⟩
    exact fun b rest heq => exists_lineEnd_before_quote hquote hend heq

/-- A literal that starts with a point, or a point. -/
theorem isRead_point (cs : List Char) : IsRead '.' cs := by
  obtain ⟨f, after, rfl, hf, hfraction⟩ := exists_fraction cs
  have hm : Lexeme.measure '.' (f ++ after) = measurePoint (f ++ after) := rfl
  unfold measurePoint at hm
  dsimp only at hm
  rw [hfraction, List.drop_left] at hm
  rcases mem_optionally.1 hf with rfl | hf
  · exact isRead_plain (x := []) (p := .symbol) rfl (cons_mem_language.2 (.inr ⟨rfl, rfl⟩)) hm
  · obtain ⟨e, rest, rfl, he, hexponent⟩ := exists_exponent after
    obtain ⟨d, x, hd, hx, rfl⟩ := mem_digits.1 hf
    have hne : (d :: x).length ≠ 0 := Nat.succ_ne_zero _
    rw [if_neg hne, hexponent, ← List.length_append, ← List.append_assoc] at hm
    rw [← List.append_assoc]
    exact isRead_plain (p := .fractionFloat) rfl (cons_mem_language.2 ⟨rfl, _, e, hf, he, rfl⟩) hm

theorem isRead_markedInteger (hc : c = '0') (hmark : cs.head?.any isRadixMark)
    (hm : Lexeme.measure c cs = (.markedInteger, 1 + runLength isNamePart (cs.drop 1))) :
    IsRead c cs := by
  obtain ⟨m, hhead, hradix⟩ := (Option.any_eq_true _ _).1 hmark
  obtain ⟨after, rfl⟩ := List.head?_eq_some_iff.1 hhead
  obtain ⟨y, rest, rfl, hy, hrest⟩ := exists_run isNamePart after
  rw [List.drop_succ_cons, List.drop_zero, runLength_append hy hrest, Nat.add_comm] at hm
  exact isRead_plain (x := m :: y) (p := .markedInteger) rfl
    (cons_mem_language.2 ⟨hc, m, y, hradix, hy, rfl⟩) hm

/-- Digits before a point, with what may follow it. -/
theorem isRead_pointFloat {ds after : List Char} (hc : isDigit c) (hds : ∀ d ∈ ds, isNumeralPart d)
    (hm : Lexeme.measure c (ds ++ '.' :: after) = measureNumeral (ds ++ '.' :: after)) :
    IsRead c (ds ++ '.' :: after) := by
  rw [measureNumeral_point hds] at hm
  obtain ⟨f, r, rfl, hf, hfraction⟩ := exists_fraction after
  obtain ⟨e, rest, rfl, he, hexponent⟩ := exists_exponent r
  rw [hfraction, List.drop_left, hexponent] at hm
  split at hm
  · next hexception =>
    obtain ⟨hf, he, hmark⟩ := hexception
    obtain rfl := List.eq_nil_of_length_eq_zero hf
    obtain rfl := List.eq_nil_of_length_eq_zero he
    simp only [List.nil_append] at hm hexponent hmark ⊢
    have h : PointBeforeMark (c :: (ds ++ ['.'])) rest :=
      ⟨cons_mem_digits_point.2 ⟨hc, ds, hds, rfl⟩, (Option.any_eq_true _ _).1 hmark,
        exponentLength_eq_zero_iff.1 hexponent⟩
    have hsplit : ds ++ '.' :: rest = (ds ++ ['.']) ++ rest := by simp
    obtain ⟨fault, hfault⟩ := decimalInteger_point (c :: ds)
    have hread : read? ⟨.pointBeforeMark, c :: (ds ++ ['.'])⟩ =
        some (.error (.invalidLiteral fault)) := by
      rw [read?, ← List.cons_append, hfault]
      rfl
    rw [hsplit]
    refine isRead_of_front (measure_of_pointBeforeMark h) ?_
    rw [hread]
    exact .pointBeforeMark h hfault
  · have hsplit : ds ++ '.' :: (f ++ (e ++ rest)) = (ds ++ '.' :: (f ++ e)) ++ rest := by simp
    rw [hsplit] at hm ⊢
    refine isRead_plain (p := .pointFloat) rfl
      (cons_mem_language.2 ⟨hc, ds, f, e, hds, hf, he, rfl⟩) (hm.trans ?_)
    simp [Pattern.shape]
    omega

/-- Digits before what is no point. -/
theorem isRead_numeral (hc : isDigit c) (hm : Lexeme.measure c cs = measureNumeral cs) :
    IsRead c cs := by
  obtain ⟨ds, after, rfl, hds, hafter⟩ := exists_run isNumeralPart cs
  by_cases hpoint : after.head? = some '.'
  · obtain ⟨after, rfl⟩ := List.head?_eq_some_iff.1 hpoint
    exact isRead_pointFloat hc hds hm
  · have hend : ∀ d ∈ after.head?, isNumeralPart d = false ∧ d ≠ '.' :=
      fun d hd => ⟨hafter d hd, by rintro rfl; exact hpoint hd⟩
    rw [measureNumeral_append hds hend] at hm
    obtain ⟨e, rest, rfl, he, hexponent⟩ := exists_exponent after
    rw [hexponent] at hm
    rcases mem_optionally.1 he with rfl | he
    · exact isRead_plain (p := .decimalInteger) rfl (cons_mem_language.2 ⟨hc, hds⟩) hm
    · have hne : e.length ≠ 0 := by
        obtain ⟨m, x, rfl, -⟩ := exists_cons_of_mem_exponent he
        exact Nat.succ_ne_zero _
      rw [if_neg hne, ← List.length_append, ← List.append_assoc] at hm
      rw [← List.append_assoc]
      exact isRead_plain (p := .exponentFloat) rfl
        (cons_mem_language.2 ⟨hc, ds, e, hds, he, rfl⟩) hm

/-- A literal that starts with a digit, or the exception. -/
theorem isRead_digit (hc : isDigit c) (cs : List Char) : IsRead c cs := by
  have hdigit := measure_digit hc cs
  unfold measureDigit at hdigit
  split at hdigit
  · next hradix => exact isRead_markedInteger hradix.1 hradix.2 hdigit
  · exact isRead_numeral hc hdigit

/-- A character that begins none of the other lexemes, for those that `measureSymbol` measures. -/
structure BeginsSymbol (c : Char) : Prop where
  blank : isBlank c = false
  comment : c ≠ '#'
  digit : isDigit c = false
  point : c ≠ '.'
  name : isNameStart c = false
  quote : ¬(c = '\x27' ∨ c = '\x22')

/-- A character that is neither an operator nor a parenthesis nor a symbol begins no match. -/
theorem not_mem_language_of_stray (hc : BeginsSymbol c) (hoperator : c ∉ "*/%+-()".toList)
    (hsymbol : isSymbol c = false) (p : Pattern) (w : List Char) : c :: w ∉ p.language := by
  intro h
  cases p with
  | pointFloat | exponentFloat | decimalInteger =>
    exact Bool.eq_false_iff.1 hc.digit (cons_mem_language.1 h).1
  | markedInteger =>
    obtain ⟨rfl, -⟩ := cons_mem_language.1 h
    cases hc.digit
  | fractionFloat => exact hc.point (cons_mem_language.1 h).1
  | operator op =>
    have hop := cons_mem_language.1 h
    cases op <;> simp [BinaryOp.symbol] at hop <;> exact hoperator (by simp [hop.1])
  | leftParen | rightParen =>
    obtain ⟨rfl, -⟩ := cons_mem_language.1 h
    exact hoperator (by decide)
  | name => exact Bool.eq_false_iff.1 hc.name (cons_mem_language.1 h).1
  | singleQuote => exact hc.quote (.inl (cons_mem_language.1 h).1)
  | doubleQuote => exact hc.quote (.inr (cons_mem_language.1 h).1)
  | comment => exact hc.comment (cons_mem_language.1 h).1
  | blank => exact Bool.eq_false_iff.1 hc.blank (cons_mem_language.1 h).1
  | symbol =>
    rcases cons_mem_language.1 h with ⟨d, -, hd⟩ | ⟨-, hd⟩
    · unfold isDoubleSymbol at hd
      split at hd
      case h_8 => exact hoperator (by decide)
      case h_9 => cases hd
      all_goals cases hsymbol
    · exact Bool.eq_false_iff.1 hsymbol hd

/-- An operator, a parenthesis or a symbol, or a character that begins no match. -/
theorem isRead_symbol (hc : BeginsSymbol c) (hm : Lexeme.measure c cs = measureSymbol c cs.head?) :
    IsRead c cs := by
  unfold measureSymbol at hm
  split at hm
  · next hdouble =>
    obtain ⟨d, hhead, hd⟩ := (Option.any_eq_true _ _).1 hdouble
    obtain ⟨rest, rfl⟩ := List.head?_eq_some_iff.1 hhead
    exact isRead_plain (x := [d]) (p := .symbol) rfl (cons_mem_language.2 (.inl ⟨d, rfl, hd⟩)) hm
  · split at hm
    · next hhead _ =>
      obtain ⟨rest, rfl⟩ := List.head?_eq_some_iff.1 hhead
      exact isRead_plain (x := ['*']) (p := .operator .pow) rfl (cons_mem_language.2 rfl) hm
    · exact isRead_plain (x := []) (p := .operator .mul) rfl (cons_mem_language.2 rfl) hm
    · next hhead _ =>
      obtain ⟨rest, rfl⟩ := List.head?_eq_some_iff.1 hhead
      exact isRead_plain (x := ['/']) (p := .operator .floorDiv) rfl (cons_mem_language.2 rfl) hm
    · exact isRead_plain (x := []) (p := .operator .div) rfl (cons_mem_language.2 rfl) hm
    · exact isRead_plain (x := []) (p := .operator .mod) rfl (cons_mem_language.2 rfl) hm
    · exact isRead_plain (x := []) (p := .operator .add) rfl (cons_mem_language.2 rfl) hm
    · exact isRead_plain (x := []) (p := .operator .sub) rfl (cons_mem_language.2 rfl) hm
    · exact isRead_plain (x := []) (p := .leftParen) rfl (cons_mem_language.2 ⟨rfl, rfl⟩) hm
    · exact isRead_plain (x := []) (p := .rightParen) rfl (cons_mem_language.2 ⟨rfl, rfl⟩) hm
    · split at hm
      · next hsymbol =>
        exact isRead_plain (x := []) (p := .symbol) rfl
          (cons_mem_language.2 (.inr ⟨rfl, hsymbol⟩)) hm
      · next hsymbol =>
        refine isRead_of_front (x := []) hm (.stray (not_mem_language_of_stray hc ?_ ?_))
        · simp only [String.reduceToList, List.mem_cons, List.not_mem_nil, or_false, not_or]
          refine ⟨?_, ?_, ?_, ?_, ?_, ?_, ?_⟩ <;> assumption
        · simpa using hsymbol

/-- What is measured at the front of a text is what is read there. -/
theorem isRead (c : Char) (cs : List Char) : IsRead c cs := by
  by_cases hblank : isBlank c
  · exact isRead_blank hblank cs
  by_cases hcomment : c = '#'
  · subst hcomment
    exact isRead_comment cs
  by_cases hdigit : isDigit c
  · exact isRead_digit hdigit cs
  by_cases hpoint : c = '.'
  · subst hpoint
    exact isRead_point cs
  by_cases hname : isNameStart c
  · exact isRead_name hname cs
  by_cases hquote : c = '\x27' ∨ c = '\x22'
  · exact isRead_quote hquote cs
  rw [Bool.not_eq_true] at hblank hdigit hname
  refine isRead_symbol ⟨hblank, hcomment, hdigit, hpoint, hname, hquote⟩ ?_
  rw [Lexeme.measure]
  simp [hblank, hcomment, hdigit, hpoint, hname, hquote]

end

end Calculator
