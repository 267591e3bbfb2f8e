import Calculator.Proofs.Token.Front

/-!
# Longest match

The lexemes of a source are the longest matches of the token patterns, with the one exception of a
point before a letter that begins no exponent.

* `Front.eq`: what is read at the front of a text is determined by the text.
* `Front.cut_eq`: it is the first lexeme.
* `lexicalItems_eq_iff`: the items of a source are those of its reading.
-/

namespace Calculator

open Lexeme Pattern

/-! ## Nothing else is read -/

section

variable {w w' rest rest' : List Char} {o o' : Option (Except LexicalFault Token)}

theorem Pattern.Chosen.eq {p q : Pattern} (h : p.Chosen w rest) (h' : q.Chosen w' rest')
    (heq : w ++ rest = w' ++ rest') : w = w' ∧ rest = rest' ∧ p = q := by
  have hle : w.length ≤ w'.length := h'.longest p w h.matched ⟨rest, heq⟩
  have hge : w'.length ≤ w.length := h.longest q w' h'.matched ⟨rest', heq.symm⟩
  obtain ⟨rfl, rfl⟩ := List.append_inj heq (Nat.le_antisymm hle hge)
  exact ⟨rfl, rfl, h'.unique p h.matched⟩

theorem Pattern.not_isQuote_of_isPlain {p : Pattern} (hp : p.isPlain) : ¬p.isQuote := by
  cases p with
  | singleQuote | doubleQuote => cases hp
  | _ => exact Bool.false_ne_true

/-- A quote is not both closed and not closed on its line. -/
theorem not_unclosed {quote : Char} {body after : List Char}
    (hbody : ∀ c ∈ body, c ≠ quote ∧ isLineEnd c = false)
    (hrest : rest = body ++ [quote] ++ after) :
    ¬∀ body after, rest = body ++ quote :: after → ∃ c ∈ body, isLineEnd c := by
  intro hopen
  obtain ⟨c, hc, hend⟩ := hopen body after (by simp [hrest])
  rw [(hbody c hc).2] at hend
  cases hend

/-- What is taken at a match is determined by the text after it. -/
theorem Pattern.Takes.eq {p : Pattern} {extra extra' : List Char} (h : p.Takes w extra rest o)
    (h' : p.Takes w extra' rest' o') (heq : extra ++ rest = extra' ++ rest') :
    extra = extra' ∧ rest = rest' ∧ o = o' := by
  cases h with
  | plain hp =>
    cases h' with
    | plain => exact ⟨rfl, heq, rfl⟩
    | comment => cases hp
    | closed hq | unclosed hq => exact absurd hq (not_isQuote_of_isPlain hp)
  | comment hbody hrest =>
    cases h' with
    | plain hp => cases hp
    | comment hbody' hrest' =>
      obtain ⟨rfl, rfl⟩ := run_unique (p := (!isLineEnd ·)) (by simpa using hbody)
        (by simpa using hrest) (by simpa using hbody') (by simpa using hrest') heq
      exact ⟨rfl, rfl, rfl⟩
    | closed hq | unclosed hq => cases hq
  | @closed p hq quote body rest hbody =>
    cases h' with
    | plain hp => exact absurd hq (not_isQuote_of_isPlain hp)
    | comment => cases hq
    | @closed _ _ _ body' rest' hbody' =>
      have hquote (after : List Char) :
          ∀ c ∈ (quote :: after).head?, decide (c ≠ quote ∧ !isLineEnd c) = false := by
        rintro _ ⟨⟩
        simp
      simp only [List.append_assoc, List.singleton_append] at heq
      obtain ⟨rfl, hcons⟩ := run_unique (p := fun c => c ≠ quote ∧ !isLineEnd c)
        (by simpa using hbody) (hquote rest) (by simpa using hbody') (hquote rest') heq
      exact ⟨rfl, (List.cons.inj hcons).2, rfl⟩
    | unclosed _ hrest' => exact absurd hrest' (not_unclosed hbody heq.symm)
  | unclosed hq hrest =>
    cases h' with
    | plain hp => exact absurd hq (not_isQuote_of_isPlain hp)
    | comment => cases hq
    | closed _ hbody' => exact absurd hrest (not_unclosed hbody' heq)
    | unclosed => exact ⟨rfl, heq, rfl⟩

theorem PointBeforeMark.mem_language (h : PointBeforeMark w rest) : w ∈ language .pointFloat := by
  cases w with
  | nil => exact absurd rfl h.ne_nil
  | cons c x =>
    obtain ⟨hc, ds, hds, rfl⟩ := cons_mem_digits_point.1 h.matched
    exact cons_mem_language.2 ⟨hc, ds, [], [], hds, mem_optionally.2 (.inl rfl),
      mem_optionally.2 (.inl rfl), rfl⟩

theorem PointBeforeMark.eq (h : PointBeforeMark w rest) (h' : PointBeforeMark w' rest')
    (heq : w ++ rest = w' ++ rest') : w = w' ∧ rest = rest' := by
  obtain ⟨c, x, rfl⟩ := List.exists_cons_of_ne_nil h.ne_nil
  obtain ⟨c', x', rfl⟩ := List.exists_cons_of_ne_nil h'.ne_nil
  simp only [List.cons_append] at heq
  obtain ⟨rfl, htail⟩ := List.cons.inj heq
  have hlength : x.length = x'.length := by
    have hm := measure_of_pointBeforeMark h
    rw [htail, measure_of_pointBeforeMark h'] at hm
    exact (Prod.mk.inj hm).2.symm
  obtain ⟨rfl, rfl⟩ := List.append_inj htail hlength
  exact ⟨rfl, rfl⟩

/-- A character that begins no match begins no text that is one. -/
theorem not_mem_of_stray {c : Char} {p : Pattern} (hc : ∀ (p : Pattern) w, c :: w ∉ p.language)
    (heq : w ++ rest = [c] ++ rest') : w ∉ p.language := by
  intro hw
  cases w with
  | nil => exact nil_not_mem_language p hw
  | cons d x =>
    obtain ⟨rfl, -⟩ := List.cons.inj heq
    exact hc p x hw

/-- What is read at the front of a text is determined by the text. -/
theorem Front.eq (h : Front w rest o) (h' : Front w' rest' o') (heq : w ++ rest = w' ++ rest') :
    w = w' ∧ rest = rest' ∧ o = o' := by
  cases h with
  | matched hregular hchosen htakes =>
    cases h' with
    | matched _ hchosen' htakes' =>
      rw [List.append_assoc, List.append_assoc] at heq
      obtain ⟨rfl, hrest, rfl⟩ := hchosen.eq hchosen' heq
      obtain ⟨rfl, rfl, rfl⟩ := htakes.eq htakes' hrest
      exact ⟨rfl, rfl, rfl⟩
    | stray hc =>
      rw [List.append_assoc] at heq
      exact absurd hchosen.matched (not_mem_of_stray hc heq)
    | pointBeforeMark hp => exact absurd hp (hregular _ _ (by rw [← heq, List.append_assoc]))
  | stray hc =>
    cases h' with
    | matched _ hchosen' _ =>
      rw [List.append_assoc] at heq
      exact absurd hchosen'.matched (not_mem_of_stray hc heq.symm)
    | stray =>
      obtain ⟨rfl, rfl⟩ := List.cons.inj heq
      exact ⟨rfl, rfl, rfl⟩
    | pointBeforeMark hp => exact absurd hp.mem_language (not_mem_of_stray hc heq.symm)
  | pointBeforeMark hp hfault =>
    cases h' with
    | matched hregular => exact absurd hp (hregular _ _ (by rw [heq, List.append_assoc]))
    | stray hc => exact absurd hp.mem_language (not_mem_of_stray hc heq)
    | pointBeforeMark hp' hfault' =>
      obtain ⟨rfl, rfl⟩ := hp.eq hp' heq
      rw [hfault] at hfault'
      cases hfault'
      exact ⟨rfl, rfl, rfl⟩

end

/-! ## Whole sources -/

theorem Front.ne_nil {w rest : List Char} {o : Option (Except LexicalFault Token)}
    (h : Front w rest o) : w ≠ [] := by
  cases h with
  | @matched p w extra rest o _ hchosen _ =>
    intro hnil
    obtain ⟨rfl, -⟩ := List.append_eq_nil_iff.1 hnil
    exact nil_not_mem_language p hchosen.matched
  | stray => exact List.cons_ne_nil _ _
  | pointBeforeMark h => exact h.ne_nil

/-- What is read at the front of a text is its first lexeme. -/
theorem Front.cut_eq {w rest : List Char} {o : Option (Except LexicalFault Token)}
    (h : Front w rest o) : ∃ shape, cut (w ++ rest) = ⟨shape, w⟩ :: cut rest ∧
      read? ⟨shape, w⟩ = o := by
  obtain ⟨c, x, rfl⟩ := List.exists_cons_of_ne_nil h.ne_nil
  obtain ⟨hw, hrest, ho⟩ := (isRead c (x ++ rest)).eq h (by simp)
  refine ⟨(Lexeme.measure c (x ++ rest)).1, ?_, ?_⟩
  · rw [List.cons_append, cut, hw, hrest]
  · rw [← hw]
    exact ho

/-- The items of the lexemes of a text are those of its reading. -/
theorem reads_itemsFrom (start : Nat) (cs : List Char) :
    Reads start cs (itemsFrom start (cut cs)) := by
  fun_induction cut cs generalizing start with
  | case1 => exact .done
  | case2 c cs ih =>
    have hfront := isRead c cs
    have hcs : c :: cs =
        (c :: cs.take (Lexeme.measure c cs).2) ++ cs.drop (Lexeme.measure c cs).2 := by simp
    unfold IsRead at hfront
    rw [itemsFrom]
    split
    · next hread =>
      rw [hread] at hfront
      rw [hcs]
      exact .skipped hfront (ih _)
    · next outcome hread =>
      rw [hread] at hfront
      rw [hcs]
      exact .item hfront (ih _)

theorem itemsFrom_of_reads {start : Nat} {cs : List Char} {items : List LexicalItem}
    (h : Reads start cs items) : itemsFrom start (cut cs) = items := by
  induction h with
  | done => rw [cut]; rfl
  | skipped h _ ih =>
    obtain ⟨shape, hcut, hread⟩ := h.cut_eq
    rw [hcut, itemsFrom, hread]
    exact ih
  | item h _ ih =>
    obtain ⟨shape, hcut, hread⟩ := h.cut_eq
    rw [hcut, itemsFrom, hread]
    exact congrArg _ ih

/-- **Longest match.** The items of a source are those of its reading: at each place what is taken
is the longest text that any pattern matches, and one pattern only matches it, but for the exception
of a point before a letter that begins no exponent. -/
theorem lexicalItems_eq_iff (source : String) (items : List LexicalItem) :
    lexicalItems source = items ↔ Reads 0 source.toList items := by
  constructor
  · rintro rfl
    exact reads_itemsFrom 0 source.toList
  · exact itemsFrom_of_reads

end Calculator
