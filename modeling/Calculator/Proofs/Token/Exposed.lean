import Calculator.Proofs.Token.Placement
import Calculator.Proofs.Token.Separation

/-!
# What stands exposed after a source

A text without printed characters, put after a source, does not change what is read before it. Where
the source ends in a comment, the comment goes on up to a line end of that text. What is left of the
text stands exposed: its blanks are passed over, and anything else in it is a fault, which is met
after those of the source.

* `endsInComment`, `exposed`: what of a text after a source belongs to no comment of the source.
* `front_of_not_isPrinted`: a character that is neither a blank nor printed starts no token.
* `Front.append_not_isPrinted`: what is not printed does not change what is read before it.
* `placedFrom_append_exposed`: the tokens of a source, and then what stands exposed after it.
* `placedFrom_append_blanks`, `placedFrom_append_fault`: blanks that stand exposed, or what else
  does.
-/

namespace Calculator

open Lexeme Pattern

/-- The source ends in a comment, which goes on with what is put after it. -/
def endsInComment (cs : List Char) : Bool := (cut cs).getLast?.any (·.shape = .comment)

/-- What of the text `f` belongs to no comment when it is put after a source: all of it, or, where
the source ends in a comment, what is left from the next line end on. -/
def exposed (cs f : List Char) : List Char :=
  if endsInComment cs then f.dropWhile (!isLineEnd ·) else f

theorem exposed_suffix (cs f : List Char) : exposed cs f <:+ f := by
  unfold exposed
  split
  · exact List.dropWhile_suffix _
  · exact List.suffix_refl f

section

variable {w rest f cs blanks : List Char} {c : Char} {column : Nat}

/-! ## What is not printed -/

/-- A character that is neither a blank nor printed starts no token. -/
theorem front_of_not_isPrinted (hc : isPrinted c = false) (hblank : isBlank c = false)
    (rest : List Char) : Front [c] rest (some (.error .unexpectedCharacter)) := by
  have hne : ∀ d, isPrinted d → c ≠ d := by
    rintro d hd rfl
    rw [hc] at hd
    cases hd
  have hname : isNamePart c = false := by
    rw [Bool.eq_false_iff]
    intro hname
    have hseparates := separates_of_isNamePart hname
    rw [separates_of_not_isPrinted hc] at hseparates
    cases hseparates
  have hbegins : BeginsSymbol c := by
    obtain ⟨hdigit, hstart⟩ := Bool.or_eq_false_iff.1 hname
    refine ⟨hblank, hne '#' rfl, hdigit, hne '.' rfl, hstart, ?_⟩
    rintro (rfl | rfl)
    · exact hne '\x27' rfl rfl
    · exact hne '\x22' rfl rfl
  have hnot (text : String) (htext : text.toList.all isPrinted) : c ∉ text.toList :=
    fun hmem => hne c (List.all_eq_true.1 htext c hmem) rfl
  refine .stray (not_mem_language_of_stray hbegins (hnot _ (by decide)) ?_)
  rw [Bool.eq_false_iff]
  exact fun h => hnot "<>=!&|^~@,;:[]\x7b\x7d." (by decide) (List.contains_iff_mem.1 h)

/-- Where a line end stands before the next quote, one does also with a text behind that has no
such quote. -/
theorem exists_lineEnd_append_of_not_mem {quote : Char} (hf : quote ∉ f)
    (h : ∀ body after, rest = body ++ quote :: after → ∃ c ∈ body, isLineEnd c)
    (body after : List Char) (heq : rest ++ f = body ++ quote :: after) :
    ∃ c ∈ body, isLineEnd c := by
  rcases List.append_eq_append_iff.1 heq with ⟨us, -, rfl⟩ | ⟨us, rfl, hus⟩
  · exact absurd (by simp) hf
  · cases us with
    | nil => exact absurd (by rw [← List.nil_append f, ← hus]; simp) hf
    | cons u us =>
      obtain ⟨rfl, -⟩ := List.cons.inj hus
      exact h body us rfl

/-- What is not printed does not change what is read before it, be it a token or a fault. -/
theorem Front.append_not_isPrinted {outcome : Except LexicalFault Token}
    (h : Front w rest (some outcome)) (hf : ∀ c ∈ f, isPrinted c = false) :
    Front w (rest ++ f) (some outcome) := by
  cases f with
  | nil => rwa [List.append_nil]
  | cons c x =>
  have hc := separates_of_not_isPrinted (hf c List.mem_cons_self)
  refine h.append_separates h.isBlank_head hc fun p v extra hv htakes => ?_
  generalize ho : some outcome = o at htakes ⊢
  cases htakes with
  | plain hp => exact .plain hp
  | closed hp hbody => exact .closed hp hbody
  | comment => cases ho
  | @unclosed _ hp quote _ hrest =>
    have hquote : quote ∉ c :: x := fun hmem => by
      have hprinted := isPrinted_of_isQuote hp hv
      rw [hf quote hmem] at hprinted
      cases hprinted
    exact .unclosed hp (exists_lineEnd_append_of_not_mem hquote hrest)

/-- Where a character that is neither a blank nor printed stands first, there are no tokens. -/
theorem placedFrom_not_isPrinted (hblanks : ∀ d ∈ blanks, isBlank d) (hc : isPrinted c = false)
    (hblank : isBlank c = false) (rest : List Char) :
    placedFrom column (cut (blanks ++ c :: rest)) =
      .error ⟨.unexpectedCharacter c, column + blanks.length⟩ := by
  rw [placedFrom_filler (.of_blanks hblanks), ← List.singleton_append,
    placedFrom_fault (front_of_not_isPrinted hc hblank rest), LexicalFault.parseFault,
    String.toList_ofList]
  rfl

/-! ## What stands exposed -/

theorem exposed_nil (f : List Char) : exposed [] f = f := by
  rw [exposed, endsInComment, cut]
  rfl

/-- Only the last lexeme of a source tells whether it ends in a comment. -/
theorem exposed_front {shape : Shape} (hcut : cut (w ++ rest) = ⟨shape, w⟩ :: cut rest)
    (h : rest = [] → shape ≠ .comment) (f : List Char) :
    exposed (w ++ rest) f = exposed rest f := by
  cases rest with
  | nil =>
    rw [exposed_nil, exposed, endsInComment, hcut, cut]
    simp [h rfl]
  | cons c x =>
    have hlast : (cut (w ++ c :: x)).getLast? = (cut (c :: x)).getLast? := by
      rw [hcut, cut, List.getLast?_cons_cons]
    rw [exposed, exposed, endsInComment, endsInComment, hlast]

/-- A token or a fault at the end of a source leaves all exposed. -/
theorem exposed_item {outcome : Except LexicalFault Token} (h : Front w rest (some outcome))
    (f : List Char) : exposed (w ++ rest) f = exposed rest f := by
  obtain ⟨shape, hcut, hread⟩ := h.cut_eq
  refine exposed_front hcut (fun _ => ?_) f
  rintro rfl
  cases hread

/-- So do blanks. -/
theorem exposed_blanks (h : Front w rest none) (hw : ∀ c ∈ w, isBlank c) (f : List Char) :
    exposed (w ++ rest) f = exposed rest f := by
  obtain ⟨shape, hcut, -⟩ := h.cut_eq
  refine exposed_front hcut (fun _ => ?_) f
  obtain ⟨c, x, rfl⟩ := List.exists_cons_of_ne_nil h.ne_nil
  rw [List.cons_append, cut] at hcut
  have hshape : (Lexeme.measure c (x ++ rest)).1 = shape :=
    congrArg Lexeme.shape (List.cons.inj hcut).1
  rw [← hshape]
  simp [Lexeme.measure, hw c List.mem_cons_self]

/-- The comment that a source ends in goes on up to the next line end. -/
theorem exposed_comment (hw : ∀ c ∈ w, isLineEnd c = false) (f : List Char) :
    exposed ('#' :: w) f = f.dropWhile (!isLineEnd ·) := by
  have hend : ∀ c ∈ ([] : List Char).head?, (!isLineEnd c) = false := by simp
  have hm : Lexeme.measure '#' (w ++ []) = (.comment, w.length) := by
    rw [← runLength_append (by simpa using hw) hend]
    rfl
  have hcut : cut ('#' :: w) = [⟨.comment, '#' :: w⟩] := by
    rw [← List.append_nil w, cut_cons hm, cut]
    simp
  rw [exposed, endsInComment, hcut]
  rfl

/-- What is put after a comment at the end of a source belongs to it up to a line end. -/
theorem placedFrom_comment_append (hw : ∀ c ∈ w, isLineEnd c = false) (f : List Char) :
    placedFrom column (cut ('#' :: w ++ f)) =
      placedFrom (column + ('#' :: w ++ f).length - (exposed ('#' :: w) f).length)
        (cut (exposed ('#' :: w) f)) := by
  rw [exposed_comment hw]
  obtain ⟨hidden, rest, rfl, hhidden, hrest⟩ := exists_run (!isLineEnd ·) f
  have hbody : ∀ c ∈ w ++ hidden, isLineEnd c = false :=
    List.forall_mem_append.2 ⟨hw, by simpa using hhidden⟩
  have hcolumn : column + ((w ++ hidden).length + 1) =
      column + ('#' :: w ++ (hidden ++ rest)).length - rest.length := by
    simp only [List.cons_append, List.length_cons, List.length_append]
    omega
  rw [dropWhile_run hhidden hrest, ← hcolumn, List.cons_append, ← List.append_assoc,
    placedFrom_comment hbody (by simpa using hrest)]

/-- The tokens of a source come first, if there is no fault among them, and then what stands
exposed after the source. The induction is on what is read of the source. -/
theorem placedFrom_append_exposed (hf : ∀ c ∈ f, isPrinted c = false) (cs : List Char) :
    placedFrom column (cut (cs ++ f)) =
      (do let ts ← placedFrom column (cut cs)
          let us ← placedFrom (column + (cs ++ f).length - (exposed cs f).length)
            (cut (exposed cs f))
          return ts ++ us) := by
  have hcolumn : ∀ column (w rest e : List Char), column + (w ++ rest ++ f).length - e.length =
      column + w.length + (rest ++ f).length - e.length := by
    intro column w rest e
    rw [List.append_assoc, List.length_append, Nat.add_assoc]
  obtain ⟨start, items, hreads⟩ : ∃ start items, Reads start cs items :=
    ⟨0, _, reads_itemsFrom 0 cs⟩
  induction hreads generalizing column with
  | done =>
    have hdone : column + f.length - f.length = column := Nat.add_sub_cancel ..
    rw [List.nil_append, exposed_nil, cut, hdone]
    exact (bind_pure _).symm
  | @skipped start w rest items hw hrest ih =>
    rcases hw.blanks_or_comment rfl with hblanks | ⟨body, rfl, hbody, hend⟩
    · rw [exposed_blanks hw hblanks, hcolumn, List.append_assoc,
        placedFrom_filler (.of_blanks hblanks), placedFrom_nothing hw, ih]
    · cases rest with
      | nil =>
        rw [placedFrom_nothing hw, cut, List.append_nil, placedFrom_comment_append hbody]
        exact (bind_pure _).symm
      | cons e rest =>
        obtain ⟨shape, hcut, -⟩ := hw.cut_eq
        have hne : e :: rest = [] → shape ≠ .comment := fun h => absurd h (List.cons_ne_nil e rest)
        have hnext : placedFrom column (cut ('#' :: body ++ e :: rest ++ f)) =
            placedFrom (column + ('#' :: body).length) (cut (e :: rest ++ f)) := by
          rw [List.append_assoc, List.cons_append]
          exact placedFrom_comment hbody hend
        rw [exposed_front hcut hne, hcolumn, hnext, placedFrom_nothing hw, ih]
  | @item start w rest items outcome hw hrest ih =>
    rw [exposed_item hw, hcolumn, List.append_assoc]
    have hw' := hw.append_not_isPrinted hf
    cases outcome with
    | error fault =>
      rw [placedFrom_fault hw, placedFrom_fault hw']
      rfl
    | ok token =>
      rw [placedFrom_token hw, placedFrom_token hw', ih]
      cases placedFrom (column + w.length) (cut rest) with
      | error => rfl
      | ok ts =>
        show Except.map _ (Except.bind _ _) = _
        cases placedFrom _ (cut (exposed rest f)) <;> rfl

/-- Where all that stands exposed are blanks, there are the tokens or the fault of the source. -/
theorem placedFrom_append_blanks (hf : ∀ c ∈ f, isPrinted c = false)
    (hblanks : ∀ c ∈ exposed cs f, isBlank c) :
    placedFrom column (cut (cs ++ f)) = placedFrom column (cut cs) := by
  have hnone : ∀ column, placedFrom column (cut (exposed cs f)) = .ok [] :=
    fun _ => placedFrom_of_filler (.of_blanks hblanks)
  rw [placedFrom_append_exposed hf, hnone]
  cases placedFrom column (cut cs) with
  | error => rfl
  | ok ts => exact congrArg Except.ok (List.append_nil ts)

/-- What else stands exposed is a fault, unless the source has one. -/
theorem placedFrom_append_fault (hf : ∀ c ∈ f, isPrinted c = false)
    (hexposed : exposed cs f = blanks ++ c :: rest) (hblanks : ∀ d ∈ blanks, isBlank d)
    (hblank : isBlank c = false) {ts : List Placed} (h : placedFrom column (cut cs) = .ok ts) :
    placedFrom column (cut (cs ++ f)) =
      .error ⟨.unexpectedCharacter c, column + (cs ++ f).length - (rest.length + 1)⟩ := by
  have hsuffix : blanks ++ c :: rest <:+ f := hexposed ▸ exposed_suffix cs f
  have hcolumn : column + (cs ++ f).length - (blanks ++ c :: rest).length + blanks.length =
      column + (cs ++ f).length - (rest.length + 1) := by
    have hlength := hsuffix.length_le
    simp only [List.length_append, List.length_cons] at hlength ⊢
    omega
  have hc : isPrinted c = false := hf c (hsuffix.subset (by simp))
  rw [placedFrom_append_exposed hf, h, hexposed, placedFrom_not_isPrinted hblanks hc hblank,
    hcolumn]
  rfl

end

end Calculator
