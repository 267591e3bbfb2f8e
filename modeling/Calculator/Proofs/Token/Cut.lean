import Calculator.Parser.Placed

/-!
# Cutting a source

How `Lexeme.cut` and `placedFrom` go on from one lexeme to the next.

* `measure_leftParen`, `measure_rightParen`: a parenthesis stands alone, whatever follows.
* `cut_cons`: the first lexeme and the rest.
* `exists_lexeme_of_mem_placedFrom`, `exists_lexeme_of_placedFrom_eq_error`: tokens and faults are
  read from lexemes.
* `placedFrom_cons_token`: a lexeme that is a token.
* `placedFrom_cut_token`, `placedFrom_cut_blank`: one character that is a lexeme.
* `length_tokenize_le`: a source has at most as many tokens as characters.
* `pairwise_column_tokenize`: the columns of its tokens increase.
-/

namespace Calculator

open Lexeme

/-- Every lexeme takes at least one character. -/
theorem length_cut_le (cs : List Char) : (cut cs).length ≤ cs.length := by
  fun_induction cut cs with
  | case1 => exact Nat.le_refl 0
  | case2 c cs ih =>
    have hdrop := List.length_drop (l := cs) (i := (measure c cs).2)
    simp only [List.length_cons]
    omega

/-- Every token is a lexeme. -/
theorem length_placedFrom_le {column : Nat} {ls : List Lexeme} {ts : List Placed}
    (h : placedFrom column ls = .ok ts) : ts.length ≤ ls.length := by
  induction ls generalizing column ts with
  | nil => cases h; exact Nat.le_refl 0
  | cons l ls ih =>
    unfold placedFrom at h
    split at h
    · exact Nat.le_succ_of_le (ih h)
    · cases hr : placedFrom (column + l.chars.length) ls with
      | error err => rw [hr] at h; cases h
      | ok us => rw [hr] at h; cases h; exact Nat.succ_le_succ (ih hr)
    · cases h

/-- A source has at most as many tokens as characters. -/
theorem length_tokenize_le {source : String} {ts : List Placed} (h : tokenize source = .ok ts) :
    ts.length ≤ source.length :=
  Nat.le_trans (length_placedFrom_le h) (length_cut_le source.toList)

/-- Every token is read from a lexeme. -/
theorem exists_lexeme_of_mem_placedFrom {column : Nat} {ls : List Lexeme} {ts : List Placed}
    (h : placedFrom column ls = .ok ts) {t : Placed} (ht : t ∈ ts) :
    ∃ l ∈ ls, l.read? = some (.ok t.token) := by
  induction ls generalizing column ts with
  | nil => cases h; cases ht
  | cons l ls ih =>
    unfold placedFrom at h
    split at h
    · obtain ⟨l', hl', hread⟩ := ih h ht
      exact ⟨l', List.mem_cons_of_mem _ hl', hread⟩
    · next token htoken =>
      cases hr : placedFrom (column + l.chars.length) ls with
      | error err => rw [hr] at h; cases h
      | ok us =>
        rw [hr] at h
        cases h
        rcases List.mem_cons.1 ht with rfl | ht
        · exact ⟨l, List.mem_cons_self, htoken⟩
        · obtain ⟨l', hl', hread⟩ := ih hr ht
          exact ⟨l', List.mem_cons_of_mem _ hl', hread⟩
    · cases h

/-- Every fault is read from a lexeme. -/
theorem exists_lexeme_of_placedFrom_eq_error {column : Nat} {ls : List Lexeme} {e : ParseError}
    (h : placedFrom column ls = .error e) :
    ∃ l ∈ ls, ∃ fault, l.read? = some (.error fault) ∧ e.fault = l.parseFault fault := by
  induction ls generalizing column with
  | nil => cases h
  | cons l ls ih =>
    have hlater (h : placedFrom (column + l.chars.length) ls = .error e) :
        ∃ l' ∈ l :: ls, ∃ fault, l'.read? = some (.error fault) ∧
          e.fault = l'.parseFault fault := by
      obtain ⟨l', hl', hread⟩ := ih h
      exact ⟨l', List.mem_cons_of_mem _ hl', hread⟩
    unfold placedFrom at h
    split at h
    · exact hlater h
    · cases hr : placedFrom (column + l.chars.length) ls with
      | error err =>
        rw [hr] at h
        cases h
        exact hlater hr
      | ok us =>
        rw [hr] at h
        cases h
    · next fault hread =>
      cases h
      exact ⟨l, List.mem_cons_self, fault, hread, rfl⟩

/-- Every token stands at the column of the first lexeme or after it. -/
theorem le_column_of_mem_placedFrom {column : Nat} {ls : List Lexeme} {ts : List Placed}
    (h : placedFrom column ls = .ok ts) : ∀ t ∈ ts, column ≤ t.column := by
  induction ls generalizing column ts with
  | nil => cases h; simp
  | cons l ls ih =>
    unfold placedFrom at h
    split at h
    · exact fun t ht => Nat.le_trans (Nat.le_add_right _ _) (ih h t ht)
    · cases hr : placedFrom (column + l.chars.length) ls with
      | error err => rw [hr] at h; cases h
      | ok us =>
        rw [hr] at h
        cases h
        refine List.forall_mem_cons.2 ⟨Nat.le_refl _, fun t ht => ?_⟩
        exact Nat.le_trans (Nat.le_add_right _ _) (ih hr t ht)
    · cases h

/-- The columns of tokens increase. -/
theorem pairwise_column_placedFrom {column : Nat} {ls : List Lexeme} {ts : List Placed}
    (hne : ∀ l ∈ ls, l.chars ≠ []) (h : placedFrom column ls = .ok ts) :
    ts.Pairwise (·.column < ·.column) := by
  induction ls generalizing column ts with
  | nil => cases h; exact .nil
  | cons l ls ih =>
    have hpos := List.length_pos_iff.2 (hne l List.mem_cons_self)
    have ih := fun {column us} => @ih column us fun l' hl' => hne l' (.tail l hl')
    unfold placedFrom at h
    split at h
    · exact ih h
    · cases hr : placedFrom (column + l.chars.length) ls with
      | error err => rw [hr] at h; cases h
      | ok us =>
        rw [hr] at h
        cases h
        refine .cons (fun u hu => ?_) (ih hr)
        have hle := le_column_of_mem_placedFrom hr u hu
        show column < u.column
        omega
    · cases h

/-- No lexeme is empty. -/
theorem chars_ne_nil_of_mem_cut (cs : List Char) : ∀ l ∈ cut cs, l.chars ≠ [] := by
  fun_induction cut cs with
  | case1 => simp
  | case2 c cs ih => exact List.forall_mem_cons.2 ⟨List.cons_ne_nil _ _, ih⟩

/-- The columns of the tokens of a source increase. -/
theorem pairwise_column_tokenize {source : String} {ts : List Placed}
    (h : tokenize source = .ok ts) : ts.Pairwise (·.column < ·.column) :=
  pairwise_column_placedFrom (chars_ne_nil_of_mem_cut source.toList) h

section

variable {column : Nat} {c : Char} {cs : List Char} {ts : List Placed}

theorem measure_leftParen (cs : List Char) : Lexeme.measure '(' cs = (.leftParen, 0) := by
  cases cs <;> rfl

theorem measure_rightParen (cs : List Char) : Lexeme.measure ')' cs = (.rightParen, 0) := by
  cases cs <;> rfl

/-- One blank before what is none. -/
theorem measure_blank (hc : isBlank c = false) :
    Lexeme.measure ' ' (c :: cs) = (.blank, 0) := by
  change (Shape.blank, runLength isBlank (c :: cs)) = _
  rw [runLength, List.takeWhile_cons, hc]
  rfl

/-- A lexeme and what follows it. -/
theorem cut_cons {shape : Shape} {rest : List Char}
    (h : Lexeme.measure c (cs ++ rest) = (shape, cs.length)) :
    cut (c :: (cs ++ rest)) = ⟨shape, c :: cs⟩ :: cut rest := by
  rw [cut, h]
  dsimp only
  rw [List.take_left, List.drop_left]

/-- A lexeme that is a token. -/
theorem placedFrom_cons_token {l : Lexeme} {ls : List Lexeme} {token : Token}
    (hread : l.read? = some (.ok token))
    (hrest : placedFrom (column + l.chars.length) ls = .ok ts) :
    placedFrom column (l :: ls) = .ok (⟨token, column⟩ :: ts) := by
  simp only [placedFrom, hread, hrest]
  rfl

/-- A character that is a token. -/
theorem placedFrom_cut_token (shape : Shape) {token : Token}
    (h : Lexeme.measure c cs = (shape, 0)) (hread : read? ⟨shape, [c]⟩ = some (.ok token))
    (hrest : placedFrom (column + 1) (cut cs) = .ok ts) :
    placedFrom column (cut (c :: cs)) = .ok (⟨token, column⟩ :: ts) := by
  rw [cut, h]
  exact placedFrom_cons_token hread hrest

/-- A blank alone. -/
theorem placedFrom_cut_blank (h : Lexeme.measure c cs = (.blank, 0))
    (hrest : placedFrom (column + 1) (cut cs) = .ok ts) :
    placedFrom column (cut (c :: cs)) = .ok ts := by
  rw [cut, h]
  exact hrest

end

end Calculator
