import Calculator.Proofs.Columns
import Calculator.Proofs.Token.Placement
import Calculator.Proofs.Token.Separation

/-!
# Filler between tokens

Blanks and comments may be put before and after every token of a source. They move the columns of
what follows them and change nothing else, neither the tokens nor the tree nor the value.

* `IsSeam`: a place before or after a token, or at one of the ends of a source.
* `movedFrom`: a column, moved if what stands there is moved.
* `placedFrom_insert`: filler at a seam moves the tokens after it.
* `insert_filler`: filler at a seam of a source, its tokens, its trees and its values.
-/

namespace Calculator

open Lexeme

/-- A source may be cut in two before and after each of its tokens and faults, and at both ends. -/
def IsSeam (before after : String) : Prop :=
  before = "" ∨ after = "" ∨
    ∃ i ∈ lexicalItems (before ++ after),
      before.utf8ByteSize = i.start ∨ before.utf8ByteSize = i.stop

instance (before after : String) : Decidable (IsSeam before after) :=
  inferInstanceAs (Decidable (_ ∨ _ ∨ _))

/-- The column of a character after `n` characters have been put before column `first`. -/
def movedFrom (first n column : Nat) : Nat := if first ≤ column then column + n else column

section

variable {first n column start stop : Nat} {f w as bs cs gap rest : List Char} {ls : List Lexeme}
  {ts : List Placed} {items : List LexicalItem}

theorem movedFrom_of_le (h : first ≤ column) : movedFrom first n column = column + n := if_pos h

theorem movedFrom_of_lt (h : column < first) : movedFrom first n column = column :=
  if_neg (Nat.not_le.2 h)

/-! ## Tokens that move -/

/-- Columns count on from the first. -/
theorem placedFrom_add (column n : Nat) (ls : List Lexeme) :
    placedFrom (column + n) ls =
      ((placedFrom column ls).map (·.map (·.mapColumn (· + n)))).mapError
        (·.mapColumn (· + n)) := by
  induction ls generalizing column with
  | nil => rfl
  | cons l ls ih =>
    have hnext : column + n + l.chars.length = column + l.chars.length + n := by omega
    unfold placedFrom
    rw [hnext]
    split
    · exact ih _
    · rw [ih]
      cases placedFrom (column + l.chars.length) ls <;> rfl
    · rfl

/-- Filler before the tokens moves all of them. -/
theorem placedFrom_insert_front (hf : Filler f) (h : placedFrom column (cut cs) = .ok ts) :
    placedFrom column (cut (f ++ cs)) =
      .ok (ts.map (·.mapColumn (movedFrom column f.length))) := by
  rw [placedFrom_filler hf, placedFrom_add, h]
  show Except.ok _ = Except.ok _
  congr 1
  refine List.map_congr_left fun t ht => ?_
  show (⟨t.token, t.column + f.length⟩ : Placed) = ⟨t.token, movedFrom column f.length t.column⟩
  rw [movedFrom_of_le (le_column_of_mem_placedFrom h t ht)]

/-! ## Seams -/

/-- The text `as ++ bs`, whose items start at byte `start` or later, is cut in two at a seam. -/
def SeamFrom (start : Nat) (items : List LexicalItem) (as bs : List Char) : Prop :=
  as = [] ∨ bs = [] ∨
    ∃ i ∈ items, start + byteCount as = i.start ∨ start + byteCount as = i.stop

theorem Reads.le_start (h : Reads start cs items) :
    ∀ i ∈ items, start ≤ i.start ∧ start ≤ i.stop := by
  induction h with
  | done => simp
  | skipped _ _ ih =>
    exact fun i hi => ⟨Nat.le_trans (Nat.le_add_right _ _) (ih i hi).1,
      Nat.le_trans (Nat.le_add_right _ _) (ih i hi).2⟩
  | item _ _ ih =>
    refine List.forall_mem_cons.2 ⟨⟨Nat.le_refl _, Nat.le_add_right _ _⟩, fun i hi => ?_⟩
    exact ⟨Nat.le_trans (Nat.le_add_right _ _) (ih i hi).1,
      Nat.le_trans (Nat.le_add_right _ _) (ih i hi).2⟩

/-- A seam at the end of the first item of a text, or later, is one of what follows the item. -/
theorem SeamFrom.of_stop_le {i : LexicalItem} (heq : gap ++ (w ++ rest) = as ++ bs)
    (hstop : i.stop = start + byteCount gap + byteCount w) (hle : i.stop ≤ start + byteCount as)
    (hat : bs = [] ∨ start + byteCount as = i.stop ∨
      ∃ j ∈ items, start + byteCount as = j.start ∨ start + byteCount as = j.stop) :
    ∃ as', as = gap ++ (w ++ as') ∧ rest = as' ++ bs ∧ SeamFrom i.stop items as' bs := by
  rw [← List.append_assoc] at heq
  obtain ⟨as', rfl, rfl⟩ := exists_append_of_byteCount heq (by rw [byteCount_append]; omega)
  have hbytes : start + byteCount (gap ++ w ++ as') = i.stop + byteCount as' := by
    rw [byteCount_append, byteCount_append]
    omega
  refine ⟨as', List.append_assoc .., rfl, ?_⟩
  rw [hbytes] at hat
  rcases hat with hbs | hend | hlater
  · exact .inr (.inl hbs)
  · exact .inl (eq_nil_of_byteCount (by omega))
  · exact .inr (.inr hlater)

/-- A seam of a text stands at its start, before its first item, or it is a seam of what follows
that item. -/
theorem SeamFrom.cases {i : LexicalItem} (hseam : SeamFrom start (i :: items) as bs)
    (heq : gap ++ (w ++ rest) = as ++ bs) (hstart : i.start = start + byteCount gap)
    (hstop : i.stop = start + byteCount gap + byteCount w) (hrest : Reads i.stop rest items) :
    as = [] ∨ (as = gap ∧ bs = w ++ rest) ∨
      ∃ as', as = gap ++ (w ++ as') ∧ rest = as' ++ bs ∧ SeamFrom i.stop items as' bs := by
  rcases hseam with has | rfl | ⟨j, hj, hat⟩
  · exact .inl has
  · have hbytes := congrArg byteCount heq
    simp only [List.append_nil, byteCount_append] at hbytes
    exact .inr (.inr (SeamFrom.of_stop_le heq hstop (by omega) (.inl rfl)))
  · rcases List.mem_cons.1 hj with rfl | hj
    · rcases hat with hat | hat
      · obtain ⟨rfl, rfl⟩ := append_inj_of_byteCount heq (by omega)
        exact .inr (.inl ⟨rfl, rfl⟩)
      · exact .inr (.inr (SeamFrom.of_stop_le heq hstop (by omega) (.inr (.inl hat))))
    · have hle := hrest.le_start j hj
      exact .inr (.inr (SeamFrom.of_stop_le heq hstop (by omega) (.inr (.inr ⟨j, hj, hat⟩))))

/-! ## Insertion -/

/-- Filler after the last token adds none, also where it goes on with a comment. -/
theorem placedFrom_ending_append (hrest : Ending rest) (hf : Filler f) :
    placedFrom column (cut (rest ++ f)) = .ok [] := by
  cases hrest with
  | nothing => exact placedFrom_of_filler hf
  | comment hbody =>
    rcases hf.comment_append hbody with hfiller | hending
    · exact placedFrom_of_filler hfiller
    · exact placedFrom_ending hending

/-- Filler at a seam moves the tokens after it. The induction is on the items: a token before the
seam is read as it was, since filler ends every token. -/
theorem placedFrom_insert (hf : Filler f) (hreads : Reads start (as ++ bs) items)
    (hseam : SeamFrom start items as bs) (h : placedFrom column (cut (as ++ bs)) = .ok ts) :
    placedFrom column (cut (as ++ (f ++ bs))) =
      .ok (ts.map (·.mapColumn (movedFrom (column + as.length) f.length))) := by
  generalize hcs : as ++ bs = cs at hreads h
  induction items generalizing start column as cs ts with
  | nil =>
    cases hreads.next with
    | @done gap rest hgap hrest =>
      rcases hseam with rfl | rfl | ⟨i, hi, -⟩
      · rw [← hcs] at h
        exact placedFrom_insert_front hf h
      · rw [placedFrom_filler hgap, placedFrom_ending hrest] at h
        cases h
        rw [List.append_nil] at hcs ⊢
        rw [hcs, List.append_assoc, placedFrom_filler hgap, placedFrom_ending_append hrest hf]
        rfl
      · cases hi
  | cons i items ih =>
    cases hreads.next with
    | @item gap w rest outcome stop _ hgap hw hstop hrest =>
      have hnext := h
      rw [placedFrom_filler hgap] at hnext
      rcases hseam.cases hcs.symm rfl hstop hrest with rfl | ⟨rfl, rfl⟩ | ⟨as', rfl, rfl, hseam'⟩
      · rw [← hcs] at h
        exact placedFrom_insert_front hf h
      · rw [placedFrom_filler hgap]
        exact placedFrom_insert_front hf hnext
      · obtain ⟨token, us, rfl, rfl, hrun⟩ := exists_of_placedFrom_item hw hnext
        have hlength : column + (gap ++ (w ++ as')).length =
            column + gap.length + w.length + as'.length := by
          simp only [List.length_append]
          omega
        have hbefore : movedFrom (column + gap.length + w.length + as'.length) f.length
            (column + gap.length) = column + gap.length := by
          have hpos := List.length_pos_iff.2 hw.ne_nil
          exact movedFrom_of_lt (by omega)
        rw [List.append_assoc, List.append_assoc, placedFrom_filler hgap,
          placedFrom_token (hw.insert hf), ih hseam' _ rfl hrest hrun, hlength, List.map_cons,
          Placed.mapColumn, hbefore]
        rfl

end

/-! ## Sources -/

/-- Filler at a seam of a source moves the tokens after it. -/
theorem tokenize_append_filler {before after filler : String} {ts : List Placed}
    (h : tokenize (before ++ after) = .ok ts) (hseam : IsSeam before after)
    (hfiller : Filler filler.toList) :
    tokenize (before ++ filler ++ after) =
      .ok (ts.map (·.mapColumn (movedFrom (before.length + 1) filler.length))) := by
  have hreads : Reads 0 (before.toList ++ after.toList) (lexicalItems (before ++ after)) := by
    rw [← String.toList_append]
    exact reads_itemsFrom 0 _
  have hseam' : SeamFrom 0 (lexicalItems (before ++ after)) before.toList after.toList := by
    unfold SeamFrom
    rw [Nat.zero_add, byteCount, String.ofList_toList, String.toList_eq_nil_iff,
      String.toList_eq_nil_iff]
    exact hseam
  rw [tokenize, String.toList_append] at h
  have hmoved := placedFrom_insert hfiller hreads hseam' h
  rw [String.length_toList, String.length_toList, Nat.add_comm 1] at hmoved
  rw [tokenize, String.toList_append, String.toList_append, List.append_assoc]
  exact hmoved

/-- The value of a source text that an evaluator computes, with a limit on nesting. -/
def Evaluator.calculate (ev : Evaluator) (limit : Nat) (source : String) :
    Except CalculationError Number := do
  let tree ← (parseWithin source limit).mapError .parse
  (ev.value tree).mapError .eval

/-- A source that has the tree of another with other columns has its value, or its error with other
columns. -/
theorem Evaluator.calculate_mapColumns (ev : Evaluator) {σ : Nat → Nat} {limit : Nat}
    {source source' : String} (h : parseWithin source' limit =
      ((parseWithin source limit).map (·.mapColumns σ)).mapError (·.mapColumn σ)) :
    ev.calculate limit source' = (ev.calculate limit source).mapError (·.mapColumn σ) := by
  rw [Evaluator.calculate, Evaluator.calculate, h]
  cases parseWithin source limit with
  | error err => rfl
  | ok tree =>
    show (ev.value (tree.mapColumns σ)).mapError _ = ((ev.value tree).mapError _).mapError _
    rw [Evaluator.value_mapColumns]
    cases ev.value tree <;> rfl

/-- **Filler between tokens never matters.** Blanks and comments put before or after a token of a
source, or at one of its ends, leave the tokens as they are and move the columns of those that
follow, by the number of characters put there. The tree is the same, or the fault of the parser is,
and the value is the same, or the error of the evaluation is, with the columns moved in the same
way. -/
theorem insert_filler {before after filler : String} {ts : List Placed}
    (h : tokenize (before ++ after) = .ok ts) (hseam : IsSeam before after)
    (hfiller : Filler filler.toList) :
    let σ := movedFrom (before.length + 1) filler.length
    tokenize (before ++ filler ++ after) = .ok (ts.map (·.mapColumn σ)) ∧
      (∀ limit, parseWithin (before ++ filler ++ after) limit =
        ((parseWithin (before ++ after) limit).map (·.mapColumns σ)).mapError (·.mapColumn σ)) ∧
      (∀ (ev : Evaluator) limit, ev.calculate limit (before ++ filler ++ after) =
        (ev.calculate limit (before ++ after)).mapError (·.mapColumn σ)) ∧
      calculate (before ++ filler ++ after) =
        (calculate (before ++ after)).mapError (·.mapColumn σ) := by
  intro σ
  have htokens : tokenize (before ++ filler ++ after) = .ok (ts.map (·.mapColumn σ)) :=
    tokenize_append_filler h hseam hfiller
  have hend : (before ++ filler ++ after).length + 1 = σ ((before ++ after).length + 1) := by
    show _ = movedFrom _ _ _
    simp only [String.length_append]
    rw [movedFrom_of_le (by omega)]
    omega
  have htree : ∀ limit, parseWithin (before ++ filler ++ after) limit =
      ((parseWithin (before ++ after) limit).map (·.mapColumns σ)).mapError (·.mapColumn σ) := by
    intro limit
    rw [parseWithin, parseWithin, htokens, h, hend]
    exact parseAll_mapColumns σ ts _ limit
  have hvalue : ∀ (ev : Evaluator) limit, ev.calculate limit (before ++ filler ++ after) =
      (ev.calculate limit (before ++ after)).mapError (·.mapColumn σ) :=
    fun ev limit => ev.calculate_mapColumns (htree limit)
  exact ⟨htokens, htree, hvalue, hvalue .standard defaultNesting⟩

/-- A comment that holds a parenthesis and ends with a carriage return, before a `//` that fails. -/
theorem insert_filler_before_floorDiv :
    tokenize ("7" ++ "#(\r\t" ++ "//(2-2)#") =
        .ok [⟨.integer 7, 1⟩, ⟨.operator .floorDiv, 6⟩, ⟨.leftParen, 8⟩, ⟨.integer 2, 9⟩,
          ⟨.operator .sub, 10⟩, ⟨.integer 2, 11⟩, ⟨.rightParen, 12⟩] ∧
      calculate ("7" ++ "#(\r\t" ++ "//(2-2)#") =
        .error (.eval (.arithmetic .floorDivisionByZero 6)) := by
  have htokens : tokenize ("7" ++ "//(2-2)#") =
      .ok [⟨.integer 7, 1⟩, ⟨.operator .floorDiv, 2⟩, ⟨.leftParen, 4⟩, ⟨.integer 2, 5⟩,
        ⟨.operator .sub, 6⟩, ⟨.integer 2, 7⟩, ⟨.rightParen, 8⟩] := by
    decide +kernel
  have hvalue : calculate ("7" ++ "//(2-2)#") =
      .error (.eval (.arithmetic .floorDivisionByZero 2)) := by
    decide +kernel
  have hseam : IsSeam "7" "//(2-2)#" := by
    decide +kernel
  have hbody : ∀ c ∈ ['('], isLineEnd c = false := by simp [isLineEnd]
  have hfiller : Filler "#(\r\t".toList := .comment hbody rfl (.blank rfl .nil)
  obtain ⟨hmoved, -, -, hcalculate⟩ := insert_filler htokens hseam hfiller
  rw [hvalue] at hcalculate
  exact ⟨hmoved, hcalculate⟩

end Calculator
