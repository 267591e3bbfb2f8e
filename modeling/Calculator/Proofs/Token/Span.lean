import Calculator.Proofs.Token.Placement

/-!
# Spans

The tokens and faults of a source stand one after another, each on whole characters, and all that
stands before, between and after them is filler. Their columns are counted on from one span to the
next, so that each counts all characters before its span.

* `Spanned`: what the spans of items say of the source.
* `columnsFrom?`: the columns, counted on from span to span.
* `ColumnsOf`: what the columns say of the source.
* `lexicalItems_spanned`: reading loses nothing, and the columns are right.
-/

namespace Calculator

open Lexeme

/-! ## Spans -/

/-- The byte at which the last of the items stops; `start` if there is none. -/
def endFrom (start : Nat) (items : List LexicalItem) : Nat := items.foldl (fun _ i => i.stop) start

/-- The spans of the items of a source from byte `start` on. They hold whole characters, at least
one each, and stand one after another. Before each of them, and after the last, there is filler; the
source may end in a comment. -/
structure Spanned (source : String) (start : Nat) (items : List LexicalItem) : Prop where
  inside : ∀ i ∈ items, start ≤ i.start
  nonempty : ∀ i ∈ items, i.start < i.stop
  boundaries : ∀ i ∈ items,
    String.Pos.Raw.IsValid source ⟨i.start⟩ ∧ String.Pos.Raw.IsValid source ⟨i.stop⟩
  ordered : items.Pairwise fun i j => i.start < j.start ∧ i.stop ≤ j.start
  before : ∀ done i ahead, items = done ++ i :: ahead →
    ∃ gap, textBetween? source (endFrom start done) i.start = some gap ∧ Filler gap.toList
  after : ∃ gap, textBetween? source (endFrom start items) source.utf8ByteSize = some gap ∧
    ∃ f rest, gap.toList = f ++ rest ∧ Filler f ∧ Ending rest

namespace Spanned

variable {source : String} {start : Nat} {items : List LexicalItem}

/-- Filler to the end of the source. -/
theorem nil {gap rest : List Char}
    (htext : textBetween? source start source.utf8ByteSize = some (.ofList (gap ++ rest)))
    (hgap : Filler gap) (hrest : Ending rest) : Spanned source start [] where
  inside := by simp
  nonempty := by simp
  boundaries := by simp
  ordered := .nil
  before done i ahead h := by cases done <;> cases h
  after := ⟨_, htext, gap, rest, String.toList_ofList, hgap, hrest⟩

/-- Filler and an item before the others. -/
theorem cons {i : LexicalItem} {gap : List Char} (hstart : start ≤ i.start) (hlt : i.start < i.stop)
    (hvalid : String.Pos.Raw.IsValid source ⟨i.start⟩ ∧ String.Pos.Raw.IsValid source ⟨i.stop⟩)
    (htext : textBetween? source start i.start = some (.ofList gap)) (hgap : Filler gap)
    (h : Spanned source i.stop items) : Spanned source start (i :: items) where
  inside := by
    intro j hj
    rcases List.mem_cons.1 hj with rfl | hj
    · exact hstart
    · exact Nat.le_trans (Nat.le_trans hstart (Nat.le_of_lt hlt)) (h.inside j hj)
  nonempty := List.forall_mem_cons.2 ⟨hlt, h.nonempty⟩
  boundaries := List.forall_mem_cons.2 ⟨hvalid, h.boundaries⟩
  ordered := List.pairwise_cons.2
    ⟨fun j hj => ⟨Nat.lt_of_lt_of_le hlt (h.inside j hj), h.inside j hj⟩, h.ordered⟩
  before := by
    intro done j ahead hitems
    cases done with
    | nil =>
      obtain ⟨rfl, -⟩ := List.cons.inj hitems
      exact ⟨_, htext, by rwa [String.toList_ofList]⟩
    | cons i' done =>
      obtain ⟨rfl, htail⟩ := List.cons.inj hitems
      exact h.before done j ahead htail
  after := h.after

end Spanned

theorem spanned_of_reads {source : String} {pre cs : List Char} {items : List LexicalItem}
    {start : Nat} (hsource : source.toList = pre ++ cs) (hstart : start = byteCount pre)
    (h : Reads start cs items) : Spanned source start items := by
  induction items generalizing start pre cs with
  | nil =>
    cases h.next with
    | @done gap rest hgap hrest =>
      have hsplit : source.toList = pre ++ ((gap ++ rest) ++ []) := by simpa using hsource
      refine .nil (textBetween?_eq hsplit hstart ?_) hgap hrest
      rw [hstart, ← byteCount_append, ← hsource, byteCount, String.ofList_toList]
  | cons i items ih =>
    cases h.next with
    | @item gap w rest outcome stop _ hgap hw hstop hrest =>
      have hpos := byteCount_pos hw.ne_nil
      have hbefore : start + byteCount gap = byteCount (pre ++ gap) := by
        rw [byteCount_append, hstart]
      have hstop' : stop = byteCount (pre ++ (gap ++ w)) := by
        rw [hstop, hbefore, ← byteCount_append, List.append_assoc]
      have hfirst : source.toList = (pre ++ gap) ++ (w ++ rest) := by simpa using hsource
      have hlast : source.toList = (pre ++ (gap ++ w)) ++ rest := by simpa using hsource
      refine .cons (Nat.le_add_right _ _) (by dsimp only; omega) ⟨?_, ?_⟩
        (textBetween?_eq hsource hstart rfl) hgap (ih hlast hstop' hrest)
      · show String.Pos.Raw.IsValid source ⟨start + byteCount gap⟩
        rw [hbefore]
        exact isValid_of_toList_eq hfirst
      · show String.Pos.Raw.IsValid source ⟨stop⟩
        rw [hstop']
        exact isValid_of_toList_eq hlast

/-! ## Columns -/

/-- The columns of items, where the character at byte `offset` stands at `column`: each adds to the
column before it the characters from there up to its own span. There are none if the text between
two bytes is not to be had. -/
def columnsFrom? (source : String) (offset column : Nat) : List LexicalItem → Option (List Nat)
  | [] => some []
  | i :: items =>
    match textBetween? source offset i.start with
    | none => none
    | some passed =>
      (columnsFrom? source i.start (column + passed.length) items).map
        ((column + passed.length) :: ·)

/-- The column of the character at a byte, counted from the start of the source. -/
def columnAt? (source : String) (offset : Nat) : Option Nat :=
  (textBetween? source 0 offset).map (·.length + 1)

/-- The columns of items: each counts the characters before its span, they increase, and none lies
beyond the last character. -/
structure ColumnsOf (source : String) (items : List LexicalItem) (columns : List Nat) : Prop where
  counted : List.Forall₂ (fun i column => columnAt? source i.start = some column) items columns
  increasing : columns.Pairwise (· < ·)
  inside : ∀ column ∈ columns, column ≤ source.length

/-- What an item places at its column: its token, or the error of its fault. -/
def LexicalItem.place (source : String) (i : LexicalItem) (column : Nat) :
    Except ParseError Placed :=
  match i.outcome with
  | .ok token => .ok ⟨token, column⟩
  | .error fault =>
    .error ⟨fault.parseFault ((textBetween? source i.start i.stop).getD ""), column⟩

theorem columnAt?_eq {source : String} {as bs : List Char} (h : source.toList = as ++ bs) :
    columnAt? source (byteCount as) = some (as.length + 1) := by
  have hsplit : source.toList = [] ++ (as ++ bs) := h
  have htext : textBetween? source 0 (byteCount as) = some (.ofList as) :=
    textBetween?_eq hsplit rfl (Nat.zero_add _).symm
  rw [columnAt?, htext, Option.map_some, String.length_ofList]

/-- The column of the first item counts the characters passed on the way to it. -/
theorem columnsFrom?_cons {source : String} {pre passed cs : List Char} {i : LexicalItem}
    {items : List LexicalItem} (hsource : source.toList = pre ++ (passed ++ cs))
    (hi : i.start = byteCount (pre ++ passed)) :
    columnsFrom? source (byteCount pre) (pre.length + 1) (i :: items) =
      (columnsFrom? source (byteCount (pre ++ passed)) ((pre ++ passed).length + 1) items).map
        (((pre ++ passed).length + 1) :: ·) := by
  have htext : textBetween? source (byteCount pre) (byteCount (pre ++ passed)) =
      some (.ofList passed) := textBetween?_eq hsource rfl (byteCount_append ..)
  have hcolumn : pre.length + 1 + (String.ofList passed).length = (pre ++ passed).length + 1 := by
    rw [String.length_ofList, List.length_append]
    omega
  rw [columnsFrom?, hi, htext]
  dsimp only
  rw [hcolumn]

theorem ColumnsOf.cons {source : String} {i : LexicalItem} {items : List LexicalItem}
    {column : Nat} {columns : List Nat} (hcolumn : columnAt? source i.start = some column)
    (hle : column ≤ source.length) (hlt : ∀ c ∈ columns, column < c)
    (h : ColumnsOf source items columns) : ColumnsOf source (i :: items) (column :: columns) where
  counted := .cons hcolumn h.counted
  increasing := .cons hlt h.increasing
  inside := List.forall_mem_cons.2 ⟨hle, h.inside⟩

/-- What is placed from the first item on. -/
theorem placedFrom_item {w rest : List Char} {column : Nat} (source : String)
    (i : LexicalItem) (hw : Front w rest (some i.outcome))
    (htext : textBetween? source i.start i.stop = some (.ofList w)) :
    placedFrom column (cut (w ++ rest)) =
      (do let t ← i.place source column
          let ts ← placedFrom (column + w.length) (cut rest)
          return t :: ts) := by
  unfold LexicalItem.place
  split
  · next token htoken =>
    rw [htoken] at hw
    rw [placedFrom_token hw]
    cases placedFrom (column + w.length) (cut rest) <;> rfl
  · next fault hfault =>
    rw [hfault] at hw
    rw [placedFrom_fault hw, htext]
    rfl

/-- The columns are counted, and tokens are placed at them, from the first item on. The character at
the byte where `passed` starts was the last to be counted. -/
theorem columns_of_reads {source : String} {pre passed cs : List Char} {items : List LexicalItem}
    {start : Nat} (hsource : source.toList = pre ++ (passed ++ cs))
    (hstart : start = byteCount (pre ++ passed)) (h : Reads start cs items) :
    ∃ columns, columnsFrom? source (byteCount pre) (pre.length + 1) items = some columns ∧
      ColumnsOf source items columns ∧ (∀ column ∈ columns, (pre ++ passed).length < column) ∧
      placedFrom ((pre ++ passed).length + 1) (cut cs) =
        (items.zip columns).mapM fun p => p.1.place source p.2 := by
  induction items generalizing start pre passed cs with
  | nil =>
    cases h.next with
    | @done gap rest hgap hrest =>
      refine ⟨[], rfl, ⟨.nil, .nil, by simp⟩, by simp, ?_⟩
      rw [placedFrom_filler hgap, placedFrom_ending hrest]
      rfl
  | cons i items ih =>
    cases h.next with
    | @item gap w rest outcome stop _ hgap hw hstop hrest =>
      obtain ⟨front, hfront⟩ : ∃ front, front = pre ++ (passed ++ gap) := ⟨_, rfl⟩
      have hsplit : source.toList = front ++ (w ++ rest) := by simpa [hfront] using hsource
      have hbefore : start + byteCount gap = byteCount front := by
        rw [hfront, hstart, ← byteCount_append, List.append_assoc]
      have hpassed : source.toList = pre ++ ((passed ++ gap) ++ (w ++ rest)) := by
        simpa using hsource
      rw [hbefore] at hstop ⊢
      have htext : textBetween? source (byteCount front) stop = some (.ofList w) :=
        textBetween?_eq hsplit rfl hstop
      obtain ⟨columns, hcolumns, hright, hlt, hplaced⟩ :=
        ih hsplit (by rw [hstop, byteCount_append]) hrest
      have hlength := congrArg List.length hsplit
      have hcount := congrArg List.length hfront
      have hpos := List.length_pos_iff.2 hw.ne_nil
      simp only [String.length_toList, List.length_append] at hlength hcount hlt hplaced ⊢
      refine ⟨(front.length + 1) :: columns, ?_, .cons (columnAt?_eq hsplit) ?_ ?_ hright, ?_, ?_⟩
      · rw [columnsFrom?_cons hpassed (by rw [hfront]), ← hfront, hcolumns, Option.map_some]
      · omega
      · intro c hc
        have := hlt c hc
        omega
      · intro c hc
        rcases List.mem_cons.1 hc with rfl | hc
        · omega
        · have := hlt c hc
          omega
      · have hcount : pre.length + passed.length + 1 + gap.length = front.length + 1 := by omega
        have hnext : front.length + 1 + w.length = front.length + w.length + 1 := by omega
        rw [placedFrom_filler hgap, hcount,
          placedFrom_item source ⟨outcome, byteCount front, stop⟩ hw htext, hnext, hplaced,
          List.zip_cons_cons, List.mapM_cons]

/-- **Reading loses nothing, and columns are right.** The spans of the tokens and faults of a source
hold whole characters, stand one after another and leave out nothing but blanks and comments. From
span to span every text that is passed can be taken, so the columns are counted to the end; each
counts the characters before its span. The tokens of the source, or the error of its first fault,
stand at these columns. -/
theorem lexicalItems_spanned (source : String) :
    Spanned source 0 (lexicalItems source) ∧
      ∃ columns, columnsFrom? source 0 1 (lexicalItems source) = some columns ∧
        ColumnsOf source (lexicalItems source) columns ∧
        tokenize source =
          ((lexicalItems source).zip columns).mapM fun p => p.1.place source p.2 := by
  have hreads : Reads 0 source.toList (lexicalItems source) := reads_itemsFrom 0 source.toList
  have hsource : source.toList = [] ++ ([] ++ source.toList) := rfl
  refine ⟨spanned_of_reads hsource rfl hreads, ?_⟩
  obtain ⟨columns, hcolumns, hright, -, hplaced⟩ := columns_of_reads hsource rfl hreads
  exact ⟨columns, hcolumns, hright, hplaced⟩

end Calculator
