import Calculator.Proofs.Insertion
import Calculator.Proofs.Token.Span

/-!
# Lines are read apart

Nothing that is read goes on over the end of its line, whether it is a token or a fault. So where a
line end joins two sources there are the tokens and faults of the one and then those of the other.

* `Front.append_lineEnd`: what is read next is read also when a line end follows somewhere behind.
* `lexeme_induction`: a text up to a line end, blank by blank and lexeme by lexeme.
* `itemsFrom_append_lineEnd`, `placedFrom_append_lineEnd`: the items and the tokens on both sides.
* `lines_read_apart`: the tokens and faults of two sources joined by a line end.
-/

namespace Calculator

open Lexeme Pattern

/-- The item with its span moved by `n` bytes. -/
def LexicalItem.shift (n : Nat) (i : LexicalItem) : LexicalItem :=
  ⟨i.outcome, i.start + n, i.stop + n⟩

theorem separates_of_isLineEnd {c : Char} (h : isLineEnd c) : separates c :=
  separates_of_isBlank (isBlank_of_isLineEnd h)

section

variable {w as bs cs rest : List Char} {e c : Char} {o : Option (Except LexicalFault Token)}

/-! ## What is read before a line end -/

theorem isLineEnd_of_isQuote {p : Pattern} (hp : p.isQuote) (h : [c] ∈ p.language) :
    isLineEnd c = false := by
  rw [Bool.eq_false_iff]
  intro hend
  have hprinted := isPrinted_of_isQuote hp h
  rw [isPrinted_of_isBlank (isBlank_of_isLineEnd hend)] at hprinted
  cases hprinted

/-- Where a line end stands before the next quote, one does also with more lines behind. -/
theorem exists_lineEnd_append {quote : Char} (hquote : isLineEnd quote = false) (he : isLineEnd e)
    (h : ∀ body after, as = body ++ quote :: after → ∃ c ∈ body, isLineEnd c)
    (body after : List Char) (heq : as ++ e :: bs = body ++ quote :: after) :
    ∃ c ∈ body, isLineEnd c := by
  have hne : e ≠ quote := by
    rintro rfl
    rw [hquote] at he
    cases he
  rcases List.append_eq_append_iff.1 heq with ⟨y, rfl, hy⟩ | ⟨y, rfl, hy⟩
  · cases y with
    | nil => exact absurd (List.cons.inj hy).1 hne
    | cons d y =>
      obtain ⟨rfl, -⟩ := List.cons.inj hy
      exact ⟨e, by simp, he⟩
  · cases y with
    | nil => exact absurd (List.cons.inj hy).1.symm hne
    | cons d y =>
      obtain ⟨rfl, -⟩ := List.cons.inj hy
      exact h body y rfl

/-- What is read next is read also when a line end follows somewhere behind. -/
theorem Front.append_lineEnd (h : Front w as o) (hw : ∀ d ∈ w.head?, isBlank d = false)
    (he : isLineEnd e) : Front w (as ++ e :: bs) o := by
  refine h.append_separates hw (separates_of_isLineEnd he) fun p v extra hv htakes => ?_
  cases htakes with
  | plain hp => exact .plain hp
  | closed hp hbody => exact .closed hp hbody
  | comment hbody hrest =>
    refine .comment hbody ?_
    cases as with
    | nil => rintro _ ⟨⟩; exact he
    | cons d as => exact hrest
  | unclosed hp hrest =>
    exact .unclosed hp (exists_lineEnd_append (isLineEnd_of_isQuote hp hv) he hrest)

/-! ## From lexeme to lexeme -/

/-- To show something of every text up to a line end, go from blank to blank and from lexeme to
lexeme; what is read next is read also in front of the line end. -/
theorem lexeme_induction {P : List Char → Prop} (he : isLineEnd e) (bs : List Char) (nil : P [])
    (blank : ∀ c cs, isBlank c → P cs → P (c :: cs))
    (lexeme : ∀ w rest o, Front w rest o → Front w (rest ++ e :: bs) o → P rest → P (w ++ rest))
    (as : List Char) : P as := by
  match as with
  | [] => exact nil
  | c :: cs =>
    by_cases hc : isBlank c
    · exact blank c cs hc (lexeme_induction he bs nil blank lexeme cs)
    · have hfront := isRead c cs
      have hcs : c :: cs =
          (c :: cs.take (Lexeme.measure c cs).2) ++ cs.drop (Lexeme.measure c cs).2 := by simp
      rw [hcs]
      exact lexeme _ _ _ hfront (hfront.append_lineEnd (by simpa using hc) he)
        (lexeme_induction he bs nil blank lexeme _)
termination_by as.length
decreasing_by all_goals simp only [List.length_cons, List.length_drop]; omega

/-! ## Items -/

theorem itemsFrom_skipped {start : Nat} {l : Lexeme} (h : l.read? = none) (ls : List Lexeme) :
    itemsFrom start (l :: ls) = itemsFrom (start + byteCount l.chars) ls := by
  rw [itemsFrom, h]
  rfl

theorem itemsFrom_blank {start : Nat} (hc : isBlank c) (cs : List Char) :
    itemsFrom start (cut (c :: cs)) = itemsFrom (start + byteCount [c]) (cut cs) :=
  walk_blank byteCount_append (fun _ _ ls h => itemsFrom_skipped h ls) hc start cs

/-- Spans count on from the first. -/
theorem itemsFrom_add (start n : Nat) (ls : List Lexeme) :
    itemsFrom (start + n) ls = (itemsFrom start ls).map (·.shift n) := by
  induction ls generalizing start with
  | nil => rfl
  | cons l ls ih =>
    have hnext : start + n + l.byteLength = start + l.byteLength + n := by omega
    unfold itemsFrom
    rw [hnext]
    split
    · exact ih _
    · rw [ih]
      rfl

theorem itemsFrom_front {start : Nat} (h : Front w rest o) :
    itemsFrom start (cut (w ++ rest)) =
      (o.map (⟨·, start, start + byteCount w⟩)).toList ++
        itemsFrom (start + byteCount w) (cut rest) := by
  obtain ⟨shape, hcut, hread⟩ := h.cut_eq
  rw [hcut, itemsFrom, hread]
  cases o <;> rfl

/-- The items before a line end come first. -/
theorem itemsFrom_append_lineEnd (he : isLineEnd e) (start : Nat) (as bs : List Char) :
    itemsFrom start (cut (as ++ e :: bs)) =
      itemsFrom start (cut as) ++ itemsFrom (start + byteCount as + byteCount [e]) (cut bs) := by
  induction as using lexeme_induction he bs generalizing start with
  | nil => rw [List.nil_append, itemsFrom_blank (isBlank_of_isLineEnd he), cut]; rfl
  | blank c cs hc ih =>
    have hbytes : byteCount (c :: cs) = byteCount [c] + byteCount cs := byteCount_append [c] cs
    rw [List.cons_append, itemsFrom_blank hc, itemsFrom_blank hc, ih, hbytes, ← Nat.add_assoc]
  | lexeme w rest o hw hw' ih =>
    rw [List.append_assoc, itemsFrom_front hw', itemsFrom_front hw, ih, List.append_assoc,
      byteCount_append, ← Nat.add_assoc]

/-! ## Tokens -/

/-- The tokens before a line end come first, if there is no fault among them. -/
theorem placedFrom_append_lineEnd (he : isLineEnd e) (column : Nat) (as bs : List Char) :
    placedFrom column (cut (as ++ e :: bs)) =
      (do let ts ← placedFrom column (cut as)
          let us ← placedFrom (column + as.length + 1) (cut bs)
          return ts ++ us) := by
  induction as using lexeme_induction he bs generalizing column with
  | nil =>
    rw [List.nil_append, placedFrom_blank (isBlank_of_isLineEnd he), cut]
    exact (bind_pure _).symm
  | blank c cs hc ih =>
    have hlength : column + (c :: cs).length = column + 1 + cs.length := by
      rw [List.length_cons]
      omega
    rw [List.cons_append, placedFrom_blank hc, placedFrom_blank hc, ih, hlength]
  | lexeme w rest o hw hw' ih =>
    rw [List.append_assoc, List.length_append, ← Nat.add_assoc]
    cases o with
    | none => rw [placedFrom_nothing hw', placedFrom_nothing hw, ih]
    | some outcome =>
      cases outcome with
      | error fault => rw [placedFrom_fault hw', placedFrom_fault hw]; rfl
      | ok token =>
        rw [placedFrom_token hw', placedFrom_token hw, ih]
        cases placedFrom (column + w.length) (cut rest) with
        | error => rfl
        | ok ts => cases placedFrom (column + w.length + rest.length + 1) (cut bs) <;> rfl

end

/-- **Lines are read apart.** Where a line end joins two sources, whatever the first ends in, the
tokens and faults are those of the first and then those of the second, with their spans moved behind
the line end. So none of them goes on over it. The placed tokens are those of the first source and
then those of the second, with their columns moved; or there is the error of the first source, or
else that of the second, with its column moved. -/
theorem lines_read_apart {e : Char} (he : isLineEnd e) (s t : String) :
    let source := s ++ String.singleton e ++ t
    lexicalItems source = lexicalItems s ++ (lexicalItems t).map (·.shift (s.utf8ByteSize + 1)) ∧
      (∀ i ∈ lexicalItems source, i.stop ≤ s.utf8ByteSize ∨ s.utf8ByteSize + 1 ≤ i.start) ∧
      tokenize source =
        (do let ts ← tokenize s
            let us ← (tokenize t).mapError (·.mapColumn (· + (s.length + 1)))
            return ts ++ us.map (·.mapColumn (· + (s.length + 1)))) := by
  intro source
  have hlist : source.toList = s.toList ++ e :: t.toList := by simp [source]
  have hend : byteCount [e] = 1 := by
    rcases (of_decide_eq_true he : e = '\n' ∨ e = '\r') with rfl | rfl <;> rfl
  have hitems : lexicalItems source =
      lexicalItems s ++ (lexicalItems t).map (·.shift (s.utf8ByteSize + 1)) := by
    have hbytes : byteCount s.toList = s.utf8ByteSize := by rw [byteCount, String.ofList_toList]
    rw [lexicalItems, hlist, itemsFrom_append_lineEnd he, hend, hbytes, Nat.add_assoc,
      itemsFrom_add]
    rfl
  refine ⟨hitems, fun i hi => ?_, ?_⟩
  · rw [hitems] at hi
    rcases List.mem_append.1 hi with hi | hi
    · have hspanned : Spanned s 0 (lexicalItems s) :=
        spanned_of_reads (List.nil_append _).symm rfl (reads_itemsFrom 0 s.toList)
      exact .inl (hspanned.boundaries i hi).2.le_utf8ByteSize
    · obtain ⟨j, -, rfl⟩ := List.mem_map.1 hi
      exact .inr (Nat.le_add_left _ _)
  · rw [tokenize, hlist, placedFrom_append_lineEnd he, String.length_toList, Nat.add_assoc,
      placedFrom_add, tokenize, tokenize]
    cases placedFrom 1 (cut s.toList) with
    | error => rfl
    | ok ts => cases placedFrom 1 (cut t.toList) <;> rfl

/-- A quote that is open on both lines, and an exponent that the line end cuts off. -/
theorem lines_read_apart_open_quote :
    ((lexicalItems ("2*'a" ++ String.singleton '\n' ++ "b' 5")).map fun i => (i.start, i.stop)) =
        [(0, 1), (1, 2), (2, 3), (3, 4), (5, 6), (6, 7), (8, 9)] ∧
      tokenize ("1.5e" ++ String.singleton '\r' ++ "+5 $") =
        .error ⟨.unexpectedCharacter '$', 9⟩ := by
  have hnewline : isLineEnd '\n' := rfl
  have hreturn : isLineEnd '\r' := rfl
  have hitems := (lines_read_apart hnewline "2*'a" "b' 5").1
  have htokens := (lines_read_apart hreturn "1.5e" "+5 $").2.2
  have hfirst : tokenize "1.5e" =
      .ok [⟨.float (Decimal.toDouble ⟨15, -1⟩), 1⟩, ⟨.name "e", 4⟩] := by
    decide +kernel
  have hsecond : tokenize "+5 $" = .error ⟨.unexpectedCharacter '$', 4⟩ := by
    decide +kernel
  rw [hfirst, hsecond] at htokens
  refine ⟨?_, htokens⟩
  rw [hitems]
  decide +kernel

end Calculator
