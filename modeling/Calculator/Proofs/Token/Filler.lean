import Calculator.Proofs.Text
import Calculator.Proofs.Token.Cut
import Calculator.Proofs.Token.LongestMatch

/-!
# What stands between tokens

Blanks and comments stand for nothing. This module says what they are made of and where a reading
meets them.

* `Filler`, `Ending`: blanks and comments that end with their line; what may follow them at the end.
* `Filler.comment_append`: filler after a comment that the source ends in.
* `Reads.next`: a reading meets filler, and then the next item or the end of the source.
-/

namespace Calculator

open Lexeme Pattern

/-- A text of blanks and of comments, each of which ends with its line. -/
inductive Filler : List Char → Prop where
  | nil : Filler []
  | blank {c : Char} {cs : List Char} (hc : isBlank c) (hcs : Filler cs) : Filler (c :: cs)
  | comment {body : List Char} {e : Char} {cs : List Char}
      (hbody : ∀ c ∈ body, isLineEnd c = false) (he : isLineEnd e) (hcs : Filler cs) :
      Filler ('#' :: (body ++ e :: cs))

/-- What may follow filler at the end of a source: nothing, or a comment without a line end. -/
inductive Ending : List Char → Prop where
  | nothing : Ending []
  | comment {body : List Char} (hbody : ∀ c ∈ body, isLineEnd c = false) : Ending ('#' :: body)

/-- A printed character of ASCII. Comments and quoted texts apart, every token consists of such. -/
def isPrinted (c : Char) : Bool := 33 ≤ c.toNat && c.toNat ≤ 126

/-- A character that goes on in no token that begins before it, but for a quoted text. -/
def separates (c : Char) : Bool := !isPrinted c || c = '#'

theorem isPrinted_of_isBlank {c : Char} (h : isBlank c) : isPrinted c = false := by
  simp only [isBlank, decide_eq_true_eq] at h
  rcases h with rfl | rfl | rfl | rfl | rfl <;> rfl

theorem separates_of_not_isPrinted {c : Char} (h : isPrinted c = false) : separates c := by
  simp [separates, h]

theorem separates_of_isBlank {c : Char} (h : isBlank c) : separates c :=
  separates_of_not_isPrinted (isPrinted_of_isBlank h)

theorem isBlank_of_isLineEnd {c : Char} (h : isLineEnd c) : isBlank c := by
  rcases (of_decide_eq_true h : c = '\n' ∨ c = '\r') with rfl | rfl <;> rfl

/-! ## Filler -/

namespace Filler

variable {f g body cs : List Char}

theorem append (hf : Filler f) (hg : Filler g) : Filler (f ++ g) := by
  induction hf with
  | nil => exact hg
  | blank hc _ ih => exact .blank hc ih
  | comment hbody he _ ih =>
    rw [List.cons_append, List.append_assoc]
    exact .comment hbody he ih

theorem of_blanks (h : ∀ c ∈ f, isBlank c) : Filler f := by
  induction f with
  | nil => exact .nil
  | cons c f ih => exact .blank (h c List.mem_cons_self) (ih fun d hd => h d (.tail c hd))

/-- Filler starts with a character that ends every token before it. -/
theorem exists_cons (hf : Filler f) (hne : f ≠ []) : ∃ c x, f = c :: x ∧ separates c := by
  cases hf with
  | nil => exact absurd rfl hne
  | blank hc => exact ⟨_, _, rfl, separates_of_isBlank hc⟩
  | comment => exact ⟨_, _, rfl, rfl⟩

theorem tail {c : Char} (hc : isBlank c) (h : Filler (c :: cs)) : Filler cs := by
  cases h with
  | blank _ hcs => exact hcs
  | comment => cases hc

/-- Filler after a comment that lacks its line end: some line end of the filler ends the comment, or
all of the filler belongs to it. -/
theorem comment_append (hf : Filler f) (hbody : ∀ c ∈ body, isLineEnd c = false) :
    Filler ('#' :: (body ++ f)) ∨ Ending ('#' :: (body ++ f)) := by
  induction hf generalizing body with
  | nil => exact .inr (.comment (by simpa using hbody))
  | @blank c cs hc hcs ih =>
    by_cases he : isLineEnd c
    · exact .inl (.comment hbody he hcs)
    · have hbody' : ∀ d ∈ body ++ [c], isLineEnd d = false := by
        intro d hd
        rcases List.mem_append.1 hd with hd | hd
        · exact hbody d hd
        · rw [List.mem_singleton.1 hd]
          simpa using he
      simpa using ih hbody'
  | @comment inner e cs hinner he hcs _ =>
    have hbody' : ∀ d ∈ body ++ '#' :: inner, isLineEnd d = false := by
      intro d hd
      rcases List.mem_append.1 hd with hd | hd
      · exact hbody d hd
      · rcases List.mem_cons.1 hd with rfl | hd
        · rfl
        · exact hinner d hd
    exact .inl (by simpa using Filler.comment hbody' he hcs)

end Filler

/-! ## What is read -/

section

variable {w rest : List Char} {outcome : Except LexicalFault Token}

/-- What is read and stands for nothing is a run of blanks, or a comment that goes up to the end of
its line. -/
theorem Front.blanks_or_comment {o : Option (Except LexicalFault Token)} (h : Front w rest o)
    (ho : o = none) :
    (∀ c ∈ w, isBlank c) ∨
      ∃ body, w = '#' :: body ∧ (∀ c ∈ body, isLineEnd c = false) ∧
        ∀ c ∈ rest.head?, isLineEnd c := by
  cases h with
  | stray => cases ho
  | pointBeforeMark => cases ho
  | @matched p w extra rest o _ hchosen htakes =>
    cases htakes with
    | closed => cases ho
    | unclosed => cases ho
    | comment hbody hrest =>
      obtain rfl : w = ['#'] := by simpa [language, mem_anyOf] using hchosen.matched
      exact .inr ⟨extra, rfl, hbody, hrest⟩
    | plain hp =>
      obtain rfl : p = .blank := by
        cases p with
        | blank => rfl
        | singleQuote | doubleQuote | comment => cases hp
        | _ => exact absurd ho (Option.some_ne_none _)
      obtain ⟨c, x, hc, hx, rfl⟩ := mem_oneOf_mul.1 hchosen.matched
      rw [mem_kstar_oneOf] at hx
      left
      intro d hd
      rw [List.append_nil] at hd
      rcases List.mem_cons.1 hd with rfl | hd
      · exact hc
      · exact hx d hd

/-- No item starts with a blank. -/
theorem Front.not_isBlank {c : Char} {x : List Char} (h : Front (c :: x) rest (some outcome)) :
    isBlank c = false := by
  rw [Bool.eq_false_iff]
  intro hc
  obtain ⟨-, -, ho⟩ := h.eq (isRead c (x ++ rest)) (by simp)
  simp [Lexeme.measure, hc, read?] at ho

theorem Front.isBlank_head (h : Front w rest (some outcome)) :
    ∀ d ∈ w.head?, isBlank d = false := by
  intro d hd
  obtain ⟨x, rfl⟩ := List.head?_eq_some_iff.1 hd
  exact h.not_isBlank

/-- What a reading meets next: filler, and then the first item or the end of the source. -/
inductive Next (start : Nat) : List Char → List LexicalItem → Prop where
  | done {gap rest : List Char} (hgap : Filler gap) (hrest : Ending rest) :
      Next start (gap ++ rest) []
  | item {gap w rest : List Char} {outcome : Except LexicalFault Token} {stop : Nat}
      {items : List LexicalItem} (hgap : Filler gap) (hw : Front w rest (some outcome))
      (hstop : stop = start + byteCount gap + byteCount w) (hrest : Reads stop rest items) :
      Next start (gap ++ (w ++ rest)) (⟨outcome, start + byteCount gap, stop⟩ :: items)

/-- Filler may grow to the front. -/
theorem Next.append_front {start : Nat} {cs : List Char} {items : List LexicalItem}
    (hw : Filler w) (h : Next (start + byteCount w) cs items) : Next start (w ++ cs) items := by
  cases h with
  | done hgap hrest =>
    rw [← List.append_assoc]
    exact .done (hw.append hgap) hrest
  | item hgap hfront hstop hrest =>
    rw [← List.append_assoc, Nat.add_assoc, ← byteCount_append]
    refine .item (hw.append hgap) hfront ?_ hrest
    rw [hstop, byteCount_append]
    omega

/-- A comment that ends with its line becomes filler with the line end that follows it. -/
theorem Next.comment_front {start : Nat} {e : Char} {body cs : List Char}
    {items : List LexicalItem} (hbody : ∀ c ∈ body, isLineEnd c = false) (he : isLineEnd e)
    (h : Next (start + byteCount ('#' :: body)) (e :: cs) items) :
    Next start ('#' :: body ++ e :: cs) items := by
  -- The line end is a blank, so it belongs to the filler that comes next.
  have hgap : ∀ {gap rest : List Char}, Filler gap → gap ++ rest = e :: cs → gap ≠ [] →
      Filler ('#' :: body ++ gap) := by
    intro gap rest hgap heq hne
    cases gap with
    | nil => exact absurd rfl hne
    | cons d gap =>
      obtain ⟨rfl, -⟩ := List.cons.inj heq
      exact .comment hbody he (hgap.tail (isBlank_of_isLineEnd he))
  generalize hcs : e :: cs = cs' at h ⊢
  cases h with
  | @done gap rest hg hrest =>
    have hne : gap ≠ [] := by
      rintro rfl
      cases hrest with
      | nothing => cases hcs
      | comment => cases hcs; cases he
    rw [← List.append_assoc]
    exact .done (hgap hg hcs.symm hne) hrest
  | @item gap w rest outcome stop items hg hw hstop hrest =>
    have hne : gap ≠ [] := by
      rintro rfl
      obtain ⟨c, x, rfl⟩ := List.exists_cons_of_ne_nil hw.ne_nil
      obtain ⟨rfl, -⟩ := List.cons.inj hcs
      exact Bool.eq_false_iff.1 hw.not_isBlank (isBlank_of_isLineEnd he)
    rw [← List.append_assoc, Nat.add_assoc, ← byteCount_append]
    refine .item (hgap hg hcs.symm hne) hw ?_ hrest
    rw [hstop, byteCount_append]
    omega

/-- A reading meets filler, and then the next item or the end of the source. -/
theorem Reads.next {start : Nat} {cs : List Char} {items : List LexicalItem}
    (h : Reads start cs items) : Next start cs items := by
  induction h with
  | done => exact .done .nil .nothing
  | item hw hrest _ => exact .item .nil hw rfl hrest
  | @skipped start w rest items hw hrest ih =>
    rcases hw.blanks_or_comment rfl with hblanks | ⟨body, rfl, hbody, hend⟩
    · exact ih.append_front (.of_blanks hblanks)
    · cases rest with
      | cons e rest => exact ih.comment_front hbody (hend e rfl)
      | nil =>
        have hitems := itemsFrom_of_reads hrest
        rw [cut] at hitems
        subst hitems
        rw [List.append_nil]
        exact .done .nil (.comment hbody)

end
end Calculator
