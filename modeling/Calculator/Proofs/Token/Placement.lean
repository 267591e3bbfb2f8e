import Calculator.Proofs.Token.Cut
import Calculator.Proofs.Token.Filler

/-!
# Placing tokens

How tokens get their columns while a text is read: filler moves the columns of what follows it, a
token stands at the column that is reached, and a fault ends the reading there.

* `walk_blank`: how blanks are cut makes no difference to what walks over lexemes.
* `placedFrom_filler`, `placedFrom_ending`, `placedFrom_of_filler`: filler, and the end of a source.
* `placedFrom_token`, `placedFrom_fault`: what is placed at the next item.
-/

namespace Calculator

open Lexeme

/-- The parse fault of a lexical fault in a text. -/
def LexicalFault.parseFault (text : String) : LexicalFault → ParseFault
  | .unexpectedCharacter => .unexpectedCharacter (text.toList.headD default)
  | .unterminatedString => .unterminatedString text
  | .invalidLiteral fault => .invalidLiteral text fault

theorem Lexeme.parseFault_eq (l : Lexeme) (fault : LexicalFault) :
    l.parseFault fault = fault.parseFault l.text := by
  cases fault with
  | unexpectedCharacter => rw [LexicalFault.parseFault, Lexeme.text, String.toList_ofList]; rfl
  | unterminatedString | invalidLiteral => rfl

section

variable {column : Nat} {c : Char} {f w rest cs : List Char}

/-! ## Filler -/

/-- Blanks that stand together are one lexeme. -/
theorem cut_blanks (hne : f ≠ []) (hf : ∀ c ∈ f, isBlank c)
    (hrest : ∀ c ∈ rest.head?, isBlank c = false) :
    cut (f ++ rest) = ⟨.blank, f⟩ :: cut rest := by
  obtain ⟨c, x, rfl⟩ := List.exists_cons_of_ne_nil hne
  refine cut_cons ?_
  rw [← runLength_append (fun d hd => hf d (.tail c hd)) hrest]
  simp [Lexeme.measure, hf c List.mem_cons_self]

/-- One more blank before a text moves a walk over its lexemes. Such a walk counts the sizes of what
it passes over, and so does not see how blanks are cut. -/
theorem walk_blank {β : Type} {walk : Nat → List Lexeme → β} {size : List Char → Nat}
    (hsize : ∀ as bs, size (as ++ bs) = size as + size bs)
    (hskip : ∀ n l ls, l.read? = none → walk n (l :: ls) = walk (n + size l.chars) ls)
    (hc : isBlank c) (n : Nat) (cs : List Char) :
    walk n (cut (c :: cs)) = walk (n + size [c]) (cut cs) := by
  obtain ⟨f, rest, rfl, hf, hrest⟩ := exists_run isBlank cs
  have hcons : ∀ d ∈ c :: f, isBlank d := by
    intro d hd
    rcases List.mem_cons.1 hd with rfl | hd
    · exact hc
    · exact hf d hd
  rw [← List.cons_append, cut_blanks (List.cons_ne_nil c f) hcons hrest, hskip _ _ _ rfl]
  by_cases hne : f = []
  · subst hne
    rfl
  · have hsizes : size (c :: f) = size [c] + size f := hsize [c] f
    rw [cut_blanks hne hf hrest, hskip _ _ _ rfl, hsizes, Nat.add_assoc]

theorem placedFrom_skipped {l : Lexeme} (h : l.read? = none) (ls : List Lexeme) :
    placedFrom column (l :: ls) = placedFrom (column + l.chars.length) ls := by
  rw [placedFrom, h]

/-- One more blank before a text. -/
theorem placedFrom_blank (hc : isBlank c) (cs : List Char) :
    placedFrom column (cut (c :: cs)) = placedFrom (column + 1) (cut cs) :=
  walk_blank (fun _ _ => List.length_append) (fun _ _ ls h => placedFrom_skipped h ls) hc column cs

/-- A comment up to the end of its line. -/
theorem placedFrom_comment (hf : ∀ c ∈ f, isLineEnd c = false)
    (hrest : ∀ c ∈ rest.head?, isLineEnd c) :
    placedFrom column (cut ('#' :: (f ++ rest))) =
      placedFrom (column + (f.length + 1)) (cut rest) := by
  have hm : Lexeme.measure '#' (f ++ rest) = (.comment, f.length) := by
    rw [← runLength_append (p := (!isLineEnd ·)) (by simpa using hf) (by simpa using hrest)]
    rfl
  rw [cut_cons hm]
  rfl

/-- Filler moves the columns of what follows it. -/
theorem placedFrom_filler (hf : Filler f) (cs : List Char) :
    placedFrom column (cut (f ++ cs)) = placedFrom (column + f.length) (cut cs) := by
  induction hf generalizing column with
  | nil => rfl
  | blank hc _ ih =>
    rw [List.cons_append, placedFrom_blank hc, ih, List.length_cons, Nat.add_assoc, Nat.add_comm 1]
  | @comment body e f hbody he _ ih =>
    rw [List.cons_append, List.append_assoc, List.cons_append,
      placedFrom_comment hbody (by rintro _ ⟨⟩; exact he),
      placedFrom_blank (isBlank_of_isLineEnd he), ih]
    simp only [List.length_cons, List.length_append]
    congr 1
    omega

/-- No token stands at the end of a source. -/
theorem placedFrom_ending (h : Ending rest) : placedFrom column (cut rest) = .ok [] := by
  cases h with
  | nothing => rw [cut]; rfl
  | @comment body hbody =>
    have h := @placedFrom_comment column body [] hbody (by rintro _ ⟨⟩)
    rw [List.append_nil, cut] at h
    exact h

/-- Filler alone has no tokens. -/
theorem placedFrom_of_filler (hf : Filler f) : placedFrom column (cut f) = .ok [] := by
  have h := @placedFrom_filler column f hf []
  rw [List.append_nil, placedFrom_ending .nothing] at h
  exact h

/-! ## Items -/

/-- What stands for nothing is passed over. -/
theorem placedFrom_nothing (h : Front w rest none) :
    placedFrom column (cut (w ++ rest)) = placedFrom (column + w.length) (cut rest) := by
  obtain ⟨shape, hcut, hread⟩ := h.cut_eq
  rw [hcut, placedFrom_skipped hread]

/-- A token stands at the column that is reached. -/
theorem placedFrom_token {token : Token} (h : Front w rest (some (.ok token))) :
    placedFrom column (cut (w ++ rest)) =
      (placedFrom (column + w.length) (cut rest)).map (⟨token, column⟩ :: ·) := by
  obtain ⟨shape, hcut, hread⟩ := h.cut_eq
  rw [hcut, placedFrom, hread]
  cases placedFrom (column + w.length) (cut rest) <;> rfl

/-- A fault is reported at the column that is reached. -/
theorem placedFrom_fault {fault : LexicalFault} (h : Front w rest (some (.error fault))) :
    placedFrom column (cut (w ++ rest)) = .error ⟨fault.parseFault (.ofList w), column⟩ := by
  obtain ⟨shape, hcut, hread⟩ := h.cut_eq
  rw [hcut, placedFrom, hread]
  dsimp only
  rw [Lexeme.parseFault_eq]
  rfl

/-- Where placing succeeds an item is a token, and stands at the column that is reached. -/
theorem exists_of_placedFrom_item {outcome : Except LexicalFault Token} {ts : List Placed}
    (h : Front w rest (some outcome)) (hts : placedFrom column (cut (w ++ rest)) = .ok ts) :
    ∃ token us, outcome = .ok token ∧ ts = ⟨token, column⟩ :: us ∧
      placedFrom (column + w.length) (cut rest) = .ok us := by
  cases outcome with
  | error fault => rw [placedFrom_fault h] at hts; cases hts
  | ok token =>
    rw [placedFrom_token h] at hts
    cases hrest : placedFrom (column + w.length) (cut rest) with
    | error err => rw [hrest] at hts; cases hts
    | ok us =>
      rw [hrest] at hts
      cases hts
      exact ⟨token, us, rfl, rfl, rfl⟩

end

end Calculator
