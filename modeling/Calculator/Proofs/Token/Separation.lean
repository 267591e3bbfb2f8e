import Calculator.Proofs.Token.Filler

/-!
# Where tokens end

A comment sign ends the token before it, and so does every character that is not printed, such as a
blank; only quoted texts hold such characters. So a token is read in the same way when the text
after it, or any later part of it, gives way to filler.

* `separates_of_cons_mem`: no match goes on over a character that separates tokens.
* `Chosen.of_separates`, `Chosen.regular_of_separates`: neither the longest match nor the exception
  to it depends on what follows such a character.
* `PointBeforeMark.of_separates`, `PointBeforeMark.append_separates`: the exception is met before
  such a character where it is met without.
* `Front.matched_of_separates`: so what is taken at a match is read also before such a character.
* `Front.append_separates`: it is read also when such a character follows somewhere behind.
* `Front.insert`: filler after a token, or later, does not change how the token is read.
-/

namespace Calculator

open Lexeme Pattern
open scoped Computability

namespace Pattern

section

variable {c d : Char} {x f e w : List Char}

theorem separates_of_isNamePart (h : isNamePart c) : separates c = false := by
  have hcode := toNat_of_isNamePart h
  have hne : c ≠ '#' := by
    rintro rfl
    cases h
  simp only [separates, isPrinted, Bool.or_eq_false_iff, Bool.not_eq_false', Bool.and_eq_true,
    decide_eq_true_eq, decide_eq_false_iff_not]
  exact ⟨by omega, hne⟩

theorem separates_of_isNumeralPart (h : isNumeralPart c) : separates c = false :=
  separates_of_isNamePart (isNamePart_of_isNumeralPart h)

theorem separates_of_mem_digits (hf : f ∈ digits) (hd : d ∈ f) : separates d = false := by
  obtain ⟨a, y, ha, hy, rfl⟩ := mem_digits.1 hf
  rcases List.mem_cons.1 hd with rfl | hd
  · exact separates_of_isNumeralPart (isNumeralPart_of_isDigit ha)
  · exact separates_of_isNumeralPart (hy d hd)

theorem separates_of_mem_exponent (he : e ∈ exponent) (hd : d ∈ e) : separates d = false := by
  obtain ⟨s, hs, ds, hds, rfl⟩ := Language.mem_mul.1 he
  rcases List.mem_append.1 hd with hd | hd
  · obtain ⟨m, hm, hs⟩ := mem_signedMark.1 hs
    have hmark := separates_of_isNamePart (isNamePart_of_isExponentMark hm)
    rcases hs with rfl | rfl | rfl
    · obtain rfl := List.mem_singleton.1 hd
      exact hmark
    all_goals
      rcases List.mem_cons.1 hd with rfl | hd
      · exact hmark
      · obtain rfl := List.mem_singleton.1 hd
        rfl
  · exact separates_of_mem_digits hds hd

theorem separates_of_mem_optionally {l : Language Char}
    (h : ∀ w ∈ l, ∀ d ∈ w, separates d = false) (hw : w ∈ optionally l) (hd : d ∈ w) :
    separates d = false := by
  rcases mem_optionally.1 hw with rfl | hw
  · exact (List.not_mem_nil hd).elim
  · exact h w hw d hd

/-- No match goes on over a character that separates tokens, but for a run of blanks. -/
theorem separates_of_cons_mem {p : Pattern} (h : c :: x ∈ p.language) (hc : isBlank c = false)
    (hd : d ∈ x) : separates d = false := by
  have hdigits : ∀ f ∈ digits, ∀ d ∈ f, separates d = false :=
    fun f hf d hd => separates_of_mem_digits hf hd
  have hexponent : ∀ e ∈ exponent, ∀ d ∈ e, separates d = false :=
    fun e he d hd => separates_of_mem_exponent he hd
  have h := cons_mem_language.1 h
  cases p with
  | pointFloat =>
    obtain ⟨-, ds, f, e, hds, hf, he, rfl⟩ := h
    simp only [List.mem_append, List.mem_cons] at hd
    rcases hd with hd | rfl | hd | hd
    · exact separates_of_isNumeralPart (hds d hd)
    · rfl
    · exact separates_of_mem_optionally hdigits hf hd
    · exact separates_of_mem_optionally hexponent he hd
  | fractionFloat =>
    obtain ⟨-, f, e, hf, he, rfl⟩ := h
    rcases List.mem_append.1 hd with hd | hd
    · exact separates_of_mem_digits hf hd
    · exact separates_of_mem_optionally hexponent he hd
  | exponentFloat =>
    obtain ⟨-, ds, e, hds, he, rfl⟩ := h
    rcases List.mem_append.1 hd with hd | hd
    · exact separates_of_isNumeralPart (hds d hd)
    · exact separates_of_mem_exponent he hd
  | decimalInteger => exact separates_of_isNumeralPart (h.2 d hd)
  | markedInteger =>
    obtain ⟨-, m, y, hm, hy, rfl⟩ := h
    rcases List.mem_cons.1 hd with rfl | hd
    · exact separates_of_isNamePart (isNamePart_of_isRadixMark hm)
    · exact separates_of_isNamePart (hy d hd)
  | operator op =>
    cases op <;> simp [BinaryOp.symbol] at h <;> obtain ⟨-, rfl⟩ := h
    case floorDiv | pow => obtain rfl := List.mem_singleton.1 hd; rfl
    all_goals cases hd
  | name => exact separates_of_isNamePart (h.2 d hd)
  | symbol =>
    rcases h with ⟨a, rfl, hsymbol⟩ | ⟨rfl, -⟩
    · obtain rfl := List.mem_singleton.1 hd
      unfold isDoubleSymbol at hsymbol
      split at hsymbol
      case h_9 => cases hsymbol
      all_goals rfl
    · cases hd
  | blank => rw [h.1] at hc; cases hc
  | leftParen | rightParen | singleQuote | doubleQuote | comment =>
    obtain ⟨-, rfl⟩ := h
    cases hd

theorem isPrinted_of_isQuote {p : Pattern} (hp : p.isQuote) (h : [c] ∈ p.language) :
    isPrinted c := by
  cases p with
  | singleQuote | doubleQuote =>
    obtain ⟨rfl, -⟩ := cons_mem_language.1 h
    rfl
  | _ => cases hp

end

/-- What is matched stays chosen when the text is cut off behind it by a character that separates
tokens. -/
theorem Chosen.of_separates {p : Pattern} {w as bs cs : List Char} {c : Char}
    (h : p.Chosen w (as ++ bs)) (hw : ∀ d ∈ w.head?, isBlank d = false) (hc : separates c) :
    p.Chosen w (as ++ c :: cs) := by
  refine ⟨h.matched, h.unique, ?_⟩
  rintro q v hv ⟨r, hr⟩
  rw [← List.append_assoc] at hr
  rcases List.append_eq_append_iff.1 hr with ⟨us, hus, -⟩ | ⟨us, rfl, hus⟩
  · exact h.longest q v hv ⟨us ++ bs, by rw [← List.append_assoc, ← hus, List.append_assoc]⟩
  · cases us with
    | nil => exact h.longest q _ hv ⟨bs, by simp⟩
    | cons u us =>
      -- The match would go on over the separating character.
      obtain ⟨rfl, -⟩ := List.cons.inj hus
      cases w with
      | nil => exact absurd h.matched (nil_not_mem_language p)
      | cons d w =>
        rw [List.cons_append, List.cons_append] at hv
        have hmem : c ∈ w ++ as ++ c :: us := by simp
        rw [separates_of_cons_mem hv (hw d rfl) hmem] at hc
        cases hc

end Pattern

/-- The least exponent that begins at a mark. -/
theorem Pattern.mem_exponent_of_digit {z : List Char} (hz : z ∈ signedMark * oneOf isDigit) :
    z ∈ exponent := by
  obtain ⟨s, hs, _, ⟨d, hd, rfl⟩, rfl⟩ := Language.mem_mul.1 hz
  exact Language.append_mem_mul hs (mem_digits.2 ⟨d, [], hd, by simp, rfl⟩)

/-- With an exponent after its point the exception would be a float. -/
theorem PointBeforeMark.append_mem_language {v z rest : List Char} (h : PointBeforeMark v rest)
    (hz : z ∈ exponent) : v ++ z ∈ language .pointFloat := by
  have hnone : [] ∈ optionally digits := mem_optionally.2 (.inl rfl)
  have hsome : z ∈ optionally exponent := mem_optionally.2 (.inr hz)
  have hmem := Language.append_mem_mul (Language.append_mem_mul h.matched hnone) hsome
  rwa [List.append_nil] at hmem

/-- The exception is none of the cutting off: where it is met before a separating character, it was
met before. -/
theorem PointBeforeMark.of_separates {v u as bs cs : List Char} {c : Char} (hc : separates c)
    (h : PointBeforeMark v (u ++ (as ++ c :: cs)))
    (hlongest : ∀ z, v ++ z ∈ language .pointFloat → z <+: u ++ (as ++ bs) → z.length ≤ u.length) :
    PointBeforeMark v (u ++ (as ++ bs)) where
  matched := h.matched
  mark := by
    obtain ⟨m, hm, hmark⟩ := h.mark
    refine ⟨m, ?_, hmark⟩
    rw [← List.append_assoc] at hm ⊢
    cases hfront : u ++ as with
    | cons d front => rwa [hfront] at hm
    | nil =>
      rw [hfront] at hm
      obtain rfl := Option.some.inj hm
      rw [separates_of_isNamePart (isNamePart_of_isExponentMark hmark)] at hc
      cases hc
  noExponent := by
    intro z hz hprefix
    have hle := hlongest z (h.append_mem_language (mem_exponent_of_digit hz)) hprefix
    have hu : z <+: u := List.prefix_of_prefix_length_le hprefix (List.prefix_append _ _) hle
    exact h.noExponent z hz (hu.trans (List.prefix_append _ _))

/-- The exception is met also before a separating character. -/
theorem PointBeforeMark.append_separates {w as bs : List Char} {c : Char}
    (h : PointBeforeMark w as) (hc : separates c) : PointBeforeMark w (as ++ c :: bs) where
  matched := h.matched
  mark := by
    obtain ⟨m, hm, hmark⟩ := h.mark
    obtain ⟨x, rfl⟩ := List.head?_eq_some_iff.1 hm
    exact ⟨m, rfl, hmark⟩
  noExponent := by
    rintro z hz ⟨r, hr⟩
    rcases List.append_eq_append_iff.1 hr with ⟨y, rfl, -⟩ | ⟨y, rfl, hy⟩
    · exact h.noExponent z hz (List.prefix_append z y)
    · cases y with
      | nil => exact h.noExponent as (by simpa using hz) (List.prefix_refl as)
      | cons d y =>
        -- The exponent would go on over the separating character.
        obtain ⟨rfl, -⟩ := List.cons.inj hy
        have hmem : c ∈ as ++ c :: y := by simp
        rw [separates_of_mem_exponent (mem_exponent_of_digit hz) hmem] at hc
        cases hc

/-- Where there is no exception there is none after the text is cut off behind a match. -/
theorem Pattern.Chosen.regular_of_separates {p : Pattern} {w as bs cs : List Char} {c : Char}
    (h : p.Chosen w (as ++ bs)) (hw : ∀ d ∈ w.head?, isBlank d = false) (hc : separates c)
    (hregular : ∀ v after, v ++ after = w ++ (as ++ bs) → ¬PointBeforeMark v after)
    (v after : List Char) (heq : v ++ after = w ++ (as ++ c :: cs)) : ¬PointBeforeMark v after := by
  intro hv
  have hle := (h.of_separates hw hc).longest _ v hv.mem_language ⟨after, heq⟩
  obtain ⟨u, rfl⟩ : v <+: w :=
    List.prefix_of_prefix_length_le ⟨after, heq⟩ (List.prefix_append _ _) hle
  rw [List.append_assoc] at heq
  obtain rfl := List.append_cancel_left heq
  refine hregular v (u ++ (as ++ bs)) (by simp) (hv.of_separates hc ?_)
  rintro z hz ⟨r, hr⟩
  have hlength := h.longest _ _ hz ⟨r, by simp [hr]⟩
  simpa using hlength

/-- A match starts as what is taken at it: with no blank. -/
theorem Pattern.Chosen.isBlank_head {p : Pattern} {w extra rest : List Char}
    (h : p.Chosen w rest) (hw : ∀ d ∈ (w ++ extra).head?, isBlank d = false) :
    ∀ d ∈ w.head?, isBlank d = false := by
  cases w with
  | nil => exact absurd h.matched (nil_not_mem_language p)
  | cons d w => exact hw

/-- What is taken at a match is read also when the text is cut off behind it by a character that
separates tokens, if it is taken there too. -/
theorem Front.matched_of_separates {p : Pattern} {w extra as bs cs : List Char} {c : Char}
    {o : Option (Except LexicalFault Token)}
    (hregular : ∀ v after, v ++ after = w ++ (extra ++ (as ++ bs)) → ¬PointBeforeMark v after)
    (hchosen : p.Chosen w (extra ++ (as ++ bs))) (hw : ∀ d ∈ (w ++ extra).head?, isBlank d = false)
    (hc : separates c) (htakes : p.Takes w extra (as ++ c :: cs) o) :
    Front (w ++ extra) (as ++ c :: cs) o := by
  have hhead := hchosen.isBlank_head hw
  rw [← List.append_assoc] at hchosen
  have hchosen' : p.Chosen w (extra ++ as ++ c :: cs) := hchosen.of_separates hhead hc
  have hregular' : ∀ v after, v ++ after = w ++ (extra ++ as ++ c :: cs) →
      ¬PointBeforeMark v after :=
    hchosen.regular_of_separates hhead hc (by simpa using hregular)
  rw [List.append_assoc] at hchosen' hregular'
  exact .matched hregular' hchosen' htakes

/-- What is read next is read also when a character that separates tokens follows somewhere behind,
if it is taken there too. -/
theorem Front.append_separates {w as bs : List Char} {c : Char}
    {o : Option (Except LexicalFault Token)} (h : Front w as o)
    (hw : ∀ d ∈ w.head?, isBlank d = false) (hc : separates c)
    (htakes : ∀ (p : Pattern) v extra, v ∈ p.language → p.Takes v extra as o →
      p.Takes v extra (as ++ c :: bs) o) : Front w (as ++ c :: bs) o := by
  cases h with
  | stray hstray => exact .stray hstray
  | pointBeforeMark h hfault => exact .pointBeforeMark (h.append_separates hc) hfault
  | matched hregular hchosen htaken =>
    have htaken' := htakes _ _ _ hchosen.matched htaken
    rw [← List.append_nil as] at hregular hchosen
    exact .matched_of_separates hregular hchosen hw hc htaken'

/-- A token is read also when the text is cut off behind it by a character that separates tokens. -/
theorem Front.of_separates {w as bs cs : List Char} {c : Char} {token : Token}
    (h : Front w (as ++ bs) (some (.ok token))) (hc : separates c) :
    Front w (as ++ c :: cs) (some (.ok token)) := by
  have hw := h.isBlank_head
  generalize ho : (some (.ok token) : Option (Except LexicalFault Token)) = o at h ⊢
  cases h with
  | stray => cases ho
  | pointBeforeMark => cases ho
  | matched hregular hchosen htakes =>
    refine .matched_of_separates hregular hchosen hw hc ?_
    cases htakes with
    | plain hp => exact .plain hp
    | closed hp hbody => exact .closed hp hbody
    | comment => cases ho
    | unclosed => cases ho

/-- Filler after a token, or later, does not change how the token is read. -/
theorem Front.insert {w as bs f : List Char} {token : Token}
    (h : Front w (as ++ bs) (some (.ok token))) (hf : Filler f) :
    Front w (as ++ (f ++ bs)) (some (.ok token)) := by
  by_cases hne : f = []
  · subst hne
    exact h
  · obtain ⟨c, x, rfl, hc⟩ := hf.exists_cons hne
    exact h.of_separates hc

end Calculator
