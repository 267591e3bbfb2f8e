import Mathlib.Data.List.Basic
import Mathlib.Data.List.Induction
import Calculator.Proofs.Session.Messages
import Calculator.Proofs.Token.Separator

/-!
# Numerals

A numeral is made of digits, and of separators each of which stands between two of them. A text
that is no numeral has a first character that is out of place, or only a separator at its end that
no digit follows. This is what its fault tells.

* `Literal.isDigitOf_iff`: what counts as a digit of a radix.
* `Literal.IsNumeral`, `Literal.Faulty`: numerals, and why other texts are none.
* `Literal.isNumeral_or_faulty`: every text but the empty one is one or the other.
* `Literal.firstFault?_append`, `Literal.exists_firstFault?_eq`: the state of a scan is read off
  the text before it, and it ends where a character is out of place.
* `Literal.digitsOf_eq_ok_iff_isNumeral`, `Literal.faulty_iff`: what the scan of a text finds.
* `Literal.answerFor_numeral_or_faulty`: the answer for any radix.
-/

namespace Calculator
namespace Literal

/-! ## Digits -/

/-- The digits in order; letters stand for both cases. -/
def alphabet : List Char :=
  ['0', '1', '2', '3', '4', '5', '6', '7', '8', '9', 'a', 'b', 'c', 'd', 'e', 'f', 'g', 'h', 'i',
    'j', 'k', 'l', 'm', 'n', 'o', 'p', 'q', 'r', 's', 't', 'u', 'v', 'w', 'x', 'y', 'z']

/-- `c` is one of the first `radix` digits. -/
def IsDigit (radix : Nat) (c : Char) : Prop := c.toLower ∈ alphabet.take radix

/-- The value of a digit is its place in the order. -/
theorem asciiDigitValue?_eq (c : Char) : asciiDigitValue? c = alphabet.idxOf? c.toLower := by
  have hascii : ∀ n < 128,
      asciiDigitValue? (Char.ofNat n) = alphabet.idxOf? (Char.ofNat n).toLower := by
    decide +kernel
  rcases Nat.lt_or_ge c.toNat 128 with hlt | hge
  · have h := hascii c.toNat hlt
    rwa [Char.ofNat_toNat] at h
  -- Beyond ASCII there are no digits and no capital letters.
  have hle {d : Char} (hd : d.toNat < 128) : ¬c ≤ d := fun h => by
    have : c.toNat ≤ d.toNat := h
    omega
  have hlower : c.toLower = c := dif_neg fun h => @hle 'Z' (by decide) h.2
  have hmem : c ∉ alphabet := by
    have hall : alphabet.all (·.toNat < 128) := by decide
    exact fun h => Nat.not_lt.2 hge (of_decide_eq_true (List.all_eq_true.1 hall c h))
  rw [asciiDigitValue?, if_neg fun h => @hle '9' (by decide) h.2,
    if_neg fun h => @hle 'z' (by decide) h.2, if_neg fun h => @hle 'Z' (by decide) h.2,
    hlower, List.idxOf?_eq_none_iff.2 hmem]

/-- What counts as a digit are the first digits, as many as the radix says. -/
theorem isDigitOf_iff {radix : Nat} {c : Char} : isDigitOf radix c ↔ IsDigit radix c := by
  have hvalue : isDigitOf radix c ↔ ∃ d, alphabet.idxOf? c.toLower = some d ∧ d < radix := by
    rw [isDigitOf, digitValue?, asciiDigitValue?_eq, Option.isSome_iff_exists]
    simp only [Option.filter_eq_some_iff, decide_eq_true_iff]
  rw [hvalue, IsDigit, List.mem_take_iff_getElem]
  constructor
  · rintro ⟨d, hd, hlt⟩
    obtain ⟨hlength, hget, -⟩ := List.idxOf?_eq_some_iff.1 hd
    exact ⟨d, by omega, hget⟩
  · rintro ⟨j, hj, hget⟩
    cases hd : alphabet.idxOf? c.toLower with
    | none => exact absurd (hget ▸ List.getElem_mem _) (List.idxOf?_eq_none_iff.1 hd)
    | some d =>
      obtain ⟨_, -, hfirst⟩ := List.idxOf?_eq_some_iff.1 hd
      have hle : ¬j < d := fun hlt => hfirst j hlt hget
      exact ⟨d, rfl, by omega⟩

/-! ## What a numeral is -/

/-- The last character is a digit. -/
def EndsInDigit (radix : Nat) (cs : List Char) : Prop := ∃ d ∈ cs.getLast?, IsDigit radix d

/-- At least one digit, and separators, each of them between two digits. -/
structure IsNumeral (radix : Nat) (cs : List Char) : Prop where
  ne_nil : cs ≠ []
  isDigit {c : Char} : c ∈ cs → c ≠ '_' → IsDigit radix c
  between {before after : List Char} : cs = before ++ '_' :: after →
    EndsInDigit radix before ∧ ∃ d ∈ after.head?, IsDigit radix d

/-- After `before` the character `c` is out of place: a separator that follows no digit, or another
character that is no digit. -/
def OutOfPlace (radix : Nat) (before : List Char) (c : Char) : Prop :=
  if c = '_' then ¬EndsInDigit radix before else ¬IsDigit radix c

/-- No character is out of place. -/
def InPlace (radix : Nat) (cs : List Char) : Prop :=
  ∀ before c after, cs = before ++ c :: after → ¬OutOfPlace radix before c

/-- What is said of a character that is out of place. -/
def reasonAgainst (radix : Nat) (c : Char) : String :=
  if c = '_' then "misplaced digit separator"
  else "invalid digit '" ++ c.toString ++ "' for base " ++ naturalText radix

/-- Why a text is no numeral: because of its first character that is out of place, or if there is
none because of the separator at its end. -/
inductive Faulty (radix : Nat) : List Char → String → Prop
  | first {before : List Char} {c : Char} (hbefore : InPlace radix before)
      (hc : OutOfPlace radix before c) (after : List Char) :
      Faulty radix (before ++ c :: after) (reasonAgainst radix c)
  | last {before : List Char} (h : InPlace radix (before ++ ['_'])) :
      Faulty radix (before ++ ['_']) "misplaced digit separator"

variable {radix : Nat} {c : Char} {cs before after : List Char} {reason : String}

theorem not_isDigit_separator : ¬IsDigit radix '_' := fun h =>
  ne_separator_of_isDigitOf (isDigitOf_iff.2 h) rfl

theorem endsInDigit_snoc : EndsInDigit radix (cs ++ [c]) ↔ IsDigit radix c := by
  simp [EndsInDigit]

theorem outOfPlace_separator : OutOfPlace radix before '_' ↔ ¬EndsInDigit radix before := by
  rw [OutOfPlace, if_pos rfl]

theorem outOfPlace_of_ne (hc : c ≠ '_') : OutOfPlace radix before c ↔ ¬IsDigit radix c := by
  rw [OutOfPlace, if_neg hc]

theorem inPlace_nil : InPlace radix [] := by
  intro before c after h
  cases before <;> cases h

/-- One character after another is in place. -/
theorem inPlace_snoc : InPlace radix (cs ++ [c]) ↔ InPlace radix cs ∧ ¬OutOfPlace radix cs c := by
  constructor
  · intro h
    refine ⟨fun before d after hcs => h before d (after ++ [c]) ?_, h cs c [] rfl⟩
    rw [hcs, List.append_assoc, List.cons_append]
  · rintro ⟨hcs, hc⟩ before d after h
    rcases List.eq_nil_or_concat after with rfl | ⟨after, e, rfl⟩
    · obtain ⟨rfl, hlast⟩ := List.append_inj' h rfl
      obtain rfl := List.singleton_inj.1 hlast
      exact hc
    · rw [List.concat_eq_append, ← List.cons_append, ← List.append_assoc] at h
      obtain ⟨rfl, -⟩ := List.append_inj' h rfl
      exact hcs before d after rfl

/-- A text has a first character that is out of place, or none. -/
theorem inPlace_or_first (radix : Nat) (cs : List Char) : InPlace radix cs ∨
    ∃ before c after, cs = before ++ c :: after ∧ InPlace radix before ∧
      OutOfPlace radix before c := by
  induction cs using List.reverseRecOn with
  | nil => exact .inl inPlace_nil
  | append_singleton cs c ih =>
    rcases ih with h | ⟨before, d, after, rfl, hbefore, hd⟩
    · by_cases hc : OutOfPlace radix cs c
      · exact .inr ⟨cs, c, [], rfl, h, hc⟩
      · exact .inl (inPlace_snoc.2 ⟨h, hc⟩)
    · refine .inr ⟨before, d, after ++ [c], ?_, hbefore, hd⟩
      rw [List.append_assoc, List.cons_append]

/-- A numeral has all its characters in place, -/
theorem IsNumeral.inPlace (h : IsNumeral radix cs) : InPlace radix cs := by
  rintro before c after rfl
  by_cases hc : c = '_'
  · subst hc
    exact fun hout => outOfPlace_separator.1 hout (h.between rfl).1
  · exact fun hout => (outOfPlace_of_ne hc).1 hout (h.isDigit (by simp) hc)

/-- and ends in a digit. -/
theorem IsNumeral.endsInDigit (h : IsNumeral radix cs) : EndsInDigit radix cs := by
  obtain rfl | ⟨before, c, rfl⟩ := List.eq_nil_or_concat cs
  · exact absurd rfl h.ne_nil
  rw [List.concat_eq_append] at *
  refine endsInDigit_snoc.2 (h.isDigit (by simp) ?_)
  rintro rfl
  have hafter : ∃ d ∈ [].head?, IsDigit radix d := (h.between rfl).2
  obtain ⟨_, ⟨⟩, -⟩ := hafter

/-- What has all its characters in place and ends in a digit is a numeral. -/
theorem InPlace.isNumeral (h : InPlace radix cs) (hlast : EndsInDigit radix cs) :
    IsNumeral radix cs := by
  refine ⟨?_, ?_, ?_⟩
  · rintro rfl
    obtain ⟨_, ⟨⟩, -⟩ := hlast
  · intro c hc hne
    obtain ⟨before, after, rfl⟩ := List.append_of_mem hc
    exact not_not.1 fun hdigit => h before c after rfl ((outOfPlace_of_ne hne).2 hdigit)
  · rintro before after rfl
    refine ⟨not_not.1 (mt outOfPlace_separator.2 (h before '_' after rfl)), ?_⟩
    cases after with
    | nil => exact absurd (endsInDigit_snoc.1 hlast) not_isDigit_separator
    | cons c after =>
      have hc := h (before ++ ['_']) c after (by simp)
      by_cases hsep : c = '_'
      · subst hsep
        rw [outOfPlace_separator, endsInDigit_snoc] at hc
        exact absurd not_isDigit_separator hc
      · rw [outOfPlace_of_ne hsep, not_not] at hc
        exact ⟨c, rfl, hc⟩

/-- Every text but the empty one is a numeral, or there is a reason why it is none. -/
theorem isNumeral_or_faulty (radix : Nat) (hcs : cs ≠ []) :
    IsNumeral radix cs ∨ ∃ reason, Faulty radix cs reason := by
  rcases inPlace_or_first radix cs with h | ⟨before, c, after, rfl, hbefore, hc⟩
  · obtain ⟨before, c, rfl⟩ := (List.eq_nil_or_concat cs).resolve_left hcs
    rw [List.concat_eq_append] at h ⊢
    by_cases hsep : c = '_'
    · subst hsep
      exact .inr ⟨_, .last h⟩
    · have hc := (inPlace_snoc.1 h).2
      rw [outOfPlace_of_ne hsep, not_not] at hc
      exact .inl (h.isNumeral (endsInDigit_snoc.2 hc))
  · exact .inr ⟨_, .first hbefore hc after⟩

theorem Faulty.ne_nil (h : Faulty radix cs reason) : cs ≠ [] := by
  cases h <;> simp

theorem reasonAgainst_of_ne (hc : c ≠ '_') :
    reasonAgainst radix c = (LiteralFault.invalidDigit c radix).message := if_neg hc

/-- No reason is the one that an empty text has. -/
theorem Faulty.ne_missingDigits (h : Faulty radix cs reason) : reason ≠ "missing digits" := by
  cases h with
  | last => decide
  | @first before c =>
    by_cases hc : c = '_'
    · rw [reasonAgainst, if_pos hc]
      decide
    · rw [reasonAgainst_of_ne hc]
      intro heq
      have hstarts := LiteralFault.message_invalidDigit_starts c radix
      rw [heq] at hstarts
      exact absurd hstarts (by decide)

/-! ## The scan -/

/-- The state of a scan after a text: whether a digit stands at its end. -/
def scanned (radix : Nat) (cs : List Char) : Bool := cs.getLast?.any (isDigitOf radix)

theorem scanned_iff : scanned radix cs ↔ EndsInDigit radix cs := by
  unfold scanned EndsInDigit
  cases cs.getLast? <;> simp [isDigitOf_iff]

theorem scanned_snoc : scanned radix (cs ++ [c]) = isDigitOf radix c := by
  rw [scanned, List.getLast?_concat]
  rfl

/-- A character that is in place leads from one state to the next, -/
theorem firstFault?_of_not_outOfPlace (h : ¬OutOfPlace radix before c) (after : List Char) :
    firstFault? radix (scanned radix before) (c :: after) =
      firstFault? radix (scanned radix (before ++ [c])) after := by
  rw [scanned_snoc]
  by_cases hc : c = '_'
  · subst hc
    rw [outOfPlace_separator, not_not, ← scanned_iff] at h
    rw [firstFault?, if_pos rfl, if_pos h]
    rfl
  · rw [outOfPlace_of_ne hc, not_not, ← isDigitOf_iff] at h
    rw [firstFault?_cons h, h]

/-- so that what is in place leads to the state after it. -/
theorem firstFault?_append (h : InPlace radix before) (after : List Char) :
    firstFault? radix false (before ++ after) = firstFault? radix (scanned radix before) after := by
  induction before using List.reverseRecOn generalizing after with
  | nil => rfl
  | append_singleton before c ih =>
    obtain ⟨hbefore, hc⟩ := inPlace_snoc.1 h
    rw [List.append_assoc, List.singleton_append, ih hbefore, firstFault?_of_not_outOfPlace hc]

/-- A character that is out of place ends the scan. -/
theorem exists_firstFault?_eq (h : OutOfPlace radix before c) (after : List Char) :
    ∃ fault, firstFault? radix (scanned radix before) (c :: after) = some fault ∧
      fault.message = reasonAgainst radix c := by
  by_cases hc : c = '_'
  · subst hc
    rw [outOfPlace_separator, ← scanned_iff] at h
    exact ⟨.misplacedSeparator, by rw [firstFault?, if_pos rfl, if_neg h], rfl⟩
  · rw [outOfPlace_of_ne hc, ← isDigitOf_iff] at h
    exact ⟨.invalidDigit c radix, by rw [firstFault?, if_neg hc, if_neg h],
      (reasonAgainst_of_ne hc).symm⟩

/-- The digits of a numeral are what is left without its separators. -/
theorem digitsOf_of_isNumeral (h : IsNumeral radix cs) :
    digitsOf radix false cs = .ok (cs.filter (· ≠ '_')) := by
  have hscan := firstFault?_append h.inPlace []
  rw [List.append_nil, scanned_iff.2 h.endsInDigit] at hscan
  have hnone : firstFault? radix false cs = none := hscan
  simp [digitsOf, h.ne_nil, hnone]

/-- A text that is no numeral has no digits, for the reason that there is. -/
theorem exists_digitsOf_eq_error (h : Faulty radix cs reason) :
    ∃ fault, digitsOf radix false cs = .error fault ∧ fault.message = reason := by
  have hfault : ∃ fault, firstFault? radix false cs = some fault ∧ fault.message = reason := by
    cases h with
    | first hbefore hc after =>
      rw [firstFault?_append hbefore]
      exact exists_firstFault?_eq hc after
    | @last before h =>
      have hscan := firstFault?_append h []
      rw [List.append_nil, scanned_snoc] at hscan
      exact ⟨_, hscan, rfl⟩
  obtain ⟨fault, hfirst, hmessage⟩ := hfault
  exact ⟨fault, by simp [digitsOf, h.ne_nil, hfirst], hmessage⟩

/-- A text has digits if it is a numeral. -/
theorem digitsOf_eq_ok_iff_isNumeral {ds : List Char} :
    digitsOf radix false cs = .ok ds ↔ IsNumeral radix cs ∧ ds = cs.filter (· ≠ '_') := by
  constructor
  · intro h
    have hne : cs ≠ [] := by
      rintro rfl
      cases h
    rcases isNumeral_or_faulty radix hne with hnumeral | ⟨reason, hfaulty⟩
    · rw [digitsOf_of_isNumeral hnumeral] at h
      exact ⟨hnumeral, (Except.ok.inj h).symm⟩
    · obtain ⟨fault, hfault, -⟩ := exists_digitsOf_eq_error hfaulty
      cases hfault.symm.trans h
  · rintro ⟨hnumeral, rfl⟩
    exact digitsOf_of_isNumeral hnumeral

/-- The message of a fault is the reason why a text is no numeral. -/
theorem faulty_iff (hcs : cs ≠ []) :
    Faulty radix cs reason ↔
      (digitsOf radix false cs).mapError LiteralFault.message = .error reason := by
  constructor
  · intro h
    obtain ⟨fault, hfault, rfl⟩ := exists_digitsOf_eq_error h
    rw [hfault]
    rfl
  · intro h
    rcases isNumeral_or_faulty radix hcs with hnumeral | ⟨reason', hfaulty⟩
    · rw [digitsOf_of_isNumeral hnumeral] at h
      cases h
    · obtain ⟨fault, hfault, rfl⟩ := exists_digitsOf_eq_error hfaulty
      rw [hfault] at h
      cases h
      exact hfaulty

/-! ## What may precede a numeral -/

/-- The numeral of a text, without the one separator that may precede it. -/
def numeralOf (allowLeading : Bool) (cs : List Char) : List Char :=
  if allowLeading ∧ cs.head? = some '_' then cs.tail else cs

theorem dropLeadingSeparator_of_ne (hc : c ≠ '_') (cs : List Char) :
    dropLeadingSeparator (c :: cs) = c :: cs := by
  unfold dropLeadingSeparator
  split
  · next h => exact absurd (List.cons.inj h).1 hc
  · rfl

theorem numeralOf_eq (allowLeading : Bool) (cs : List Char) :
    numeralOf allowLeading cs = if allowLeading then dropLeadingSeparator cs else cs := by
  cases allowLeading with
  | false => rfl
  | true =>
    cases cs with
    | nil => rfl
    | cons c cs =>
      by_cases hc : c = '_'
      · subst hc
        rfl
      · rw [if_pos rfl, dropLeadingSeparator_of_ne hc]
        exact if_neg fun h => hc (Option.some.inj h.2)

/-- The digits of a text are those of its numeral. -/
theorem digitsOf_eq (radix : Nat) (allowLeading : Bool) (cs : List Char) :
    digitsOf radix allowLeading cs = digitsOf radix false (numeralOf allowLeading cs) := by
  rw [numeralOf_eq]
  rfl

/-! ## Any radix -/

/-- There is an answer for a base, and where no character but a separator comes first. -/
theorem digitsOf?_eq (radix : Nat) (allowLeading : Bool) (cs : List Char) :
    digitsOf? radix allowLeading cs =
      if isBase radix || (numeralOf allowLeading cs).head?.all (· = '_') then
        some (digitsOf radix false (numeralOf allowLeading cs))
      else none := by
  rw [digitsOf?, ← numeralOf_eq, digitsOf_eq]

/-- A numeral begins with a digit. -/
theorem IsNumeral.exists_head (h : IsNumeral radix cs) : ∃ c ∈ cs.head?, c ≠ '_' := by
  obtain ⟨c, rest, rfl⟩ := List.exists_cons_of_ne_nil h.ne_nil
  refine ⟨c, rfl, ?_⟩
  rintro rfl
  have hbefore : EndsInDigit radix [] := (h.between rfl).1
  obtain ⟨_, ⟨⟩, -⟩ := hbefore

/-- The radixes of literals are bases, so that there always is an answer for them. -/
theorem digitsOf?_markedRadix (mark : Char) (allowLeading : Bool) (cs : List Char) :
    digitsOf? (markedRadix mark) allowLeading cs =
      some (digitsOf (markedRadix mark) allowLeading cs) := by
  have hbase : isBase (markedRadix mark) := by
    unfold markedRadix
    split
    · rfl
    · split <;> rfl
  rw [digitsOf?_eq, hbase, Bool.true_or, if_pos rfl, ← digitsOf_eq]

/-- The answer for a text, if there is one: its digits, or the message of its fault. -/
def answerFor (radix : Nat) (allowLeading : Bool) (cs : List Char) :
    Option (Except String (List Char)) :=
  (digitsOf? radix allowLeading cs).map (·.mapError LiteralFault.message)

section

variable {allowLeading : Bool} {ds : List Char}

/-- There is none where a character is to be compared with the digits of no base. -/
theorem answerFor_eq_none_iff : answerFor radix allowLeading cs = none ↔
    ¬isBase radix ∧ ∃ c ∈ (numeralOf allowLeading cs).head?, c ≠ '_' := by
  rw [answerFor, digitsOf?_eq]
  cases (numeralOf allowLeading cs).head? <;> simp

theorem answerFor_eq_some_iff {answer : Except String (List Char)} :
    answerFor radix allowLeading cs = some answer ↔
      (isBase radix ∨ ∀ c ∈ (numeralOf allowLeading cs).head?, c = '_') ∧
        (digitsOf radix false (numeralOf allowLeading cs)).mapError LiteralFault.message =
          answer := by
  rw [answerFor, digitsOf?_eq]
  cases (numeralOf allowLeading cs).head? <;> simp

/-- Digits are the answer for numerals in a base; in no base a numeral begins with a digit that
cannot be compared. -/
theorem answerFor_eq_ok_iff : answerFor radix allowLeading cs = some (.ok ds) ↔
    isBase radix ∧ IsNumeral radix (numeralOf allowLeading cs) ∧
      ds = (numeralOf allowLeading cs).filter (· ≠ '_') := by
  have hok : (digitsOf radix false (numeralOf allowLeading cs)).mapError LiteralFault.message =
      .ok ds ↔ digitsOf radix false (numeralOf allowLeading cs) = .ok ds := by
    cases digitsOf radix false (numeralOf allowLeading cs) <;> simp [Except.mapError]
  rw [answerFor_eq_some_iff, hok, digitsOf_eq_ok_iff_isNumeral]
  refine and_congr_left fun h => or_iff_left fun hall => ?_
  obtain ⟨c, hc, hne⟩ := h.1.exists_head
  exact hne (hall c hc)

/-- A fault in a text that has characters is one that the text has, -/
theorem answerFor_eq_error_iff (hne : numeralOf allowLeading cs ≠ []) :
    answerFor radix allowLeading cs = some (.error reason) ↔
      (isBase radix ∨ (numeralOf allowLeading cs).head? = some '_') ∧
        Faulty radix (numeralOf allowLeading cs) reason := by
  rw [answerFor_eq_some_iff, faulty_iff hne]
  obtain ⟨c, rest, hc⟩ := List.exists_cons_of_ne_nil hne
  rw [hc]
  simp

/-- and none of these is that digits are missing. -/
theorem answerFor_eq_missingDigits_iff :
    answerFor radix allowLeading cs = some (.error "missing digits") ↔
      numeralOf allowLeading cs = [] := by
  constructor
  · intro h
    by_contra hne
    exact ((answerFor_eq_error_iff hne).1 h).2.ne_missingDigits rfl
  · intro h
    rw [answerFor_eq_some_iff, h]
    exact ⟨.inr nofun, rfl⟩

end

/-- **Separators are stripped from numerals only, and the first fault is blamed.** Let `t` be the
text without the one separator that may precede it. The answer is `t` without its separators if and
only if `t` is a numeral, and that digits are missing if and only if `t` is empty. Otherwise it is
the reason against the first character of `t` that is out of place, or against the separator at its
end if there is none. There is no answer only for a radix that is no base, where `t` starts with
anything but a separator. -/
theorem answerFor_numeral_or_faulty (radix : Nat) (allowLeading : Bool) (cs : List Char) :
    (answerFor radix allowLeading cs = none ↔
      ¬isBase radix ∧ ∃ c ∈ (numeralOf allowLeading cs).head?, c ≠ '_') ∧
    (∀ ds, answerFor radix allowLeading cs = some (.ok ds) ↔
      isBase radix ∧ IsNumeral radix (numeralOf allowLeading cs) ∧
        ds = (numeralOf allowLeading cs).filter (· ≠ '_')) ∧
    (answerFor radix allowLeading cs = some (.error "missing digits") ↔
      numeralOf allowLeading cs = []) ∧
    (numeralOf allowLeading cs ≠ [] → ∀ reason,
      answerFor radix allowLeading cs = some (.error reason) ↔
        (isBase radix ∨ (numeralOf allowLeading cs).head? = some '_') ∧
          Faulty radix (numeralOf allowLeading cs) reason) :=
  ⟨answerFor_eq_none_iff, fun _ => answerFor_eq_ok_iff, answerFor_eq_missingDigits_iff,
    fun hne _ => answerFor_eq_error_iff hne⟩

/-- With 1 as the radix the digit 2 is out of place, but there is no answer that tells so. -/
theorem answerFor_radix_one :
    Faulty 1 (numeralOf false ['2']) "invalid digit '2' for base 1" ∧
      answerFor 1 false ['2'] = none := by
  have hreason : reasonAgainst 1 '2' = "invalid digit '2' for base 1" := by decide
  have hout : OutOfPlace 1 [] '2' := (outOfPlace_of_ne (by decide)).2 (by unfold IsDigit; decide)
  exact ⟨hreason ▸ .first inPlace_nil hout [], by decide⟩

end Literal
end Calculator
