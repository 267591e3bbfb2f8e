import Mathlib.Data.List.Forall2
import Mathlib.Data.Nat.Digits.Lemmas
import Calculator.Proofs.Token.Separator

/-!
# Spellings

How integers are written: by their digits, letters in either case, with zeros before them and
separators among them, plain in base ten and after a mark in the other bases. These are the texts
that integer literals read, and the integers are what they read.

* `Spells`: the digits of a number in a base.
* `Spelling`: the literals of a number.
* `exists_spells_iff`: digits spell the number that they denote.
* `Literal.decimalInteger_eq_ok_iff`, `Literal.markedInteger_eq_ok_iff`: what is read.
-/

namespace Calculator

/-! ## Digits -/

/-- `c` is the digit for `d`, a letter in either case. -/
def IsDigitFor (c : Char) (d : Nat) : Prop := c = d.digitChar ∨ c = d.digitChar.toUpper

/-- `ds` are the digits of `n` after some zeros. Zero has no digits but these. -/
def Spells (radix zeros n : Nat) (ds : List Char) : Prop :=
  List.Forall₂ IsDigitFor ds (List.replicate zeros 0 ++ (radix.digits n).reverse)

/-- The base that the letter after a zero marks. -/
def baseOfMark? : Char → Option Nat
  | 'x' | 'X' => some 16
  | 'o' | 'O' => some 8
  | 'b' | 'B' => some 2
  | _ => none

/-- `cs` is a literal of `n`. -/
inductive Spelling (n : Nat) (cs : List Char) : Prop
  /-- In base ten only zero has zeros before its digits. -/
  | decimal {zeros : Nat} {ds : List Char} (hds : Spells 10 zeros n ds) (hzeros : zeros = 0 ∨ n = 0)
      (hcs : Separated ds cs)
  /-- A separator may stand after the mark. -/
  | marked {mark : Char} {radix zeros : Nat} {lead ds separated : List Char}
      (hmark : baseOfMark? mark = some radix) (hlead : lead = [] ∨ lead = ['_'])
      (hds : Spells radix zeros n ds) (hseparated : Separated ds separated)
      (hcs : cs = '0' :: mark :: (lead ++ separated))

section

variable {radix zeros n d : Nat} {c : Char} {cs ds : List Char} {vs : List Nat}

theorem asciiDigitValue?_eq_some_iff (hd : d < 16) :
    asciiDigitValue? c = some d ↔ IsDigitFor c d := by
  have hnat (k : Nat) (h : c.toNat = k) : c = Char.ofNat k := by rw [← h, Char.ofNat_toNat]
  constructor
  · have hdigit : ∀ d < 10, Char.ofNat (48 + d) = d.digitChar := by decide
    have hsmall : ∀ d < 16, 10 ≤ d → Char.ofNat (87 + d) = d.digitChar := by decide
    have hlarge : ∀ d < 16, 10 ≤ d → Char.ofNat (55 + d) = d.digitChar.toUpper := by decide
    intro h
    unfold asciiDigitValue? at h
    split at h
    · next hc =>
      have hge : 48 ≤ c.toNat := hc.1
      have hle : c.toNat ≤ 57 := hc.2
      have hval := Option.some.inj h
      exact .inl ((hnat _ (by omega)).trans (hdigit d (by omega)))
    split at h
    · next hc =>
      have hge : 97 ≤ c.toNat := hc.1
      have hval := Option.some.inj h
      exact .inl ((hnat _ (by omega)).trans (hsmall d hd (by omega)))
    split at h
    · next hc =>
      have hge : 65 ≤ c.toNat := hc.1
      have hval := Option.some.inj h
      exact .inr ((hnat _ (by omega)).trans (hlarge d hd (by omega)))
    · cases h
  · have hall : ∀ d < 16, asciiDigitValue? d.digitChar = some d ∧
        asciiDigitValue? d.digitChar.toUpper = some d := by decide
    rintro (rfl | rfl)
    · exact (hall d hd).1
    · exact (hall d hd).2

/-- The digits of a base up to sixteen, with their values. -/
theorem digitValue?_eq_some_iff (hradix : radix ≤ 16) :
    digitValue? radix c = some d ↔ d < radix ∧ IsDigitFor c d := by
  rw [digitValue?, Option.filter_eq_some_iff, decide_eq_true_iff]
  constructor
  · rintro ⟨hvalue, hd⟩
    exact ⟨hd, (asciiDigitValue?_eq_some_iff (by omega)).1 hvalue⟩
  · rintro ⟨hd, hc⟩
    exact ⟨(asciiDigitValue?_eq_some_iff (by omega)).2 hc, hd⟩

/-! ## What digits denote -/

/-- Digits with their values denote the number of these values. -/
theorem numeralValue_eq_ofDigits
    (h : List.Forall₂ (fun c v => digitValue? radix c = some v) ds vs) :
    numeralValue radix ds = Nat.ofDigits radix vs.reverse := by
  have hfold : ∀ n, ds.foldl (fun n c => n * radix + (digitValue? radix c).getD 0) n =
      vs.foldl (fun n v => v + radix * n) n := by
    induction h with
    | nil => exact fun _ => rfl
    | @cons c v ds vs hv _ ih =>
      intro n
      have hstep : n * radix + (digitValue? radix c).getD 0 = v + radix * n := by
        rw [hv, Option.getD_some, Nat.mul_comm, Nat.add_comm]
      rw [List.foldl_cons, List.foldl_cons, hstep, ih]
  rw [Nat.ofDigits_eq_foldr, List.foldr_reverse]
  exact hfold 0

/-- Every list of digits is that of a number, with zeros before it. -/
theorem exists_replicate_append_digits (hradix : 1 < radix) (hvs : ∀ v ∈ vs, v < radix) :
    ∃ zeros, vs =
      List.replicate zeros 0 ++ (radix.digits (Nat.ofDigits radix vs.reverse)).reverse := by
  induction vs with
  | nil => exact ⟨0, by simp⟩
  | cons v vs ih =>
    by_cases hv : v = 0
    · obtain ⟨zeros, hzeros⟩ := ih (List.forall_mem_cons.1 hvs).2
      have hvalue : Nat.ofDigits radix (v :: vs).reverse = Nat.ofDigits radix vs.reverse := by
        rw [List.reverse_cons, hv]
        exact Nat.ofDigits_append_replicate_zero (k := 1) vs.reverse
      refine ⟨zeros + 1, ?_⟩
      rw [hvalue, List.replicate_succ, List.cons_append, ← hzeros, hv]
    · refine ⟨0, ?_⟩
      rw [Nat.digits_ofDigits radix hradix]
      · simp
      · exact fun v hv => hvs v (List.mem_reverse.1 hv)
      · intro hne
        simpa using hv

/-- Digits have values below the base, and are the digits for them. -/
theorem forall₂_digitValue?_iff (hradix : radix ≤ 16) :
    List.Forall₂ (fun c v => digitValue? radix c = some v) ds vs ↔
      List.Forall₂ IsDigitFor ds vs ∧ ∀ v ∈ vs, v < radix := by
  simp only [digitValue?_eq_some_iff hradix]
  constructor
  · intro h
    obtain ⟨hvs, hds⟩ := (List.forall₂_and_left vs ds).1 h.flip
    exact ⟨hds.flip, hvs⟩
  · rintro ⟨hds, hvs⟩
    exact List.Forall₂.flip ((List.forall₂_and_left vs ds).2 ⟨hvs, hds.flip⟩)

theorem isDigitOf_of_forall₂
    (h : List.Forall₂ (fun c v => digitValue? radix c = some v) ds vs) :
    ∀ c ∈ ds, isDigitOf radix c := by
  induction h with
  | nil => simp
  | cons hv _ ih => exact List.forall_mem_cons.2 ⟨by rw [isDigitOf, hv]; rfl, ih⟩

theorem exists_forall₂_of_isDigitOf (h : ∀ c ∈ ds, isDigitOf radix c) :
    ∃ vs, List.Forall₂ (fun c v => digitValue? radix c = some v) ds vs := by
  induction ds with
  | nil => exact ⟨[], .nil⟩
  | cons c ds ih =>
    obtain ⟨hc, hds⟩ := List.forall_mem_cons.1 h
    obtain ⟨v, hv⟩ := Option.isSome_iff_exists.1 hc
    obtain ⟨vs, hvs⟩ := ih hds
    exact ⟨v :: vs, .cons hv hvs⟩

theorem lt_of_mem_spelled (hradix : 1 < radix) :
    ∀ v ∈ List.replicate zeros 0 ++ (radix.digits n).reverse, v < radix := by
  intro v hv
  rcases List.mem_append.1 hv with hv | hv
  · rw [List.eq_of_mem_replicate hv]
    omega
  · exact Nat.digits_lt_base hradix (List.mem_reverse.1 hv)

/-- Digits spell the number that they denote. -/
theorem exists_spells_iff (hone : 1 < radix) (hradix : radix ≤ 16) :
    (∃ zeros, Spells radix zeros n ds) ↔
      (∀ c ∈ ds, isDigitOf radix c) ∧ numeralValue radix ds = n := by
  constructor
  · rintro ⟨zeros, h⟩
    have hvalues := (forall₂_digitValue?_iff hradix).2 ⟨h, lt_of_mem_spelled hone⟩
    refine ⟨isDigitOf_of_forall₂ hvalues, (numeralValue_eq_ofDigits hvalues).trans ?_⟩
    rw [List.reverse_append, List.reverse_reverse, List.reverse_replicate,
      Nat.ofDigits_append_replicate_zero, Nat.ofDigits_digits]
  · rintro ⟨hds, rfl⟩
    obtain ⟨vs, hvalues⟩ := exists_forall₂_of_isDigitOf hds
    obtain ⟨h, hvs⟩ := (forall₂_digitValue?_iff hradix).1 hvalues
    obtain ⟨zeros, hzeros⟩ := exists_replicate_append_digits hone hvs
    rw [numeralValue_eq_ofDigits hvalues]
    exact ⟨zeros, by rwa [Spells, ← hzeros]⟩

/-! ## Leading zeros -/

theorem eq_zero_iff_of_isDigitFor (h : IsDigitFor c d) (hd : d < 16) : c = '0' ↔ d = 0 := by
  have hall : ∀ d < 16, (d.digitChar = '0' ↔ d = 0) ∧ (d.digitChar.toUpper = '0' ↔ d = 0) := by
    decide
  rcases h with rfl | rfl
  · exact (hall d hd).1
  · exact (hall d hd).2

theorem exists_ne_zero_iff (h : List.Forall₂ IsDigitFor ds vs) (hvs : ∀ v ∈ vs, v < 16) :
    (∃ c ∈ ds, c ≠ '0') ↔ ∃ v ∈ vs, v ≠ 0 := by
  induction h with
  | nil => simp
  | cons hv _ ih =>
    obtain ⟨hlt, hvs⟩ := List.forall_mem_cons.1 hvs
    rw [List.exists_mem_cons_iff, List.exists_mem_cons_iff]
    exact or_congr (not_congr (eq_zero_iff_of_isDigitFor hv hlt)) (ih hvs)

/-- There is a digit other than zero if the number is not zero. -/
theorem Spells.exists_ne_zero_iff (h : Spells 10 zeros n ds) : (∃ c ∈ ds, c ≠ '0') ↔ n ≠ 0 := by
  rw [Calculator.exists_ne_zero_iff h fun v hv =>
    Nat.lt_trans (lt_of_mem_spelled (by decide) v hv) (by decide)]
  constructor
  · rintro ⟨v, hv, hne⟩ rfl
    rcases List.mem_append.1 hv with hv | hv
    · exact hne (List.eq_of_mem_replicate hv)
    · cases hv
  · intro hn
    have hdigits : Nat.digits 10 n ≠ [] := Nat.digits_ne_nil_iff_ne_zero.2 hn
    refine ⟨(Nat.digits 10 n).getLast hdigits, ?_, Nat.getLast_digit_ne_zero 10 hn⟩
    simp

/-- The first digit is a zero if there are zeros before the digits. -/
theorem Spells.head?_eq_zero_iff (h : Spells 10 zeros n ds) : ds.head? = some '0' ↔ zeros ≠ 0 := by
  cases zeros with
  | zero =>
    simp only [ne_eq, not_true, iff_false]
    intro hhead
    obtain ⟨ds, rfl⟩ := List.head?_eq_some_iff.1 hhead
    rw [Spells, List.replicate_zero, List.nil_append] at h
    obtain ⟨v, vs, hv, -, hvs⟩ := List.forall₂_cons_left_iff.1 h
    have hlt : v < 10 :=
      Nat.digits_lt_base (by decide) (List.mem_reverse.1 (by rw [hvs]; exact List.mem_cons_self))
    obtain rfl := (eq_zero_iff_of_isDigitFor hv (Nat.lt_trans hlt (by decide))).1 rfl
    have hdigits : Nat.digits 10 n = vs.reverse ++ [0] := by
      rw [← List.reverse_cons, ← hvs, List.reverse_reverse]
    have hn : n ≠ 0 := by
      rintro rfl
      simp at hdigits
    have hlast := Nat.getLast_digit_ne_zero 10 hn
    simp [hdigits] at hlast
  | succ zeros =>
    rw [Spells, List.replicate_succ, List.cons_append] at h
    obtain ⟨c, ds, hc, -, rfl⟩ := List.forall₂_cons_right_iff.1 h
    simpa using (eq_zero_iff_of_isDigitFor hc (by decide)).2 rfl

end

/-! ## Literals -/

namespace Literal

section

variable {n radix : Nat} {mark : Char} {cs : List Char}

/-- A decimal integer is read from its digits, which no zeros precede unless it is zero. -/
theorem decimalInteger_eq_ok_iff :
    decimalInteger cs = .ok n ↔
      ∃ zeros ds, Spells 10 zeros n ds ∧ (zeros = 0 ∨ n = 0) ∧ Separated ds cs := by
  unfold decimalInteger
  constructor
  · intro h
    obtain ⟨ds, hdigits, h⟩ := exists_of_bind_eq_ok h
    obtain ⟨hcs, hds⟩ := digitsOf_eq_ok_iff.1 hdigits
    split at h
    · cases h
    next hzeros =>
    rw [integerOfDigits_eq hcs hds] at h
    obtain ⟨zeros, hspells⟩ := (exists_spells_iff (by decide) (by decide)).2
      ⟨hds, Except.ok.inj h⟩
    refine ⟨zeros, ds, hspells, ?_, hcs⟩
    by_contra hlead
    rw [not_or] at hlead
    refine hzeros ⟨hspells.head?_eq_zero_iff.2 hlead.1, ?_⟩
    simpa using hspells.exists_ne_zero_iff.2 hlead.2
  · rintro ⟨zeros, ds, hspells, hlead, hcs⟩
    obtain ⟨hds, rfl⟩ := (exists_spells_iff (by decide) (by decide)).1 ⟨zeros, hspells⟩
    have hzeros : ¬(ds.head? = some '0' ∧ ds.any (· ≠ '0')) := by
      rintro ⟨hhead, hany⟩
      have hne := hspells.exists_ne_zero_iff.1 (by simpa using hany)
      exact hlead.elim (hspells.head?_eq_zero_iff.1 hhead) hne
    rw [digitsOf_eq_ok_iff.2 ⟨hcs, hds⟩]
    change (if _ then _ else _) = _
    rw [if_neg hzeros, integerOfDigits_eq hcs hds]

theorem markedRadix_eq (h : baseOfMark? mark = some radix) : markedRadix mark = radix := by
  unfold baseOfMark? at h
  split at h <;> cases h <;> rfl

theorem bounds_of_baseOfMark (h : baseOfMark? mark = some radix) : 1 < radix ∧ radix ≤ 16 := by
  unfold baseOfMark? at h
  split at h <;> cases h <;> decide

/-- An integer after a mark is read from its digits in the base that is marked. -/
theorem markedInteger_eq_ok_iff (hmark : baseOfMark? mark = some radix) :
    markedInteger ('0' :: mark :: cs) = .ok n ↔
      ∃ zeros lead ds separated, (lead = [] ∨ lead = ['_']) ∧ Spells radix zeros n ds ∧
        Separated ds separated ∧ cs = lead ++ separated := by
  obtain ⟨hone, hle⟩ := bounds_of_baseOfMark hmark
  have hunfold : markedInteger ('0' :: mark :: cs) =
      (do integerOfDigits radix (← digitsOf radix true cs)) := by
    rw [← markedRadix_eq hmark]
    rfl
  rw [hunfold]
  constructor
  · intro h
    obtain ⟨ds, hdigits, h⟩ := exists_of_bind_eq_ok h
    obtain ⟨lead, separated, hlead, hcs, hseparated, hds⟩ := digitsOf_true_eq_ok_iff.1 hdigits
    rw [integerOfDigits_eq hseparated hds] at h
    obtain ⟨zeros, hspells⟩ := (exists_spells_iff hone hle).2 ⟨hds, Except.ok.inj h⟩
    exact ⟨zeros, lead, ds, separated, hlead, hspells, hseparated, hcs⟩
  · rintro ⟨zeros, lead, ds, separated, hlead, hspells, hseparated, hcs⟩
    obtain ⟨hds, rfl⟩ := (exists_spells_iff hone hle).1 ⟨zeros, hspells⟩
    rw [digitsOf_true_eq_ok_iff.2 ⟨lead, separated, hlead, hcs, hseparated, hds⟩]
    exact integerOfDigits_eq hseparated hds

end

end Literal

end Calculator
