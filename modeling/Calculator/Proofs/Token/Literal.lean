import Calculator.Proofs.Decimal.Layout
import Calculator.Proofs.Token.Cut
import Calculator.Proofs.Token.Measure
import Calculator.Proofs.Token.Separator

/-!
# Literals that are written

Decimal digits and numerals are cut from a source as one lexeme each, whatever ends them, and read
as what they denote.

* `Delimited`: what stands here goes on no literal.
* `Lexeme.cut_decimalDigits`, `Lexeme.cut_numeral`: the cut after a literal.
* `Literal.decimalFloat_eq_ok_iff`: a float is its digits, read as a decimal.
* `Literal.readDecimal?_append`: a decimal is read part by part.
* `Literal.decimalInteger_decimalDigits`, `Literal.decimalFloat_numeral`: what literals denote.
-/

namespace Calculator

namespace Numeral

variable {n : Numeral} {c : Char}

theorem isDigit_whole (hc : c ∈ n.whole) : '0' ≤ c ∧ c ≤ '9' := n.isDigit c (by simp [hc])

theorem isDigit_fraction (hc : c ∈ n.fraction) : '0' ≤ c ∧ c ≤ '9' := n.isDigit c (by simp [hc])

theorem isDigit_exponent (hc : c ∈ n.exponent) : '0' ≤ c ∧ c ≤ '9' := n.isDigit c (by simp [hc])

end Numeral

namespace Lexeme

/-- What stands here goes on no literal: it is at its end, or at a character that belongs to no
name and is no point. -/
def Delimited (rest : List Char) : Prop := ∀ c ∈ rest.head?, isNamePart c = false ∧ c ≠ '.'

section

variable {rest : List Char}

/-- Digits are a first digit and parts of a numeral after it. -/
theorem exists_cons_of_digits {ds : List Char} (hds : ∀ c ∈ ds, '0' ≤ c ∧ c ≤ '9')
    (hne : ds ≠ []) : ∃ d x, ds = d :: x ∧ isDigit d ∧ ∀ c ∈ x, isNumeralPart c := by
  obtain ⟨d, x, rfl⟩ := List.exists_cons_of_ne_nil hne
  obtain ⟨hd, hx⟩ := List.forall_mem_cons.1 hds
  exact ⟨d, x, rfl, isDigit_iff.2 hd,
    fun c hc => isNumeralPart_of_isDigit (isDigit_iff.2 (hx c hc))⟩

/-- What belongs to no name has no property that all its characters have in names. -/
theorem Delimited.eq_false (h : Delimited rest) {p : Char → Bool} (hp : ∀ c, p c → isNamePart c) :
    ∀ c ∈ rest.head?, p c = false := by
  intro c hc
  rw [Bool.eq_false_iff]
  intro hpc
  have hname := (h c hc).1
  rw [hp c hpc] at hname
  cases hname

theorem exponentLength_delimited (h : Delimited rest) : exponentLength rest = 0 := by
  cases rest with
  | nil => rfl
  | cons c rest =>
    simp [exponentLength, h.eq_false (fun _ => isNamePart_of_isExponentMark) c rfl]

theorem exponentLength_scaled (n : Numeral) (h : Delimited rest) :
    exponentLength (n.scaled ++ rest) = n.scaled.length := by
  unfold Numeral.scaled
  split
  · exact exponentLength_delimited h
  · next hne =>
    obtain ⟨d, x, hdx, hd, hx⟩ := exists_cons_of_digits (fun _ => n.isDigit_exponent) hne
    have hlen := exponentDigitsLength_append hd hx
      (h.eq_false fun _ => isNamePart_of_isNumeralPart) 2
    rw [hdx]
    cases n.negative
    · exact hlen.trans (by simp; omega)
    · exact hlen.trans (by simp; omega)

/-- Neither a sign nor a mark of an exponent goes on a run of digits. -/
theorem head?_scaled (n : Numeral) (h : Delimited rest) :
    ∀ c ∈ (n.scaled ++ rest).head?, isNumeralPart c = false ∧ c ≠ '.' := by
  intro c hc
  unfold Numeral.scaled at hc
  split at hc
  · exact ⟨h.eq_false (fun _ => isNamePart_of_isNumeralPart) c hc, (h c hc).2⟩
  · obtain rfl := Option.some.inj hc
    exact ⟨rfl, by decide⟩

end

/-! ## Cuts -/

section

variable {rest : List Char}

/-- The decimal digits of a number are cut as one integer literal. -/
theorem cut_decimalDigits (n : Nat) (h : Delimited rest) :
    cut (decimalDigits n ++ rest) = ⟨.decimalInteger, decimalDigits n⟩ :: cut rest := by
  obtain ⟨d, ds, hdigits, hd, hds⟩ :=
    exists_cons_of_digits (fun _ => isDigit_of_mem_decimalDigits) (decimalDigits_ne_nil n)
  rw [hdigits]
  refine cut_cons ?_
  rw [measure_decimal hd, measureNumeral_append hds, exponentLength_delimited h]
  · rfl
  · exact fun c hc => ⟨h.eq_false (fun _ => isNamePart_of_isNumeralPart) c hc, (h c hc).2⟩
  · exact isRadixMark_head?_append hds (h.eq_false fun _ => isNamePart_of_isRadixMark)

/-- A numeral is cut as one float literal. -/
theorem cut_numeral (n : Numeral) (h : Delimited rest) :
    cut (n.chars ++ rest) = ⟨.float, n.chars⟩ :: cut rest := by
  have hend := head?_scaled n h
  obtain ⟨d, ds, hwhole, hd, hds⟩ := exists_cons_of_digits (fun _ => n.isDigit_whole) n.whole_ne_nil
  have hchars : n.chars = d :: (ds ++ n.pointed ++ n.scaled) := by rw [Numeral.chars, hwhole]; rfl
  rw [hchars]
  refine cut_cons ?_
  rw [measure_decimal hd]
  · unfold Numeral.pointed
    split
    · next hf =>
      -- Without a fraction there is an exponent.
      have hx : n.scaled.length ≠ 0 := by
        simp [Numeral.scaled, n.marked.resolve_left fun hne => hne hf]
      rw [List.append_nil, List.append_assoc, measureNumeral_append hds hend,
        exponentLength_scaled n h, if_neg hx, List.length_append]
    · next hf =>
      obtain ⟨f, fs, hfraction, hf, hfs⟩ := exists_cons_of_digits (fun _ => n.isDigit_fraction) hf
      have hlen := fractionLength_append hf hfs fun c hc => (hend c hc).1
      have hdrop : (f :: (fs ++ (n.scaled ++ rest))).drop (fs.length + 1) = n.scaled ++ rest :=
        List.drop_left
      have hne : ¬fs.length + 1 = 0 := Nat.succ_ne_zero _
      rw [hfraction, List.append_assoc, List.append_assoc, List.cons_append, List.cons_append,
        measureNumeral_point hds, hlen, hdrop, exponentLength_scaled n h, if_neg fun h => hne h.1]
      simp
      omega
  · rw [List.append_assoc, List.append_assoc]
    refine isRadixMark_head?_append hds ?_
    unfold Numeral.pointed
    split
    · next hf =>
      rw [Numeral.scaled, if_neg (n.marked.resolve_left fun hne => hne hf)]
      rintro _ ⟨⟩
      rfl
    · rintro _ ⟨⟩
      rfl

end

end Lexeme

namespace Literal

/-! ## Readings -/

section

variable {ds : List Char}

/-- Digits without separators are a numeral without faults. -/
theorem digitsOf_digits (hds : ∀ c ∈ ds, '0' ≤ c ∧ c ≤ '9') (hne : ds ≠ []) :
    digitsOf 10 false ds = .ok ds :=
  digitsOf_eq_ok_iff.2 ⟨.self hne, fun c hc => isDigitOf_ten (hds c hc)⟩

theorem optionalDigits_digits (hds : ∀ c ∈ ds, '0' ≤ c ∧ c ≤ '9') : optionalDigits ds = .ok ds := by
  unfold optionalDigits
  split
  · next h => rw [List.isEmpty_iff.1 h]
  · next h => exact digitsOf_digits hds (by simpa using h)

end

/-- The decimal digits of a number are read as the number. -/
theorem decimalInteger_decimalDigits (n : Nat) : decimalInteger (decimalDigits n) = .ok n := by
  have hdigits := digitsOf_digits (fun _ => isDigit_of_mem_decimalDigits) (decimalDigits_ne_nil n)
  have hzeros : ¬((decimalDigits n).head? = some '0' ∧ (decimalDigits n).any (· ≠ '0')) := by
    rintro ⟨hhead, hany⟩
    by_cases hn : n = 0
    · subst hn
      cases hany
    · exact head?_decimalDigits hn hhead
  unfold decimalInteger
  rw [hdigits]
  change (if _ then _ else _) = _
  rw [if_neg hzeros, integerOfDigits_eq (.self (decimalDigits_ne_nil n))
    fun c hc => isDigitOf_ten (isDigit_of_mem_decimalDigits hc), numeralValue_decimalDigits]

/-! ## Floats in their parts -/

section

variable {u x w p : List Char}

/-- A text divides at the mark of its exponent, -/
theorem mantissa_append (hu : ∀ c ∈ u, isExponentMark c = false)
    (hx : ∀ c ∈ x.head?, isExponentMark c) : mantissa (u ++ x) = u :=
  Lexeme.takeWhile_run (by simpa using hu) (by simpa using hx)

theorem scale_append (hu : ∀ c ∈ u, isExponentMark c = false)
    (hx : ∀ c ∈ x.head?, isExponentMark c) : scale (u ++ x) = x :=
  Lexeme.dropWhile_run (by simpa using hu) (by simpa using hx)

/-- and a mantissa at its point. -/
theorem whole_append (hw : ∀ c ∈ w, c ≠ '.') (hp : ∀ c ∈ p.head?, c = '.') :
    whole (w ++ p) = w :=
  Lexeme.takeWhile_run (by simpa using hw) (by simpa using hp)

theorem fraction_append (hw : ∀ c ∈ w, c ≠ '.') (hp : ∀ c ∈ p.head?, c = '.') :
    fraction (w ++ p) = p.drop 1 := by
  rw [fraction, Lexeme.dropWhile_run (by simpa using hw) (by simpa using hp)]

theorem ne_point_of_isDigitOf {c : Char} (h : isDigitOf 10 c) : c ≠ '.' := by
  rintro rfl
  cases h

theorem not_isExponentMark_of_isDigitOf {c : Char} (h : isDigitOf 10 c) :
    isExponentMark c = false := by
  rw [Bool.eq_false_iff]
  intro hm
  rcases Lexeme.isExponentMark_iff.1 hm with rfl | rfl <;> cases h

/-- The parts of a float are read each for itself. -/
theorem readDecimal?_append (hw : ∀ c ∈ w, isDigitOf 10 c) (hp : ∀ c ∈ p.head?, c = '.')
    (hf : ∀ c ∈ p.drop 1, isDigitOf 10 c) (hx : ∀ c ∈ x.head?, isExponentMark c) :
    readDecimal? (w ++ p ++ x) =
      (do let digits ← readNumeral? 10 (w ++ p.drop 1)
          let exponent ← readExponent? x
          return ⟨digits, exponent - (p.drop 1).length⟩) := by
  have hmark : ∀ c ∈ w ++ p, isExponentMark c = false := by
    intro c hc
    rcases List.mem_append.1 hc with hc | hc
    · exact not_isExponentMark_of_isDigitOf (hw c hc)
    cases p with
    | nil => cases hc
    | cons d f =>
      obtain rfl := hp d rfl
      rcases List.mem_cons.1 hc with rfl | hc
      · rfl
      · exact not_isExponentMark_of_isDigitOf (hf c hc)
  have hpoint : ∀ c ∈ w, c ≠ '.' := fun c hc => ne_point_of_isDigitOf (hw c hc)
  rw [readDecimal?, mantissa_append hmark hx, scale_append hmark hx, whole_append hpoint hp,
    fraction_append hpoint hp]

end

/-! ## Numerals -/

section

variable (n : Numeral)

theorem isDigitOf_whole : ∀ c ∈ n.whole, isDigitOf 10 c :=
  fun _ hc => isDigitOf_ten (n.isDigit_whole hc)

theorem isDigitOf_fraction : ∀ c ∈ n.fraction, isDigitOf 10 c :=
  fun _ hc => isDigitOf_ten (n.isDigit_fraction hc)

/-- Up to its exponent a numeral has no mark of one, -/
theorem not_isExponentMark_of_mem : ∀ c ∈ n.whole ++ n.pointed, isExponentMark c = false := by
  intro c hc
  rcases List.mem_append.1 hc with hc | hc
  · exact not_isExponentMark_of_isDigitOf (isDigitOf_whole n c hc)
  · unfold Numeral.pointed at hc
    split at hc
    · cases hc
    · rcases List.mem_cons.1 hc with rfl | hc
      · rfl
      · exact not_isExponentMark_of_isDigitOf (isDigitOf_fraction n c hc)

/-- which its exponent starts with. -/
theorem isExponentMark_head?_scaled : ∀ c ∈ n.scaled.head?, isExponentMark c := by
  unfold Numeral.scaled
  split
  · rintro _ ⟨⟩
  · rintro _ ⟨⟩
    rfl

theorem exponentDigits_scaled : exponentDigits n.scaled = .ok n.scaled := by
  unfold Numeral.scaled
  split
  · rfl
  · next h =>
    have hdigits := digitsOf_digits (fun _ => n.isDigit_exponent) h
    cases n.negative
    · simp only [Bool.false_eq_true, if_false, exponentDigits, hdigits]
      rfl
    · simp only [if_true, exponentDigits, hdigits]
      rfl

/-- The exponent is read with its sign, and none as zero. -/
theorem readExponent?_scaled :
    readExponent? n.scaled = some (Double.signed n.negative (numeralValue 10 n.exponent)) := by
  unfold Numeral.scaled
  split
  · next h =>
    rw [h]
    cases n.negative <;> rfl
  · next h =>
    have hdigits := readNumeral?_eq (fun _ hc => isDigitOf_ten (n.isDigit_exponent hc)) h
    cases n.negative
    · simp only [Bool.false_eq_true, if_false, readExponent?, hdigits]
      rfl
    · simp only [if_true, readExponent?, hdigits]
      rfl

/-- A numeral without separators is itself, with a point. -/
theorem floatDigits_numeral :
    floatDigits n.chars = .ok (n.whole ++ '.' :: n.fraction ++ n.scaled) := by
  have hmantissa : mantissa n.chars = n.whole ++ n.pointed :=
    mantissa_append (not_isExponentMark_of_mem n) (isExponentMark_head?_scaled n)
  have hscale : scale n.chars = n.scaled :=
    scale_append (not_isExponentMark_of_mem n) (isExponentMark_head?_scaled n)
  have hpoint : ∀ c ∈ n.whole, c ≠ '.' := fun c hc => ne_point_of_isDigitOf (isDigitOf_whole n c hc)
  have hpointed : ∀ c ∈ n.pointed.head?, c = '.' := by
    unfold Numeral.pointed
    split <;> simp
  have hfraction : n.pointed.drop 1 = n.fraction := by
    unfold Numeral.pointed
    split
    · next hf => rw [hf]; rfl
    · rfl
  rw [floatDigits, hmantissa, hscale, whole_append hpoint hpointed, fraction_append hpoint hpointed,
    hfraction, optionalDigits_digits fun _ => n.isDigit_whole,
    optionalDigits_digits fun _ => n.isDigit_fraction, exponentDigits_scaled]
  rfl

end

/-- The value of a float is the decimal that is left without its separators, rounded. -/
theorem decimalFloat_eq_ok_iff {cs : List Char} {x : Double} :
    decimalFloat cs = .ok x ↔
      ∃ ds d, floatDigits cs = .ok ds ∧ readDecimal? ds = some d ∧ d.toDouble = x := by
  constructor
  · intro h
    obtain ⟨ds, hdigits, h⟩ := exists_of_bind_eq_ok h
    split at h
    · next d hd => exact ⟨ds, d, hdigits, hd, Except.ok.inj h⟩
    · cases h
  · rintro ⟨ds, d, hdigits, hread, rfl⟩
    rw [decimalFloat, hdigits]
    dsimp only [bind, Except.bind]
    rw [hread]

/-- A numeral is read as its value. -/
theorem decimalFloat_numeral (n : Numeral) : decimalFloat n.chars = .ok n.value.toDouble := by
  have hdigits : ∀ c ∈ n.whole ++ n.fraction, isDigitOf 10 c :=
    List.forall_mem_append.2 ⟨isDigitOf_whole n, isDigitOf_fraction n⟩
  have hread : readDecimal? (n.whole ++ '.' :: n.fraction ++ n.scaled) = some n.value := by
    have hpoint : ∀ c ∈ ('.' :: n.fraction).head?, c = '.' := by simp
    rw [readDecimal?_append (isDigitOf_whole n) hpoint (isDigitOf_fraction n)
      (isExponentMark_head?_scaled n), readExponent?_scaled, List.drop_succ_cons, List.drop_zero,
      readNumeral?_eq hdigits (List.append_ne_nil_of_left_ne_nil n.whole_ne_nil _)]
    rfl
  exact decimalFloat_eq_ok_iff.2 ⟨_, _, floatDigits_numeral n, hread, rfl⟩

end Literal

end Calculator
