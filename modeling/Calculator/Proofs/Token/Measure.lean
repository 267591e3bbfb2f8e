import Calculator.Token.Lexeme

/-!
# Measures

How far the parts of literals go, by the characters that they are made of and the one after them.

* `takeWhile_run`, `dropWhile_run`, `runLength_append`: a run ends where its property does.
* `exists_run`, `run_unique`: a text is a run and what follows it, in one way only.
* `fractionLength_append`, `exponentDigitsLength_append`: the digits after a point or a mark.
* `measure_decimal`, `measureNumeral_append`, `measureNumeral_point`: literals that start with a
  digit.
-/

namespace Calculator

/-- A digit is no character that is none. -/
theorem ne_of_isDigit {c d : Char} (hc : '0' ≤ c ∧ c ≤ '9') (hd : ¬('0' ≤ d ∧ d ≤ '9')) :
    c ≠ d := by
  rintro rfl
  exact hd hc

namespace Lexeme

/-! ## Character classes -/

section

variable {c : Char}

theorem isDigit_iff : isDigit c ↔ '0' ≤ c ∧ c ≤ '9' := decide_eq_true_iff

theorem isNumeralPart_of_isDigit (h : isDigit c) : isNumeralPart c := by
  rw [isNumeralPart, h]
  rfl

theorem isNamePart_of_isNumeralPart (h : isNumeralPart c) : isNamePart c := by
  simp only [isNumeralPart, Bool.or_eq_true] at h
  simp only [isNamePart, isNameStart, Bool.or_eq_true]
  exact h.imp_right .inr

/-- The codes of the characters of names. -/
theorem toNat_of_isNamePart (h : isNamePart c) : 48 ≤ c.toNat ∧ c.toNat ≤ 122 := by
  simp only [isNamePart, isNameStart, isLetter, isDigit, Bool.or_eq_true, decide_eq_true_eq] at h
  rcases h with ⟨hge, hle⟩ | (⟨hge, hle⟩ | ⟨hge, hle⟩) | rfl
  · have hge : 48 ≤ c.toNat := hge
    have hle : c.toNat ≤ 57 := hle
    omega
  · have hge : 97 ≤ c.toNat := hge
    have hle : c.toNat ≤ 122 := hle
    omega
  · have hge : 65 ≤ c.toNat := hge
    have hle : c.toNat ≤ 90 := hle
    omega
  · decide

theorem isExponentMark_iff : Literal.isExponentMark c ↔ c = 'e' ∨ c = 'E' := decide_eq_true_iff

theorem isNamePart_of_isExponentMark (h : Literal.isExponentMark c) : isNamePart c := by
  rcases isExponentMark_iff.1 h with rfl | rfl <;> rfl

theorem isNumeralPart_of_isExponentMark (h : Literal.isExponentMark c) :
    isNumeralPart c = false := by
  rcases isExponentMark_iff.1 h with rfl | rfl <;> rfl

theorem isRadixMark_iff : isRadixMark c ↔ c ∈ ['x', 'X', 'o', 'O', 'b', 'B'] :=
  List.contains_iff_mem

theorem isNamePart_of_isRadixMark (h : isRadixMark c) : isNamePart c := by
  have hc := isRadixMark_iff.1 h
  simp only [List.mem_cons, List.not_mem_nil, or_false] at hc
  rcases hc with rfl | rfl | rfl | rfl | rfl | rfl <;> rfl

theorem isRadixMark_of_isNumeralPart (h : isNumeralPart c) : isRadixMark c = false := by
  rw [Bool.eq_false_iff]
  intro hmark
  have hc := isRadixMark_iff.1 hmark
  simp only [List.mem_cons, List.not_mem_nil, or_false] at hc
  rcases hc with rfl | rfl | rfl | rfl | rfl | rfl <;> cases h

end

/-! ## Runs -/

section

variable {p : Char → Bool} {ds rest : List Char}

/-- A run ends where its property does. -/
theorem takeWhile_run (hds : ∀ c ∈ ds, p c) (hrest : ∀ c ∈ rest.head?, p c = false) :
    (ds ++ rest).takeWhile p = ds := by
  rw [List.takeWhile_append_of_pos hds]
  cases rest with
  | nil => simp
  | cons c rest => simp [hrest c rfl]

theorem dropWhile_run (hds : ∀ c ∈ ds, p c) (hrest : ∀ c ∈ rest.head?, p c = false) :
    (ds ++ rest).dropWhile p = rest := by
  rw [List.dropWhile_append_of_pos hds]
  cases rest with
  | nil => rfl
  | cons c rest => simp [hrest c rfl]

theorem runLength_append (hds : ∀ c ∈ ds, p c) (hrest : ∀ c ∈ rest.head?, p c = false) :
    runLength p (ds ++ rest) = ds.length := by
  rw [runLength, takeWhile_run hds hrest]

/-- A run goes at least as far as its property is known. -/
theorem le_runLength_append (hds : ∀ c ∈ ds, p c) (rest : List Char) :
    ds.length ≤ runLength p (ds ++ rest) := by
  rw [runLength, List.takeWhile_append_of_pos hds, List.length_append]
  exact Nat.le_add_right _ _

/-- A text is a run and what follows it in one way only. -/
theorem run_unique {ds' rest' : List Char} (hds : ∀ c ∈ ds, p c)
    (hrest : ∀ c ∈ rest.head?, p c = false) (hds' : ∀ c ∈ ds', p c)
    (hrest' : ∀ c ∈ rest'.head?, p c = false) (heq : ds ++ rest = ds' ++ rest') :
    ds = ds' ∧ rest = rest' := by
  have hlength := runLength_append hds hrest
  rw [heq, runLength_append hds' hrest'] at hlength
  exact List.append_inj heq hlength.symm

/-- A text is a run and what follows it. -/
theorem exists_run (p : Char → Bool) (cs : List Char) :
    ∃ ds rest, cs = ds ++ rest ∧ (∀ c ∈ ds, p c) ∧ ∀ c ∈ rest.head?, p c = false := by
  refine ⟨cs.takeWhile p, cs.dropWhile p, List.takeWhile_append_dropWhile.symm, ?_, ?_⟩
  · exact fun c hc => List.all_eq_true.1 List.all_takeWhile c hc
  · intro c hc
    have := List.head?_dropWhile_not p cs
    rw [Option.mem_def.1 hc] at this
    exact this

/-! ## Literals -/

variable {d : Char}

/-- The fraction is as long as its digits. -/
theorem fractionLength_append (hd : isDigit d) (hds : ∀ c ∈ ds, isNumeralPart c)
    (hrest : ∀ c ∈ rest.head?, isNumeralPart c = false) :
    fractionLength (d :: (ds ++ rest)) = ds.length + 1 := by
  rw [fractionLength, if_pos hd, runLength_append hds hrest, Nat.add_comm]

/-- The exponent is as long as its digits, with what stands before them. -/
theorem exponentDigitsLength_append (hd : isDigit d) (hds : ∀ c ∈ ds, isNumeralPart c)
    (hrest : ∀ c ∈ rest.head?, isNumeralPart c = false) (before : Nat) :
    exponentDigitsLength before (d :: (ds ++ rest)) = before + 1 + ds.length := by
  rw [exponentDigitsLength, if_pos hd, runLength_append hds hrest]

/-- The digits of an exponent may follow its mark directly, -/
theorem exponentLength_unsigned {m : Char} (hm : Literal.isExponentMark m)
    (hd : ¬(d = '+' ∨ d = '-')) (cs : List Char) :
    exponentLength (m :: d :: cs) = exponentDigitsLength 1 (d :: cs) := by
  unfold exponentLength
  dsimp only
  rw [if_pos hm]
  split
  · next h => cases h; exact absurd (.inl rfl) hd
  · next h => cases h; exact absurd (.inr rfl) hd
  · rfl

/-- or after a sign. -/
theorem exponentLength_sign {m : Char} (hm : Literal.isExponentMark m) (hd : d = '+' ∨ d = '-')
    (cs : List Char) : exponentLength (m :: d :: cs) = exponentDigitsLength 2 cs := by
  unfold exponentLength
  dsimp only
  rw [if_pos hm]
  rcases hd with rfl | rfl <;> rfl

/-- Digits before what is no point: an integer, or a float if an exponent follows. -/
theorem measureNumeral_append (hds : ∀ c ∈ ds, isNumeralPart c)
    (hrest : ∀ c ∈ rest.head?, isNumeralPart c = false ∧ c ≠ '.') :
    measureNumeral (ds ++ rest) =
      if exponentLength rest = 0 then (.decimalInteger, ds.length)
      else (.float, ds.length + exponentLength rest) := by
  unfold measureNumeral
  dsimp only
  rw [runLength_append hds fun c hc => (hrest c hc).1, List.drop_left]
  split
  · next after => exact absurd rfl (hrest '.' rfl).2
  · rfl

/-- Digits before a point: a float, but for the exception of a letter that begins no exponent. -/
theorem measureNumeral_point (hds : ∀ c ∈ ds, isNumeralPart c) (after : List Char) :
    measureNumeral (ds ++ '.' :: after) =
      if fractionLength after = 0 ∧ exponentLength (after.drop (fractionLength after)) = 0 ∧
          after.head?.any Literal.isExponentMark then
        (.pointBeforeMark, ds.length + 1)
      else
        (.float, ds.length + 1 + fractionLength after +
          exponentLength (after.drop (fractionLength after))) := by
  have hrun : runLength isNumeralPart (ds ++ '.' :: after) = ds.length :=
    runLength_append hds (by rintro _ ⟨⟩; rfl)
  unfold measureNumeral
  dsimp only
  rw [hrun, List.drop_left]
  rfl

/-- No digit or separator is a radix mark. -/
theorem isRadixMark_head?_append (hds : ∀ c ∈ ds, isNumeralPart c)
    (hrest : ∀ c ∈ rest.head?, isRadixMark c = false) :
    ∀ c ∈ (ds ++ rest).head?, isRadixMark c = false := by
  cases ds with
  | nil => exact hrest
  | cons d ds =>
    rintro _ ⟨⟩
    exact isRadixMark_of_isNumeralPart (hds d List.mem_cons_self)

theorem measure_name (hd : isNameStart d) (cs : List Char) :
    Lexeme.measure d cs = (.name, runLength isNamePart cs) := by
  have hdigit : isDigit d = false := by
    rw [Bool.eq_false_iff]
    intro hdigit
    obtain ⟨-, hle⟩ := isDigit_iff.1 hdigit
    have hle : d.toNat ≤ 57 := UInt32.le_iff_toNat_le.1 hle
    simp only [isNameStart, isLetter, Bool.or_eq_true, decide_eq_true_eq] at hd
    rcases hd with (⟨hge, -⟩ | ⟨hge, -⟩) | rfl
    · have hge : 97 ≤ d.toNat := UInt32.le_iff_toNat_le.1 hge
      omega
    · have hge : 65 ≤ d.toNat := UInt32.le_iff_toNat_le.1 hge
      omega
    · cases hdigit
  have hne : ∀ c, isNameStart c = false → d ≠ c := by
    rintro c hc rfl
    rw [hc] at hd
    cases hd
  have hblank : isBlank d = false := by
    simp [isBlank, hne ' ' rfl, hne '\t' rfl, hne '\r' rfl, hne '\n' rfl, hne '\x0c' rfl]
  simp [Lexeme.measure, hblank, hne '#' rfl, hdigit, hne '.' rfl, hd]

theorem measure_digit (hd : isDigit d) (cs : List Char) :
    Lexeme.measure d cs = measureDigit d cs := by
  have hblank : isBlank d = false := by simp [isBlank, ne_of_isDigit (isDigit_iff.1 hd)]
  have hcomment : d ≠ '#' := ne_of_isDigit (isDigit_iff.1 hd) (by decide)
  simp [Lexeme.measure, hblank, hcomment, hd]

/-- A digit before what is no radix mark begins a decimal literal. -/
theorem measure_decimal {cs : List Char} (hd : isDigit d)
    (hcs : ∀ c ∈ cs.head?, isRadixMark c = false) : Lexeme.measure d cs = measureNumeral cs := by
  have hmark : cs.head?.any isRadixMark = false := by
    cases cs with
    | nil => rfl
    | cons c cs => exact hcs c rfl
  simp [measure_digit hd, measureDigit, hmark]

end

end Lexeme

end Calculator
