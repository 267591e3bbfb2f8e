import Calculator.Proofs.Decimal.Leading
import Calculator.Proofs.Double.Operations
import Calculator.Proofs.Number.Text

/-!
# The notation of floats

A finite float is written in plain notation if it is zero or its size is from `10^-4` up to `10^16`,
and in scientific notation otherwise. The leading digit of the shortest decimal chooses between the
two, and the shortest decimal lies on the same side of both thresholds as the float itself.

* `IsPlain`, `IsScientific`: the texts of the two notations; no text belongs to both.
* `Layout.exists_plain_eq`, `Layout.exists_scientific_eq`: the texts that a layout writes.
* `Number.isPlain_leadingExponent_iff`: which notation is chosen.
* `Number.floatText_notation`: how floats are written.
-/

namespace Calculator

/-! ## Notations -/

/-- One digit or more. -/
def IsDigits (cs : List Char) : Prop := cs ≠ [] ∧ ∀ c ∈ cs, '0' ≤ c ∧ c ≤ '9'

/-- A minus sign, or nothing. -/
def IsMinus (cs : List Char) : Prop := cs = ['-'] ∨ cs = []

/-- The texts `-?D+\.D+`, where `D` is a digit. -/
inductive IsPlain : List Char → Prop
  | intro {sign whole fraction : List Char} (hs : IsMinus sign) (hw : IsDigits whole)
      (hf : IsDigits fraction) : IsPlain (sign ++ (whole ++ '.' :: fraction))

/-- The texts `D(\.D+)?` that neither begin nor end with a zero. -/
inductive IsMantissa : List Char → Prop
  | digit {d : Char} (hd : IsDigits [d]) (hfirst : d ≠ '0') : IsMantissa [d]
  | pointed {d : Char} {fraction : List Char} (hd : IsDigits [d]) (hfirst : d ≠ '0')
      (hf : IsDigits fraction) (hlast : fraction.getLast? ≠ some '0') :
      IsMantissa (d :: '.' :: fraction)

/-- The texts `[+-]DD`, and those of `[+-]DDD` that have no leading zero. -/
inductive IsExponent : List Char → Prop
  | intro {sign : Char} {ds : List Char} (hs : sign = '+' ∨ sign = '-') (hd : IsDigits ds)
      (hlength : ds.length = 2 ∨ ds.length = 3 ∧ ds.head? ≠ some '0') : IsExponent (sign :: ds)

/-- The texts `-?D(\.D+)?e[+-]DD+` whose mantissa neither begins nor ends with a zero, and whose
exponent has two digits, or three without padding. -/
inductive IsScientific : List Char → Prop
  | intro {sign mantissa exponent : List Char} (hs : IsMinus sign) (hm : IsMantissa mantissa)
      (he : IsExponent exponent) : IsScientific (sign ++ (mantissa ++ 'e' :: exponent))

section

variable {cs : List Char}

theorem IsDigits.not_mem {c : Char} (h : IsDigits cs) (hc : '9' < c) : c ∉ cs :=
  fun hmem => absurd (h.2 c hmem).2 (Char.not_le.2 hc)

theorem IsPlain.mem (h : IsPlain cs) : '.' ∈ cs := by
  cases h
  simp

theorem IsScientific.mem (h : IsScientific cs) : 'e' ∈ cs := by
  cases h
  simp

/-- Only scientific texts have an `e`. -/
theorem IsPlain.not_isScientific (h : IsPlain cs) : ¬IsScientific cs := by
  intro h'
  have hmem := h'.mem
  cases h with
  | @intro sign whole fraction hs hw hf =>
    have hsign : 'e' ∉ sign := by
      rcases hs with rfl | rfl
      · decide
      · decide
    simp [hsign, hw.not_mem, hf.not_mem] at hmem

end

theorem Magnitude.natCast_div_le_value {m : Magnitude} {a b : ℕ} (hb : 0 < b)
    (h : a * Double.unitsPerOne ≤ m.units * b) : (a / b : ℚ) ≤ m.value := by
  have hpow : (0 : ℚ) < 2 ^ unitPlaces := by positivity
  rw [value, div_le_div_iff₀ (Nat.cast_pos.2 hb) hpow, ← Double.natCast_unitsPerOne]
  exact_mod_cast h

/-! ## Layouts -/

theorem isDigits_decimalDigits (n : Nat) : IsDigits (decimalDigits n) :=
  ⟨decimalDigits_ne_nil n, fun _ hc => isDigit_of_mem_decimalDigits hc⟩

namespace Layout

variable {layout : Layout} {ds : List Char}

/-- A layout that marks integral numbers writes digits before and after the point. -/
theorem exists_plain_eq (hmark : layout.markIntegral) (hds : IsDigits ds) (exponent : Int) :
    ∃ whole fraction, IsDigits whole ∧ IsDigits fraction ∧
      layout.plain ds exponent = whole ++ '.' :: fraction := by
  obtain ⟨n, hnone, hn, -⟩ :=
    exists_numeral_plain hmark hds.1 hds.2 (exponent - ds.length + 1)
  have hexponent : exponent - ds.length + 1 + ds.length - 1 = exponent := by omega
  have hfraction : n.fraction ≠ [] := n.marked.resolve_right (not_not_intro hnone)
  refine ⟨n.whole, n.fraction, ⟨n.whole_ne_nil, fun _ => n.isDigit_whole⟩,
    ⟨hfraction, fun _ => n.isDigit_fraction⟩, ?_⟩
  rw [hexponent] at hn
  rw [← hn, Numeral.chars, Numeral.pointed, Numeral.scaled, if_neg hfraction, if_pos hnone,
    List.append_nil]

/-- The point stands after the first digit, if there are more. -/
theorem isMantissa (hds : IsDigits ds) (hfirst : ds.head? ≠ some '0')
    (hlast : ds.getLast? ≠ some '0') :
    IsMantissa (ds.take 1 ++ if ds.length ≤ 1 then [] else '.' :: ds.drop 1) := by
  obtain ⟨hne, hdigit⟩ := hds
  cases ds with
  | nil => exact absurd rfl hne
  | cons d rest =>
    have hd : IsDigits [d] := by
      refine ⟨nofun, fun c hc => hdigit c ?_⟩
      rw [List.mem_singleton.1 hc]
      exact List.mem_cons_self
    have hd0 : d ≠ '0' := fun h => hfirst (by rw [h, List.head?_cons])
    cases rest with
    | nil => exact .digit hd hd0
    | cons d' rest =>
      refine .pointed hd hd0 ⟨nofun, fun c hc => hdigit c (List.mem_cons_of_mem d hc)⟩ ?_
      rwa [List.getLast?_cons_cons] at hlast

/-- An exponent is padded to two digits, and has three at most. -/
theorem isExponent {sign : Char} {e : Nat} (hsign : sign = '+' ∨ sign = '-') (he : e < 1000) :
    IsExponent (sign :: (zeros (2 - (decimalDigits e).length) ++ decimalDigits e)) := by
  have hlength : (zeros (2 - (decimalDigits e).length)).length = 2 - (decimalDigits e).length :=
    List.length_replicate
  refine .intro hsign ⟨by simp [decimalDigits_ne_nil], ?_⟩ ?_
  · intro c hc
    rcases List.mem_append.1 hc with hc | hc
    · exact isDigit_of_mem_zeros hc
    · exact isDigit_of_mem_decimalDigits hc
  rw [List.length_append, hlength]
  rcases Nat.lt_or_ge 2 (decimalDigits e).length with h | h
  · right
    have hne : e ≠ 0 := by
      rintro rfl
      exact absurd h (by decide)
    have hmost := length_decimalDigits_le (k := 3) hne he
    have hnone : 2 - (decimalDigits e).length = 0 := by omega
    rw [hnone]
    exact ⟨by omega, head?_decimalDigits hne⟩
  · left
    omega

/-- A layout with signed exponents of two digits or more writes scientific texts, for digits that
neither begin nor end with a zero. -/
theorem exists_scientific_eq (hplus : layout.plusSign) (hwidth : layout.exponentWidth = 2)
    (hds : IsDigits ds) (hfirst : ds.head? ≠ some '0') (hlast : ds.getLast? ≠ some '0')
    {exponent : Int} (he : exponent.natAbs < 1000) :
    ∃ mantissa places, IsMantissa mantissa ∧ IsExponent places ∧
      layout.scientific ds exponent = mantissa ++ 'e' :: places := by
  obtain ⟨sign, hsign, heq⟩ : ∃ sign, (sign = '+' ∨ sign = '-') ∧
      (if exponent < 0 then ['-'] else if layout.plusSign then ['+'] else []) = [sign] := by
    rw [if_pos hplus]
    split
    · exact ⟨'-', .inr rfl, rfl⟩
    · exact ⟨'+', .inl rfl, rfl⟩
  refine ⟨_, _, isMantissa hds hfirst hlast, isExponent hsign he, ?_⟩
  rw [scientific, heq, hwidth]
  simp

end Layout

/-! ## The notation of a float -/

namespace Number

open Decimal

/-- The magnitude `10^16`, which is its own shortest decimal. -/
def scientificUpper : Magnitude :=
  ⟨10 ^ 16 * Double.unitsPerOne, by decide +kernel, by decide +kernel⟩

/-- The magnitude nearest to `10^-4`. It is greater than its shortest decimal, `10^-4`. -/
def scientificLower : Magnitude where
  units := roundToPrecision Double.unitsPerOne (10 ^ 4)
  keepsPrecision := keepsPrecision_roundToPrecision _ _
  lt_rangeEnd := by decide +kernel

theorem le_toRat_shortest_upper_iff (m : Magnitude) :
    (10 : ℚ) ^ scientificUpperExponent ≤ (shortest m.units).toRat ↔
      (10 : ℚ) ^ scientificUpperExponent ≤ m.value := by
  refine ten_zpow_le_toRat_shortest_iff scientificUpper (by decide +kernel) ?_ m
  have h := scientificUpper.natCast_div_le_value (a := 10 ^ 16) (b := 1) (by decide)
    (by decide +kernel)
  norm_num [scientificUpperExponent] at h ⊢
  exact h

theorem le_toRat_shortest_lower_iff (m : Magnitude) :
    (10 : ℚ) ^ scientificLowerExponent ≤ (shortest m.units).toRat ↔
      (10 : ℚ) ^ scientificLowerExponent ≤ m.value := by
  refine ten_zpow_le_toRat_shortest_iff scientificLower (by decide +kernel) ?_ m
  have h := scientificLower.natCast_div_le_value (a := 1) (b := 10 ^ 4) (by decide)
    (by decide +kernel)
  norm_num [scientificLowerExponent] at h ⊢
  exact h

/-- The exponent of the leading digit is that of a plain number if and only if the number is zero or
its size lies between the thresholds. -/
theorem isPlain_leadingExponent_iff (m : Magnitude) :
    layout.isPlain (shortest m.units).leadingExponent ↔
      m.value = 0 ∨ (10 : ℚ) ^ (-4 : ℤ) ≤ m.value ∧ m.value < 10 ^ (16 : ℤ) := by
  by_cases hm : m.units = 0
  · have hvalue : m.value = 0 := by rw [Magnitude.value, hm, Nat.cast_zero, zero_div]
    rw [hm]
    exact iff_of_true (by decide +kernel) (.inl hvalue)
  · have hvalue : m.value ≠ 0 := by
      rw [Magnitude.value]
      positivity
    have hd := digits_shortest_ne_zero hm
    simp only [layout, Bool.and_eq_true, decide_eq_true_eq, hvalue, false_or]
    rw [← not_le, le_leadingExponent_iff hd, le_leadingExponent_iff hd,
      le_toRat_shortest_lower_iff, le_toRat_shortest_upper_iff, not_le]
    rfl

section

variable {s : Bool} {m : Magnitude}

theorem toList_floatText (s : Bool) (m : Magnitude) : (floatText (.finite s m)).toList =
    (if s then ['-'] else []) ++ layout.decimalText (shortest m.units) := by
  rw [floatText, Layout.text, String.toList_ofList]
  cases s with
  | false => rfl
  | true => rfl

theorem isMinus_of_sign (s : Bool) : IsMinus (if s then ['-'] else []) := by
  cases s with
  | false => exact .inr rfl
  | true => exact .inl rfl

theorem isPlain_floatText (h : layout.isPlain (shortest m.units).leadingExponent) :
    IsPlain (floatText (.finite s m)).toList := by
  obtain ⟨whole, fraction, hw, hf, heq⟩ := @Layout.exists_plain_eq layout _ rfl
    (isDigits_decimalDigits (shortest m.units).digits) (shortest m.units).leadingExponent
  have htext : layout.decimalText (shortest m.units) = whole ++ '.' :: fraction :=
    (if_pos h).trans heq
  rw [toList_floatText, htext]
  exact .intro (isMinus_of_sign s) hw hf

theorem isScientific_floatText (h : ¬layout.isPlain (shortest m.units).leadingExponent) :
    IsScientific (floatText (.finite s m)).toList := by
  have hm : m.units ≠ 0 := by
    intro hm
    rw [hm] at h
    exact h (by decide +kernel)
  obtain ⟨mantissa, exponent, hmantissa, hexponent, heq⟩ := @Layout.exists_scientific_eq
    layout _ rfl rfl (isDigits_decimalDigits (shortest m.units).digits)
    (head?_decimalDigits (digits_shortest_ne_zero hm))
    (getLast?_decimalDigits (digits_shortest_mod_ten hm)) _ (natAbs_leadingExponent_shortest_lt hm)
  have htext : layout.decimalText (shortest m.units) = mantissa ++ 'e' :: exponent :=
    (if_neg h).trans heq
  rw [toList_floatText, htext]
  exact .intro (isMinus_of_sign s) hmantissa hexponent

/-- The sign bit is written, that of a zero too. -/
theorem head?_floatText : (floatText (.finite s m)).toList.head? = some '-' ↔ s := by
  obtain ⟨c, cs, hcs, hc⟩ := exists_head_text (v := .float (.finite false m)) rfl rfl
  rw [text, toList_floatText, if_neg Bool.false_ne_true, List.nil_append] at hcs
  rw [toList_floatText, hcs]
  cases s with
  | true => exact iff_of_true rfl rfl
  | false =>
    refine iff_of_false ?_ Bool.false_ne_true
    intro h
    obtain rfl := Option.some.inj h
    exact absurd hc (by decide)

end

/-- Zero, or of a size from `10^-4` up to `10^16`. -/
def InPlainRange (x : Double) : Prop :=
  x.toRat = 0 ∨ (10 : ℚ) ^ (-4 : ℤ) ≤ |x.toRat| ∧ |x.toRat| < 10 ^ (16 : ℤ)

/-- **The notation of floats.** A finite float is written in plain notation if it lies in the plain
range and in scientific notation otherwise, with a minus sign if its sign bit is set. So there is
always a point or an `e`, and no integer has the same text. -/
theorem floatText_notation (s : Bool) (m : Magnitude) :
    (IsPlain (floatText (.finite s m)).toList ↔ InPlainRange (.finite s m)) ∧
    (IsScientific (floatText (.finite s m)).toList ↔ ¬InPlainRange (.finite s m)) ∧
    ((floatText (.finite s m)).toList.head? = some '-' ↔ (Double.finite s m).signBit) ∧
    ('.' ∈ (floatText (.finite s m)).toList ∨ 'e' ∈ (floatText (.finite s m)).toList) ∧
    ∀ n : Int, (integer n).text ≠ floatText (.finite s m) := by
  have hrange : layout.isPlain (shortest m.units).leadingExponent ↔
      InPlainRange (.finite s m) := by
    rw [isPlain_leadingExponent_iff, InPlainRange, ← abs_eq_zero (a := Double.toRat _),
      Double.abs_toRat_finite]
  have hmark : '.' ∈ (floatText (.finite s m)).toList ∨ 'e' ∈ (floatText (.finite s m)).toList := by
    by_cases h : layout.isPlain (shortest m.units).leadingExponent
    · exact .inl (isPlain_floatText h).mem
    · exact .inr (isScientific_floatText h).mem
  refine ⟨⟨?_, ?_⟩, ⟨?_, ?_⟩, head?_floatText, hmark, ?_⟩
  · intro h
    by_contra hnot
    exact h.not_isScientific (isScientific_floatText (mt hrange.1 hnot))
  · intro h
    exact isPlain_floatText (hrange.2 h)
  · intro h hin
    exact (isPlain_floatText (hrange.2 hin)).not_isScientific h
  · intro h
    exact isScientific_floatText (mt hrange.1 h)
  · intro n hn
    rw [← hn] at hmark
    rcases hmark with h | h
    · exact absurd (isDigit_of_mem_integerText h) (by decide)
    · exact absurd (isDigit_of_mem_integerText h) (by decide)

end Number

end Calculator
