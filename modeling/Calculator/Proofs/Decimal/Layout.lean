import Calculator.Decimal.Layout
import Calculator.Proofs.Decimal.Shortest
import Calculator.Proofs.Digits

/-!
# Numerals of layouts

A numeral is a decimal text in its parts. A layout that marks integral numbers and writes every
sign of an exponent writes such numerals.

* `Numeral`: digits, perhaps a point with digits after it, perhaps an exponent with its sign.
* `Numeral.chars`, `Numeral.value`: its text and the decimal that it denotes.
* `Layout.exists_numeral`: the text of a decimal is that of a numeral that is read alike.
-/

namespace Calculator

/-- A decimal text in its parts. -/
structure Numeral where
  whole : List Char
  /-- The digits after the point. There is no point if there are none. -/
  fraction : List Char
  /-- Whether the exponent is negative. -/
  negative : Bool
  /-- The digits of the exponent. There is no exponent if there are none. -/
  exponent : List Char
  whole_ne_nil : whole ≠ []
  isDigit : ∀ c ∈ whole ++ fraction ++ exponent, '0' ≤ c ∧ c ≤ '9'
  /-- A numeral without point and exponent is none of a float. -/
  marked : fraction ≠ [] ∨ exponent ≠ []

namespace Numeral

/-- The point and the digits after it. -/
def pointed (n : Numeral) : List Char := if n.fraction = [] then [] else '.' :: n.fraction

/-- The exponent with its mark and its sign. -/
def scaled (n : Numeral) : List Char :=
  if n.exponent = [] then [] else 'e' :: (if n.negative then '-' else '+') :: n.exponent

/-- The text of the numeral. -/
def chars (n : Numeral) : List Char := n.whole ++ n.pointed ++ n.scaled

/-- The decimal that the numeral denotes. -/
def value (n : Numeral) : Decimal :=
  ⟨numeralValue 10 (n.whole ++ n.fraction),
    Double.signed n.negative (numeralValue 10 n.exponent) - n.fraction.length⟩

/-- A numeral without exponent. -/
def plain (whole fraction : List Char) (hw : whole ≠ []) (hf : fraction ≠ [])
    (h : ∀ c ∈ whole ++ fraction, '0' ≤ c ∧ c ≤ '9') : Numeral where
  whole := whole
  fraction := fraction
  negative := false
  exponent := []
  whole_ne_nil := hw
  isDigit c hc := h c (by rwa [List.append_nil] at hc)
  marked := .inl hf

section

variable {whole fraction : List Char} {hw : whole ≠ []} {hf : fraction ≠ []}
  {h : ∀ c ∈ whole ++ fraction, '0' ≤ c ∧ c ≤ '9'}

theorem chars_plain : (plain whole fraction hw hf h).chars = whole ++ '.' :: fraction := by
  simp [plain, chars, pointed, scaled, hf]

theorem value_plain : (plain whole fraction hw hf h).value =
    ⟨numeralValue 10 (whole ++ fraction), -fraction.length⟩ := by
  simp [plain, value, numeralValue, Double.signed]

end

end Numeral

namespace Layout

theorem isDigit_of_mem_zeros {k : Nat} {c : Char} (h : c ∈ zeros k) : '0' ≤ c ∧ c ≤ '9' := by
  obtain rfl := List.eq_of_mem_replicate h
  decide

theorem numeralValue_zeros (k : Nat) : numeralValue 10 (zeros k) = 0 := by
  induction k with
  | zero => rfl
  | succ k ih => exact ih

/-- Zeros before a numeral do not count. -/
theorem numeralValue_zeros_append (k : Nat) (ds : List Char) :
    numeralValue 10 (zeros k ++ ds) = numeralValue 10 ds := by
  rw [numeralValue_append, numeralValue_zeros, Nat.zero_mul, Nat.zero_add]

/-- Zeros after a numeral are factors of ten. -/
theorem numeralValue_append_zeros (ds : List Char) (k : Nat) :
    numeralValue 10 (ds ++ zeros k) = numeralValue 10 ds * 10 ^ k := by
  rw [numeralValue_append, numeralValue_zeros, zeros, List.length_replicate, Nat.add_zero]

variable {layout : Layout}

section

variable {ds : List Char}

/-- Plain digits are those of a numeral without exponent that is read as the digits with theirs. -/
theorem exists_numeral_plain (hmark : layout.markIntegral) (hds : ds ≠ [])
    (hdigit : ∀ c ∈ ds, '0' ≤ c ∧ c ≤ '9') (e : Int) :
    ∃ n : Numeral, n.exponent = [] ∧ n.chars = layout.plain ds (e + ds.length - 1) ∧
      n.value.toDouble = Decimal.toDouble ⟨numeralValue 10 ds, e⟩ := by
  have hpos := List.length_pos_iff.2 hds
  unfold plain
  dsimp only
  split
  · next h =>
    -- Below one: a zero, the point, zeros up to the first digit.
    generalize hk : (-(e + ds.length - 1) - 1).toNat = k
    have hall : ∀ c ∈ zeros 1 ++ (zeros k ++ ds), '0' ≤ c ∧ c ≤ '9' := by
      simp only [List.mem_append]
      rintro c (hc | hc | hc)
      · exact isDigit_of_mem_zeros hc
      · exact isDigit_of_mem_zeros hc
      · exact hdigit c hc
    refine ⟨.plain (zeros 1) (zeros k ++ ds) nofun (by simp [hds]) hall, rfl,
      Numeral.chars_plain, ?_⟩
    rw [Numeral.value_plain, numeralValue_zeros_append, numeralValue_zeros_append]
    congr 2
    simp only [List.length_append, zeros, List.length_replicate]
    omega
  · next h =>
    generalize hk : (e + ds.length - 1).toNat + 1 = k
    split
    · next hlen =>
      -- Integral: zeros up to the point, and a zero after it.
      have hall : ∀ c ∈ (ds ++ zeros (k - ds.length)) ++ zeros 1, '0' ≤ c ∧ c ≤ '9' := by
        simp only [List.mem_append]
        rintro c ((hc | hc) | hc)
        · exact hdigit c hc
        · exact isDigit_of_mem_zeros hc
        · exact isDigit_of_mem_zeros hc
      refine ⟨.plain (ds ++ zeros (k - ds.length)) (zeros 1) (by simp [hds]) nofun hall, rfl, ?_,
        ?_⟩
      · exact Numeral.chars_plain
      · have he : -((zeros 1).length : Int) = e - (k - ds.length + 1 : Nat) := by
          simp only [zeros, List.length_replicate]
          omega
        rw [Numeral.value_plain, numeralValue_append_zeros, numeralValue_append_zeros,
          Nat.mul_assoc, ← Nat.pow_add, he, Decimal.toDouble_mul_ten_pow]
    · next hlen =>
      have hall : ∀ c ∈ ds.take k ++ ds.drop k, '0' ≤ c ∧ c ≤ '9' := by
        rwa [List.take_append_drop]
      refine ⟨.plain (ds.take k) (ds.drop k) ?_ ?_ hall, rfl, Numeral.chars_plain, ?_⟩
      · simp [hds]; omega
      · simp; omega
      · rw [Numeral.value_plain, List.take_append_drop, List.length_drop]
        congr 2
        omega

/-- Digits with an exponent are those of a numeral that is read alike. -/
theorem exists_numeral_scientific (hplus : layout.plusSign) (hds : ds ≠ [])
    (hdigit : ∀ c ∈ ds, '0' ≤ c ∧ c ≤ '9') (e : Int) :
    ∃ n : Numeral, n.chars = layout.scientific ds (e + ds.length - 1) ∧
      n.value.toDouble = Decimal.toDouble ⟨numeralValue 10 ds, e⟩ := by
  have hpos := List.length_pos_iff.2 hds
  generalize hE : e + ds.length - 1 = E
  unfold scientific
  dsimp only
  generalize hk : layout.exponentWidth - (decimalDigits E.natAbs).length = k
  have hall : ∀ c ∈ ds.take 1 ++ ds.drop 1 ++ (zeros k ++ decimalDigits E.natAbs),
      '0' ≤ c ∧ c ≤ '9' := by
    rw [List.take_append_drop]
    simp only [List.mem_append]
    rintro c (hc | hc | hc)
    · exact hdigit c hc
    · exact isDigit_of_mem_zeros hc
    · exact isDigit_of_mem_decimalDigits hc
  refine ⟨⟨ds.take 1, ds.drop 1, E < 0, zeros k ++ decimalDigits E.natAbs, by simp [hds], hall,
    .inr (by simp [decimalDigits_ne_nil])⟩, ?_, ?_⟩
  · simp only [Numeral.chars, Numeral.pointed, Numeral.scaled, List.drop_eq_nil_iff,
      List.append_eq_nil_iff, decimalDigits_ne_nil, and_false, if_false, hplus, if_true,
      decide_eq_true_eq, List.append_assoc, List.cons_append]
    congr 3
    split <;> rfl
  · rw [Numeral.value]
    dsimp only
    rw [List.take_append_drop, numeralValue_zeros_append, numeralValue_decimalDigits,
      List.length_drop, Double.signed_natAbs]
    congr 2
    omega

end

/-- **The text of a decimal.** A layout that marks integral numbers and writes every sign of an
exponent writes a numeral that is read as the decimal is. -/
theorem exists_numeral (hmark : layout.markIntegral) (hplus : layout.plusSign) (d : Decimal) :
    ∃ n : Numeral, n.chars = layout.decimalText d ∧ n.value.toDouble = d.toDouble := by
  have hdigits : ∀ c ∈ decimalDigits d.digits, '0' ≤ c ∧ c ≤ '9' :=
    fun c hc => isDigit_of_mem_decimalDigits hc
  have hne := decimalDigits_ne_nil d.digits
  have hd : d = ⟨numeralValue 10 (decimalDigits d.digits), d.exponent⟩ := by
    rw [numeralValue_decimalDigits]
  unfold decimalText
  dsimp only
  split
  · obtain ⟨n, -, hn, hv⟩ := exists_numeral_plain hmark hne hdigits d.exponent
    exact ⟨n, hn, by rw [hv, ← hd]⟩
  · obtain ⟨n, hn, hv⟩ := exists_numeral_scientific hplus hne hdigits d.exponent
    exact ⟨n, hn, by rw [hv, ← hd]⟩

end Layout

end Calculator
