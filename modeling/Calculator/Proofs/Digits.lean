import Calculator.Digits

/-!
# Decimal digits

What the decimal numerals are made of.

* `isDigit_of_mem_decimalDigits`, `isDigit_of_isDigitOf_ten`: only of the digits from `0` to `9`.
* `numeralValue_append`: a numeral in two parts.
* `numeralValue_decimalDigits`: the decimal digits of a number denote it.
* `head?_decimalDigits`: they have no leading zero, but for zero itself.
* `lt_ten_pow_length`, `length_decimalDigits_le`: how many there are.
-/

namespace Calculator

theorem isDigit_decimalDigit (d : Nat) : '0' ≤ decimalDigit d ∧ decimalDigit d ≤ '9' := by
  have hall : ∀ k < 10, '0' ≤ Char.ofNat (48 + k) ∧ Char.ofNat (48 + k) ≤ '9' := by decide
  exact hall (d % 10) (Nat.mod_lt _ (by decide))

theorem isDigit_of_mem_paddedDigits {w n : Nat} {c : Char} (h : c ∈ paddedDigits w n) :
    '0' ≤ c ∧ c ≤ '9' := by
  induction w generalizing n with
  | zero =>
    obtain rfl := List.mem_singleton.1 h
    exact isDigit_decimalDigit n
  | succ w ih =>
    rcases List.mem_append.1 h with h | h
    · exact ih h
    · exact ih h

theorem isDigit_of_mem_decimalDigits {n : Nat} {c : Char} (h : c ∈ decimalDigits n) :
    '0' ≤ c ∧ c ≤ '9' := by
  unfold decimalDigits at h
  split at h
  · obtain rfl := List.mem_singleton.1 h
    decide
  · exact isDigit_of_mem_paddedDigits ((List.dropWhile_sublist _).subset h)

/-- An integer is written in digits, perhaps after a minus sign. -/
theorem isDigit_of_mem_integerText {n : Int} {c : Char} (h : c ∈ (integerText n).toList) :
    c = '-' ∨ '0' ≤ c ∧ c ≤ '9' := by
  rw [integerText, String.toList_ofList] at h
  split at h
  · exact (List.mem_cons.1 h).imp_right isDigit_of_mem_decimalDigits
  · exact .inr (isDigit_of_mem_decimalDigits h)

theorem toList_naturalText (n : Nat) : (naturalText n).toList = decimalDigits n := by
  simp [naturalText, integerText]

/-! ## What numerals denote -/

theorem digitValue?_decimalDigit (d : Nat) : digitValue? 10 (decimalDigit d) = some (d % 10) := by
  have hall : ∀ k < 10, digitValue? 10 (Char.ofNat (48 + k)) = some k := by decide
  exact hall (d % 10) (Nat.mod_lt _ (by decide))

theorem isDigitOf_ten {c : Char} (h : '0' ≤ c ∧ c ≤ '9') : isDigitOf 10 c := by
  have hlt : c.toNat - 48 < 10 := by
    have := UInt32.le_iff_toNat_le.1 h.2
    change c.toNat ≤ 57 at this
    omega
  simp [isDigitOf, digitValue?, asciiDigitValue?, h, hlt]

/-- Digits and letters are all that can be a digit of a base, -/
theorem of_isDigitOf {radix : Nat} {c : Char} (h : isDigitOf radix c) :
    '0' ≤ c ∧ c ≤ '9' ∨ 'a' ≤ c ∧ c ≤ 'z' ∨ 'A' ≤ c ∧ c ≤ 'Z' := by
  unfold isDigitOf digitValue? asciiDigitValue? at h
  split at h
  · next hc => exact .inl hc
  split at h
  · next hc => exact .inr (.inl hc)
  split at h
  · next hc => exact .inr (.inr hc)
  · cases h

/-- and in base ten no letter is one. -/
theorem isDigit_of_isDigitOf_ten {c : Char} (h : isDigitOf 10 c) : '0' ≤ c ∧ c ≤ '9' := by
  obtain ⟨v, hv⟩ := Option.isSome_iff_exists.1 h
  obtain ⟨hvalue, hlt⟩ := Option.filter_eq_some_iff.1 hv
  have hlt := of_decide_eq_true hlt
  unfold asciiDigitValue? at hvalue
  split at hvalue
  · assumption
  split at hvalue
  · next hc =>
    have hge : 97 ≤ c.toNat := hc.1
    have := Option.some.inj hvalue
    omega
  split at hvalue
  · next hc =>
    have hge : 65 ≤ c.toNat := hc.1
    have := Option.some.inj hvalue
    omega
  · cases hvalue

/-- A numeral that goes on after a number. -/
theorem foldl_numeralValue (radix n : Nat) (cs : List Char) :
    cs.foldl (fun n c => n * radix + (digitValue? radix c).getD 0) n =
      n * radix ^ cs.length + numeralValue radix cs := by
  unfold numeralValue
  induction cs generalizing n with
  | nil => simp
  | cons c cs ih =>
    rw [List.foldl_cons, List.foldl_cons, ih, ih (0 * radix + _), List.length_cons, Nat.pow_succ]
    simp only [Nat.zero_mul, Nat.zero_add, Nat.add_mul]
    ac_rfl

theorem numeralValue_append (radix : Nat) (cs ds : List Char) :
    numeralValue radix (cs ++ ds) =
      numeralValue radix cs * radix ^ ds.length + numeralValue radix ds := by
  rw [numeralValue, List.foldl_append, foldl_numeralValue]
  rfl

theorem length_paddedDigits (w n : Nat) : (paddedDigits w n).length = 2 ^ w := by
  induction w generalizing n with
  | zero => rfl
  | succ w ih => rw [paddedDigits, List.length_append, ih, ih, Nat.pow_succ, Nat.mul_two]

theorem numeralValue_paddedDigits (w n : Nat) :
    numeralValue 10 (paddedDigits w n) = n % 10 ^ 2 ^ w := by
  induction w generalizing n with
  | zero => simp [paddedDigits, numeralValue, digitValue?_decimalDigit]
  | succ w ih =>
    rw [paddedDigits, numeralValue_append, ih, ih, length_paddedDigits, Nat.pow_succ 2, Nat.mul_two,
      Nat.pow_add, Nat.mod_mul, Nat.mod_mod, Nat.add_comm, Nat.mul_comm]

/-- Leading zeros do not count. -/
theorem numeralValue_dropWhile_zero (cs : List Char) :
    numeralValue 10 (cs.dropWhile (· == '0')) = numeralValue 10 cs := by
  induction cs with
  | nil => rfl
  | cons c cs ih =>
    rw [List.dropWhile_cons]
    split
    · next h =>
      obtain rfl := eq_of_beq h
      exact ih
    · rfl

theorem lt_ten_pow_width (n : Nat) : n < 10 ^ 2 ^ ((n.log2 + 1).log2 + 1) :=
  calc n < 2 ^ (n.log2 + 1) := Nat.lt_log2_self
    _ ≤ 2 ^ 2 ^ ((n.log2 + 1).log2 + 1) :=
      Nat.pow_le_pow_right (by decide) (Nat.le_of_lt Nat.lt_log2_self)
    _ ≤ 10 ^ 2 ^ ((n.log2 + 1).log2 + 1) := Nat.pow_le_pow_left (by decide) _

/-- The decimal digits of a number denote it. -/
theorem numeralValue_decimalDigits (n : Nat) : numeralValue 10 (decimalDigits n) = n := by
  unfold decimalDigits
  split
  · next h => rw [h]; rfl
  · rw [numeralValue_dropWhile_zero, numeralValue_paddedDigits,
      Nat.mod_eq_of_lt (lt_ten_pow_width n)]

theorem decimalDigits_ne_nil (n : Nat) : decimalDigits n ≠ [] := by
  intro h
  have hn := numeralValue_decimalDigits n
  rw [h] at hn
  obtain rfl : 0 = n := hn
  cases h

/-- There is no leading zero, but for zero itself. -/
theorem head?_decimalDigits {n : Nat} (hn : n ≠ 0) : (decimalDigits n).head? ≠ some '0' := by
  rw [decimalDigits, if_neg hn]
  intro h
  have := List.head?_dropWhile_not (· == '0') (paddedDigits ((n.log2 + 1).log2 + 1) n)
  rw [h] at this
  cases this

/-! ## How many digits there are -/

theorem digitValue?_eq_some {c : Char} (h : '0' ≤ c ∧ c ≤ '9') :
    ∃ v < 10, digitValue? 10 c = some v ∧ (v = 0 ↔ c = '0') := by
  have hge : 48 ≤ c.toNat := h.1
  have hle : c.toNat ≤ 57 := h.2
  refine ⟨c.toNat - 48, by omega, ?_, ?_⟩
  · rw [digitValue?, asciiDigitValue?, if_pos h, Option.filter_some,
      if_pos (decide_eq_true (by omega))]
  · constructor
    · intro h0
      have hc : c.toNat = '0'.toNat := show c.toNat = 48 by omega
      rw [← Char.ofNat_toNat c, hc, Char.ofNat_toNat]
    · rintro rfl
      rfl

theorem numeralValue_cons (c : Char) (cs : List Char) :
    numeralValue 10 (c :: cs) =
      (digitValue? 10 c).getD 0 * 10 ^ cs.length + numeralValue 10 cs := by
  have h := numeralValue_append 10 [c] cs
  rw [List.singleton_append] at h
  rw [h, numeralValue, List.foldl_cons, List.foldl_nil, Nat.zero_mul, Nat.zero_add]

theorem numeralValue_lt_ten_pow {ds : List Char} (h : ∀ c ∈ ds, '0' ≤ c ∧ c ≤ '9') :
    numeralValue 10 ds < 10 ^ ds.length := by
  induction ds with
  | nil => decide
  | cons c cs ih =>
    obtain ⟨v, hv, hvalue, -⟩ := digitValue?_eq_some (h c List.mem_cons_self)
    have hrest := ih fun d hd => h d (List.mem_cons_of_mem c hd)
    rw [numeralValue_cons, hvalue, Option.getD_some, List.length_cons, Nat.pow_succ]
    have := Nat.mul_le_mul_right (10 ^ cs.length) (show v ≤ 9 by omega)
    omega

theorem lt_ten_pow_length (n : Nat) : n < 10 ^ (decimalDigits n).length := by
  have h := numeralValue_lt_ten_pow fun c hc => isDigit_of_mem_decimalDigits (n := n) hc
  rwa [numeralValue_decimalDigits] at h

theorem ten_pow_length_le {n : Nat} (hn : n ≠ 0) : 10 ^ ((decimalDigits n).length - 1) ≤ n := by
  have hvalue := numeralValue_decimalDigits n
  have hhead := head?_decimalDigits hn
  have hdigit := @isDigit_of_mem_decimalDigits n
  cases hds : decimalDigits n with
  | nil => exact absurd hds (decimalDigits_ne_nil n)
  | cons c cs =>
    rw [hds] at hvalue hhead hdigit
    obtain ⟨v, -, hv, hzero⟩ := digitValue?_eq_some (hdigit List.mem_cons_self)
    have hpos : 1 ≤ v := by
      refine Nat.pos_of_ne_zero fun h0 => hhead ?_
      rw [hzero.1 h0, List.head?_cons]
    rw [numeralValue_cons, hv, Option.getD_some] at hvalue
    have := Nat.mul_le_mul_right (10 ^ cs.length) hpos
    rw [List.length_cons, Nat.add_sub_cancel]
    omega

theorem length_decimalDigits_le {n k : Nat} (hn : n ≠ 0) (h : n < 10 ^ k) :
    (decimalDigits n).length ≤ k := by
  have hlt : 10 ^ ((decimalDigits n).length - 1) < 10 ^ k :=
    Nat.lt_of_le_of_lt (ten_pow_length_le hn) h
  have := (Nat.pow_lt_pow_iff_right (by decide)).1 hlt
  omega

/-- The last digit is a zero for multiples of ten only. -/
theorem getLast?_decimalDigits {n : Nat} (hn : n % 10 ≠ 0) :
    (decimalDigits n).getLast? ≠ some '0' := by
  intro h
  obtain ⟨ds, hds⟩ := List.getLast?_eq_some_iff.1 h
  have hvalue := numeralValue_decimalDigits n
  have hzero : numeralValue 10 ['0'] = 0 := rfl
  rw [hds, numeralValue_append, hzero, List.length_singleton] at hvalue
  omega

end Calculator
