import Calculator.Token.Literal

/-!
# Separators

The digits of a numeral are those that are left without its separators. They are its digits if
every separator stands between two of them.

* `Separated`: digits with single separators between them.
* `Literal.exists_of_bind_eq_ok`, `Literal.exists_of_bind_eq_error`: a reading in two steps.
* `Literal.digitsOf_eq_ok_iff`, `Literal.digitsOf_true_eq_ok_iff`: the numerals that have digits.
* `Literal.integerOfDigits_eq`: digits are an integer.
-/

namespace Calculator

/-- `cs` are the digits `ds`, with single separators between some of them. -/
inductive Separated : (ds cs : List Char) → Prop
  | single {d : Char} : Separated [d] [d]
  | next {d : Char} {ds cs : List Char} (h : Separated ds cs) : Separated (d :: ds) (d :: cs)
  | separator {d : Char} {ds cs : List Char} (h : Separated ds cs) :
    Separated (d :: ds) (d :: '_' :: cs)

section

variable {radix : Nat} {c : Char} {ds cs : List Char}

theorem ne_separator_of_isDigitOf (h : isDigitOf radix c) : c ≠ '_' := by
  rintro rfl
  cases h

namespace Separated

/-- Digits need no separators. -/
theorem self (h : ds ≠ []) : Separated ds ds := by
  induction ds with
  | nil => exact absurd rfl h
  | cons d ds ih =>
    cases ds with
    | nil => exact .single
    | cons e ds => exact .next (ih (List.cons_ne_nil e ds))

theorem digits_ne_nil (h : Separated ds cs) : ds ≠ [] := by
  cases h <;> exact List.cons_ne_nil _ _

theorem ne_nil (h : Separated ds cs) : cs ≠ [] := by
  cases h <;> exact List.cons_ne_nil _ _

/-- The first digit is not separated. -/
theorem head?_eq (h : Separated ds cs) : cs.head? = ds.head? := by
  cases h <;> rfl

theorem mem_of_mem (h : Separated ds cs) (hc : c ∈ cs) : c ∈ ds ∨ c = '_' := by
  induction h with
  | single => exact .inl hc
  | next _ ih =>
    rcases List.mem_cons.1 hc with rfl | hc
    · exact .inl List.mem_cons_self
    · exact (ih hc).imp_left (List.mem_cons_of_mem _)
  | separator _ ih =>
    rcases List.mem_cons.1 hc with rfl | hc
    · exact .inl List.mem_cons_self
    rcases List.mem_cons.1 hc with rfl | hc
    · exact .inr rfl
    · exact (ih hc).imp_left (List.mem_cons_of_mem _)

/-- Without the separators the digits are left. -/
theorem filter_eq (h : Separated ds cs) (hds : ∀ d ∈ ds, isDigitOf radix d) :
    cs.filter (· ≠ '_') = ds := by
  induction h with
  | single =>
    have hd := ne_separator_of_isDigitOf (hds _ List.mem_cons_self)
    simp [hd]
  | next _ ih =>
    obtain ⟨hd, hds⟩ := List.forall_mem_cons.1 hds
    rw [List.filter_cons_of_pos (by simpa using ne_separator_of_isDigitOf hd), ih hds]
  | separator _ ih =>
    obtain ⟨hd, hds⟩ := List.forall_mem_cons.1 hds
    rw [List.filter_cons_of_pos (by simpa using ne_separator_of_isDigitOf hd),
      List.filter_cons_of_neg (by decide), ih hds]

end Separated

namespace Literal

/-! ## Steps that may fail -/

/-- What has a value has steps with values, -/
theorem exists_of_bind_eq_ok {α β : Type} {x : Except LiteralFault α} {b : β}
    {f : α → Except LiteralFault β} (h : (x >>= f) = .ok b) : ∃ a, x = .ok a ∧ f a = .ok b := by
  cases x with
  | error fault => cases h
  | ok a => exact ⟨a, rfl, h⟩

/-- and what has a fault has a step with this fault. -/
theorem exists_of_bind_eq_error {α β : Type} {x : Except LiteralFault α} {fault : LiteralFault}
    {f : α → Except LiteralFault β} (h : (x >>= f) = .error fault) :
    x = .error fault ∨ ∃ a, x = .ok a ∧ f a = .error fault := by
  cases x with
  | error fault' =>
    cases h
    exact .inl rfl
  | ok a => exact .inr ⟨a, rfl, h⟩

/-! ## Digits of numerals -/

theorem firstFault?_cons (hc : isDigitOf radix c) (afterDigit : Bool) (cs : List Char) :
    firstFault? radix afterDigit (c :: cs) = firstFault? radix true cs := by
  rw [firstFault?, if_neg (ne_separator_of_isDigitOf hc), if_pos hc]

theorem firstFault?_of_separated (h : Separated ds cs) (hds : ∀ d ∈ ds, isDigitOf radix d)
    (afterDigit : Bool) : firstFault? radix afterDigit cs = none := by
  induction h generalizing afterDigit with
  | single =>
    rw [firstFault?_cons (hds _ List.mem_cons_self)]
    rfl
  | next _ ih =>
    obtain ⟨hd, hds⟩ := List.forall_mem_cons.1 hds
    rw [firstFault?_cons hd, ih hds]
  | separator _ ih =>
    obtain ⟨hd, hds⟩ := List.forall_mem_cons.1 hds
    rw [firstFault?_cons hd, firstFault?, if_pos rfl, if_pos rfl, ih hds]

/-- What has no fault after a digit goes on after any digit; what has none before its first digit
are digits with their separators. -/
theorem exists_separated (afterDigit : Bool) (cs : List Char)
    (h : firstFault? radix afterDigit cs = none) :
    ∃ ds, (∀ d ∈ ds, isDigitOf radix d) ∧
      if afterDigit then ∀ d, Separated (d :: ds) (d :: cs) else Separated ds cs := by
  fun_induction firstFault? radix afterDigit cs with
  | case1 => exact ⟨[], nofun, fun _ => .single⟩
  | case2 => cases h
  | case3 cs ih =>
    obtain ⟨ds, hds, hsep⟩ := ih h
    exact ⟨ds, hds, fun _ => .separator hsep⟩
  | case4 => cases h
  | case5 afterDigit c cs _ hc ih =>
    obtain ⟨ds, hds, hsep⟩ := ih h
    refine ⟨c :: ds, List.forall_mem_cons.2 ⟨hc, hds⟩, ?_⟩
    cases afterDigit with
    | false => exact hsep c
    | true => exact fun _ => .next (hsep c)
  | case6 => cases h

/-- A numeral has digits if every separator stands between two of them. -/
theorem digitsOf_eq_ok_iff :
    digitsOf radix false cs = .ok ds ↔ Separated ds cs ∧ ∀ d ∈ ds, isDigitOf radix d := by
  simp only [digitsOf, Bool.false_eq_true, if_false, List.isEmpty_iff]
  constructor
  · intro h
    split at h
    · cases h
    split at h
    · cases h
    next hfault =>
    obtain ⟨ds', hds, hsep⟩ := exists_separated false cs hfault
    rw [Separated.filter_eq hsep hds] at h
    cases h
    exact ⟨hsep, hds⟩
  · rintro ⟨hsep, hds⟩
    rw [if_neg hsep.ne_nil, firstFault?_of_separated hsep hds, hsep.filter_eq hds]

/-- Digits with their separators begin with a digit. -/
theorem dropLeadingSeparator_of_separated (h : Separated ds cs)
    (hds : ∀ d ∈ ds, isDigitOf radix d) : dropLeadingSeparator cs = cs := by
  unfold dropLeadingSeparator
  split
  · exact absurd rfl (ne_separator_of_isDigitOf (hds _ (List.mem_of_head? h.head?_eq.symm)))
  · rfl

/-- Where one separator may precede the first digit, it is dropped. -/
theorem digitsOf_true_eq_ok_iff :
    digitsOf radix true cs = .ok ds ↔
      ∃ lead cs', (lead = [] ∨ lead = ['_']) ∧ cs = lead ++ cs' ∧ Separated ds cs' ∧
        ∀ d ∈ ds, isDigitOf radix d := by
  have hdrop : digitsOf radix true cs = digitsOf radix false (dropLeadingSeparator cs) := rfl
  rw [hdrop, digitsOf_eq_ok_iff]
  constructor
  · rintro ⟨hsep, hds⟩
    unfold dropLeadingSeparator at hsep
    split at hsep
    · next cs' => exact ⟨['_'], cs', .inr rfl, rfl, hsep, hds⟩
    · exact ⟨[], cs, .inl rfl, rfl, hsep, hds⟩
  · rintro ⟨lead, cs', rfl | rfl, rfl, hsep, hds⟩
    · exact ⟨(dropLeadingSeparator_of_separated hsep hds).symm ▸ hsep, hds⟩
    · exact ⟨hsep, hds⟩

/-- Digits are a numeral. -/
theorem readNumeral?_eq (hds : ∀ d ∈ ds, isDigitOf radix d) (hne : ds ≠ []) :
    readNumeral? radix ds = some (numeralValue radix ds) := by
  have hall : ds.all (isDigitOf radix) := List.all_eq_true.2 hds
  simp [readNumeral?, hall, hne]

/-- Digits are an integer. -/
theorem integerOfDigits_eq (h : Separated ds cs) (hds : ∀ d ∈ ds, isDigitOf radix d) :
    integerOfDigits radix ds = .ok (numeralValue radix ds) := by
  rw [integerOfDigits, readNumeral?_eq hds h.digits_ne_nil]

end Literal

end

end Calculator
