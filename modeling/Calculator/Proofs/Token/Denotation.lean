import Calculator.Proofs.Decimal.Value
import Calculator.Proofs.Token.Literal
import Calculator.Proofs.Token.Spelling

/-!
# What floats denote

A float without its separators denotes a rational number, and is read as the binary64 number nearest
to it.

* `Denotes`: the number that a text denotes.
* `Denotes.eq`: there is one at most.
* `Literal.denotes_of_floatDigits`: a float without separators denotes a number.
* `Literal.isNearest_of_decimalFloat`: the value of a float is nearest to it.
-/

namespace Calculator

/-- `ds` are decimal digits of the value `n`. No digits have the value zero. -/
def DenotesNatural (ds : List Char) (n : ℕ) : Prop := ∃ zeros, Spells 10 zeros n ds

/-- `x` is an exponent of the value `e`. It is zero where it is left out. -/
inductive DenotesExponent : (x : List Char) → (e : ℤ) → Prop
  | none : DenotesExponent [] 0
  | unsigned {m : Char} {ds : List Char} {n : ℕ} (hm : m = 'e' ∨ m = 'E') (hne : ds ≠ [])
      (hds : DenotesNatural ds n) : DenotesExponent (m :: ds) n
  | plus {m : Char} {ds : List Char} {n : ℕ} (hm : m = 'e' ∨ m = 'E') (hne : ds ≠ [])
      (hds : DenotesNatural ds n) : DenotesExponent (m :: '+' :: ds) n
  | minus {m : Char} {ds : List Char} {n : ℕ} (hm : m = 'e' ∨ m = 'E') (hne : ds ≠ [])
      (hds : DenotesNatural ds n) : DenotesExponent (m :: '-' :: ds) (-n)

/-- `cs` denotes the number `q`. With a point, either the digits before it or those after it may be
left out. -/
inductive Denotes : (cs : List Char) → (q : ℚ) → Prop
  | integral {w x : List Char} {a : ℕ} {e : ℤ} (hne : w ≠ []) (hw : DenotesNatural w a)
      (hx : DenotesExponent x e) : Denotes (w ++ x) (a * 10 ^ e)
  | pointed {w f x : List Char} {a b : ℕ} {e : ℤ} (hne : w ≠ [] ∨ f ≠ []) (hw : DenotesNatural w a)
      (hf : DenotesNatural f b) (hx : DenotesExponent x e) :
      Denotes (w ++ '.' :: f ++ x) ((a + b / 10 ^ f.length) * 10 ^ e)

theorem denotesNatural_iff {ds : List Char} {n : ℕ} :
    DenotesNatural ds n ↔ (∀ c ∈ ds, isDigitOf 10 c) ∧ numeralValue 10 ds = n :=
  exists_spells_iff (by decide) (by decide)

namespace Literal

/-! ## One number at most -/

section

variable {m : Char} {x ds : List Char} {e : ℤ} {q : ℚ}

theorem isExponentMark_of_denotes (h : DenotesExponent x e) : ∀ c ∈ x.head?, isExponentMark c := by
  cases h with
  | none => simp
  | unsigned hm | plus hm | minus hm =>
    rintro _ ⟨⟩
    exact decide_eq_true hm

/-- Digits after a mark have no sign. -/
theorem readExponent?_unsigned (hds : ∀ c ∈ ds, isDigitOf 10 c) :
    readExponent? (m :: ds) = (readNumeral? 10 ds).map Int.ofNat := by
  unfold readExponent?
  split
  · next h => cases h
  · next h =>
    cases h
    cases hds '+' List.mem_cons_self
  · next h =>
    cases h
    cases hds '-' List.mem_cons_self
  · next h =>
    cases h
    rfl

/-- An exponent is read as its value. -/
theorem readExponent?_of_denotes (h : DenotesExponent x e) : readExponent? x = some e := by
  cases h with
  | none => rfl
  | unsigned _ hne hds =>
    obtain ⟨hdigits, rfl⟩ := denotesNatural_iff.1 hds
    rw [readExponent?_unsigned hdigits, readNumeral?_eq hdigits hne]
    rfl
  | plus _ hne hds | minus _ hne hds =>
    obtain ⟨hdigits, rfl⟩ := denotesNatural_iff.1 hds
    simp only [readExponent?, readNumeral?_eq hdigits hne]
    rfl

/-- A text that denotes a number is read as a decimal of its value. -/
theorem readDecimal?_of_denotes (h : Denotes ds q) :
    ∃ d, readDecimal? ds = some d ∧ (d.digits * 10 ^ d.exponent : ℚ) = q := by
  cases h with
  | @integral w x a e hne hwhole hx =>
    obtain ⟨hw, rfl⟩ := denotesNatural_iff.1 hwhole
    refine ⟨⟨numeralValue 10 w, e⟩, ?_, rfl⟩
    have hread :=
      readDecimal?_append (p := []) hw (by simp) (by simp) (isExponentMark_of_denotes hx)
    rw [List.append_nil] at hread
    rw [hread, readExponent?_of_denotes hx, List.drop_nil, List.append_nil, readNumeral?_eq hw hne]
    simp
  | @pointed w f x a b e hne hwhole hfraction hx =>
    obtain ⟨hw, rfl⟩ := denotesNatural_iff.1 hwhole
    obtain ⟨hf, rfl⟩ := denotesNatural_iff.1 hfraction
    have hdigits : readNumeral? 10 (w ++ f) = some (numeralValue 10 (w ++ f)) := by
      refine readNumeral?_eq (List.forall_mem_append.2 ⟨hw, hf⟩) fun hnil => ?_
      obtain ⟨rfl, rfl⟩ := List.append_eq_nil_iff.1 hnil
      exact hne.elim (· rfl) (· rfl)
    refine ⟨⟨numeralValue 10 (w ++ f), e - f.length⟩, ?_, ?_⟩
    · rw [readDecimal?_append (p := '.' :: f) hw (by simp) hf (isExponentMark_of_denotes hx),
        readExponent?_of_denotes hx, List.drop_succ_cons, List.drop_zero, hdigits]
      rfl
    · have hten : (10 : ℚ) ^ f.length ≠ 0 := by positivity
      rw [numeralValue_append, zpow_sub₀ (by norm_num), zpow_natCast, Nat.cast_add, Nat.cast_mul,
        Nat.cast_pow]
      field_simp
      norm_num

end

end Literal

/-- A text denotes one number at most. -/
theorem Denotes.eq {cs : List Char} {q r : ℚ} (hq : Denotes cs q) (hr : Denotes cs r) : q = r := by
  obtain ⟨d, hread, rfl⟩ := Literal.readDecimal?_of_denotes hq
  obtain ⟨d', hread', rfl⟩ := Literal.readDecimal?_of_denotes hr
  rw [hread] at hread'
  cases hread'
  rfl

namespace Literal

/-! ## What is left without the separators -/

section

variable {cs ds p x : List Char}

theorem optionalDigits_eq_ok (h : optionalDigits p = .ok ds) :
    p.filter (· ≠ '_') = ds ∧ (∀ c ∈ ds, isDigitOf 10 c) ∧ (p ≠ [] → ds ≠ []) := by
  unfold optionalDigits at h
  split at h
  · next hp =>
    cases h
    obtain rfl := List.isEmpty_iff.1 hp
    simp
  · obtain ⟨hseparated, hds⟩ := digitsOf_eq_ok_iff.1 h
    exact ⟨hseparated.filter_eq hds, hds, fun _ => hseparated.digits_ne_nil⟩

/-- The digits of an exponent, put after its mark. -/
theorem exists_exponentDigits {f : List Char → List Char}
    (h : (do return f (← digitsOf 10 false cs)) = Except.ok (ε := LiteralFault) ds) :
    ∃ us n, us ≠ [] ∧ DenotesNatural us n ∧ cs.filter (· ≠ '_') = us ∧ ds = f us := by
  obtain ⟨us, hdigits, h⟩ := exists_of_bind_eq_ok h
  obtain ⟨hseparated, hus⟩ := digitsOf_eq_ok_iff.1 hdigits
  exact ⟨us, numeralValue 10 us, hseparated.digits_ne_nil, denotesNatural_iff.2 ⟨hus, rfl⟩,
    hseparated.filter_eq hus, (Except.ok.inj h).symm⟩

/-- Without its separators an exponent keeps its value. -/
theorem denotes_of_exponentDigits (hx : ∀ c ∈ x.head?, isExponentMark c)
    (h : exponentDigits x = .ok ds) :
    ∃ e, DenotesExponent (x.filter (· ≠ '_')) e ∧ DenotesExponent ds e := by
  have hmark : ∀ m ∈ x.head?, m ≠ '_' ∧ (m = 'e' ∨ m = 'E') := by
    intro m hm
    have hm := of_decide_eq_true (hx m hm)
    refine ⟨?_, hm⟩
    rcases hm with rfl | rfl <;> decide
  unfold exponentDigits at h
  split at h
  · cases h
    exact ⟨0, .none, .none⟩
  · next m cs =>
    obtain ⟨us, n, hne, hus, hfilter, rfl⟩ := exists_exponentDigits h
    obtain ⟨hseparator, hm⟩ := hmark m rfl
    refine ⟨n, ?_, .plus (.inl rfl) hne hus⟩
    rw [List.filter_cons_of_pos (by simpa using hseparator), List.filter_cons_of_pos (by decide),
      hfilter]
    exact .plus hm hne hus
  · next m cs =>
    obtain ⟨us, n, hne, hus, hfilter, rfl⟩ := exists_exponentDigits h
    obtain ⟨hseparator, hm⟩ := hmark m rfl
    refine ⟨-n, ?_, .minus (.inl rfl) hne hus⟩
    rw [List.filter_cons_of_pos (by simpa using hseparator), List.filter_cons_of_pos (by decide),
      hfilter]
    exact .minus hm hne hus
  · next m cs _ _ =>
    obtain ⟨us, n, hne, hus, hfilter, rfl⟩ := exists_exponentDigits h
    obtain ⟨hseparator, hm⟩ := hmark m rfl
    refine ⟨n, ?_, .unsigned (.inl rfl) hne hus⟩
    rw [List.filter_cons_of_pos (by simpa using hseparator), hfilter]
    exact .unsigned hm hne hus

/-- A mantissa is its whole part with what starts at its point. -/
theorem whole_append_dropWhile (cs : List Char) :
    whole cs ++ cs.dropWhile (· ≠ '.') = cs := List.takeWhile_append_dropWhile

theorem head?_dropWhile_point (cs : List Char) :
    ∀ c ∈ (cs.dropWhile (· ≠ '.')).head?, c = '.' := by
  intro c hc
  have hhead := List.head?_dropWhile_not (· ≠ '.') cs
  rw [Option.mem_def.1 hc] at hhead
  simpa using hhead

theorem isExponentMark_head?_scale (cs : List Char) :
    ∀ c ∈ (scale cs).head?, isExponentMark c := by
  intro c hc
  have hhead := List.head?_dropWhile_not (!isExponentMark ·) cs
  rw [← scale, Option.mem_def.1 hc] at hhead
  simpa using hhead

/-- A float without its separators consists of its parts without theirs. -/
theorem exists_parts_of_floatDigits (h : floatDigits cs = .ok ds) :
    ∃ w f x, optionalDigits (whole (mantissa cs)) = .ok w ∧
      optionalDigits (fraction (mantissa cs)) = .ok f ∧ exponentDigits (scale cs) = .ok x ∧
      ds = w ++ '.' :: f ++ x := by
  obtain ⟨w, hwhole, h⟩ := exists_of_bind_eq_ok h
  obtain ⟨f, hfraction, h⟩ := exists_of_bind_eq_ok h
  obtain ⟨x, hscale, h⟩ := exists_of_bind_eq_ok h
  exact ⟨w, f, x, hwhole, hfraction, hscale, (Except.ok.inj h).symm⟩

/-- A float denotes the same number as what is read of it, which has a point in any case. -/
theorem denotes_of_floatDigits (h : floatDigits cs = .ok ds)
    (hne : whole (mantissa cs) ≠ [] ∨ fraction (mantissa cs) ≠ []) :
    ∃ q, Denotes (cs.filter (· ≠ '_')) q ∧ Denotes ds q := by
  obtain ⟨w, f, x, hwhole, hfraction, hscale, rfl⟩ := exists_parts_of_floatDigits h
  obtain ⟨hw, hwdigits, hwne⟩ := optionalDigits_eq_ok hwhole
  obtain ⟨hf, hfdigits, hfne⟩ := optionalDigits_eq_ok hfraction
  obtain ⟨e, hscaled, hx⟩ := denotes_of_exponentDigits (isExponentMark_head?_scale cs) hscale
  have hwvalue := denotesNatural_iff.2 ⟨hwdigits, rfl⟩
  have hfvalue := denotesNatural_iff.2 ⟨hfdigits, rfl⟩
  have hdigits : w ≠ [] ∨ f ≠ [] := hne.imp hwne hfne
  have hparts : cs.filter (· ≠ '_') = w ++
      ((mantissa cs).dropWhile (· ≠ '.')).filter (· ≠ '_') ++ (scale cs).filter (· ≠ '_') := by
    rw [← hw, ← List.filter_append, whole_append_dropWhile, ← List.filter_append, mantissa, scale,
      List.takeWhile_append_dropWhile]
  rw [hparts]
  cases hpoint : (mantissa cs).dropWhile (· ≠ '.') with
  | nil =>
    obtain rfl : f = [] := by
      rw [← hf, fraction, hpoint]
      rfl
    have hwne := hdigits.resolve_right (· rfl)
    rw [List.filter_nil, List.append_nil]
    refine ⟨_, .integral hwne hwvalue hscaled, ?_⟩
    simpa using Denotes.pointed (f := []) (b := 0) hdigits hwvalue hfvalue hx
  | cons c after =>
    obtain rfl := head?_dropWhile_point (mantissa cs) c (by rw [hpoint]; rfl)
    have hafter : after.filter (· ≠ '_') = f := by
      rw [← hf, fraction, hpoint]
      rfl
    rw [List.filter_cons_of_pos (by decide), hafter]
    exact ⟨_, .pointed hdigits hwvalue hfvalue hscaled, .pointed hdigits hwvalue hfvalue hx⟩

end

/-! ## The value of a float -/

variable {cs : List Char} {x : Double} {fault : LiteralFault}

/-- The value of a float is the number nearest to what it denotes, and not negative. -/
theorem isNearest_of_decimalFloat (h : decimalFloat cs = .ok x)
    (hne : whole (mantissa cs) ≠ [] ∨ fraction (mantissa cs) ≠ []) :
    ∃ q, Denotes (cs.filter (· ≠ '_')) q ∧ x.IsNearest q := by
  obtain ⟨ds, d, hdigits, hread, rfl⟩ := decimalFloat_eq_ok_iff.1 h
  obtain ⟨q, hq, hds⟩ := denotes_of_floatDigits hdigits hne
  obtain ⟨d', hread', rfl⟩ := readDecimal?_of_denotes hds
  rw [hread] at hread'
  cases hread'
  exact ⟨_, hq, d.isNearest_toDouble⟩

end Literal

end Calculator
