import Calculator.Proofs.Number.Text
import Calculator.Proofs.Session.Messages
import Calculator.Proofs.Token.Denotation
import Calculator.Proofs.Token.Span

/-!
# The meaning of literals

Literals mean what they say. A literal of an integer is read as this integer, an integer is read
from no other text, and a float is the binary64 number nearest to what its text denotes. The
faults of literals are those of their digits; what is left without separators is always a number.

* `Means`: what a token or fault says of the text that it is read from.
* `Literal.isOfDigits_of_decimalInteger`, `Literal.isOfDigits_of_markedInteger`,
  `Literal.isOfDigits_of_decimalFloat`: the faults of the three kinds of literal.
* `Front.means`: what is read at the front of a text is true of it.
* `cut_of_spelling`: the literals of an integer are read as the integer.
* `lexicalItems_mean`: literals mean what they say.
-/

namespace Calculator

open Lexeme Pattern

/-- A fault that tells what is wrong with the digits of a text, rather than that they are no number.
The character that it blames is one of the text. -/
def LiteralFault.IsOfDigits (cs : List Char) : LiteralFault → Prop
  | .notAnInteger | .notAFloat => False
  | .invalidDigit c _ => c ∈ cs
  | _ => True

/-- What a token or fault says of the text that it is read from. An integer has its literals. A
float is nearest to the one number that its text denotes without separators; it has no sign. The
fault of a literal is never that there is no number left without the separators. -/
def Means (cs : List Char) : Except LexicalFault Token → Prop
  | .ok (.integer n) => Spelling n cs
  | .ok (.float x) =>
    ∃ q, (∀ r, Denotes (cs.filter (· ≠ '_')) r ↔ r = q) ∧ x.IsNearest q ∧ x.isNaN = false ∧
      x.signBit = false
  | .error (.invalidLiteral fault) =>
    fault.message ≠ "not a valid integer" ∧ fault.message ≠ "not a valid float"
  | _ => True

/-! ## Faults -/

namespace LiteralFault

variable {fault : LiteralFault} {cs ds : List Char}

theorem IsOfDigits.mono (h : fault.IsOfDigits cs) (hsub : cs ⊆ ds) : fault.IsOfDigits ds := by
  cases fault with
  | invalidDigit c radix => exact hsub h
  | notAnInteger | notAFloat => exact h
  | missingDigits | misplacedSeparator | leadingZeros => trivial

theorem IsOfDigits.message_ne (h : fault.IsOfDigits cs) :
    fault.message ≠ "not a valid integer" ∧ fault.message ≠ "not a valid float" := by
  cases fault with
  | notAnInteger | notAFloat => cases h
  | invalidDigit c radix =>
    -- The texts differ in their first character.
    have hstarts := message_invalidDigit_starts c radix
    constructor
    · intro heq
      rw [heq] at hstarts
      exact absurd hstarts (by decide)
    · intro heq
      rw [heq] at hstarts
      exact absurd hstarts (by decide)
  | missingDigits | misplacedSeparator | leadingZeros => decide

end LiteralFault

namespace Literal

variable {radix : Nat} {allowLeading : Bool} {cs : List Char} {fault : LiteralFault}

theorem isOfDigits_of_firstFault {afterDigit : Bool}
    (h : firstFault? radix afterDigit cs = some fault) : fault.IsOfDigits cs := by
  fun_induction firstFault? radix afterDigit cs with
  | case1 => cases h
  | case2 | case4 =>
    cases h
    trivial
  | case3 _ ih => exact (ih h).mono (List.subset_cons_self _ _)
  | case5 _ _ _ _ _ ih => exact (ih h).mono (List.subset_cons_self _ _)
  | case6 =>
    cases h
    exact List.mem_cons_self

theorem dropLeadingSeparator_subset (cs : List Char) : dropLeadingSeparator cs ⊆ cs := by
  unfold dropLeadingSeparator
  split
  · exact List.subset_cons_self _ _
  · exact List.Subset.refl _

theorem isOfDigits_of_digitsOf (h : digitsOf radix allowLeading cs = .error fault) :
    fault.IsOfDigits cs := by
  have hsub : (if allowLeading then dropLeadingSeparator cs else cs) ⊆ cs := by
    split
    · exact dropLeadingSeparator_subset cs
    · exact List.Subset.refl cs
  unfold digitsOf at h
  dsimp only at h
  generalize (if allowLeading then dropLeadingSeparator cs else cs) = numeral at h hsub
  split at h
  · cases h
    trivial
  split at h
  · next hfault =>
    cases h
    exact (isOfDigits_of_firstFault hfault).mono hsub
  · cases h

theorem isOfDigits_of_decimalInteger (h : decimalInteger cs = .error fault) :
    fault.IsOfDigits cs := by
  rcases exists_of_bind_eq_error h with hdigits | ⟨ds, hdigits, h⟩
  · exact isOfDigits_of_digitsOf hdigits
  · obtain ⟨hseparated, hds⟩ := digitsOf_eq_ok_iff.1 hdigits
    rw [integerOfDigits_eq hseparated hds] at h
    split at h
    · cases h
      trivial
    · cases h

theorem isOfDigits_of_markedInteger (h : markedInteger cs = .error fault) :
    fault.IsOfDigits cs := by
  rcases exists_of_bind_eq_error h with hdigits | ⟨ds, hdigits, h⟩
  · exact (isOfDigits_of_digitsOf hdigits).mono (List.drop_subset 2 cs)
  · obtain ⟨_, _, _, _, hseparated, hds⟩ := digitsOf_true_eq_ok_iff.1 hdigits
    rw [integerOfDigits_eq hseparated hds] at h
    cases h

theorem isOfDigits_of_optionalDigits (h : optionalDigits cs = .error fault) :
    fault.IsOfDigits cs := by
  unfold optionalDigits at h
  split at h
  · cases h
  · exact isOfDigits_of_digitsOf h

theorem isOfDigits_of_exponentDigits (h : exponentDigits cs = .error fault) :
    fault.IsOfDigits cs := by
  have hdigits {f : List Char → List Char} {ds : List Char} (hsub : ds ⊆ cs)
      (h : (do return f (← digitsOf 10 false ds)) = Except.error (α := List Char) fault) :
      fault.IsOfDigits cs := by
    rcases exists_of_bind_eq_error h with hfault | ⟨_, -, h⟩
    · exact (isOfDigits_of_digitsOf hfault).mono hsub
    · cases h
  unfold exponentDigits at h
  split at h
  · cases h
  · exact hdigits (by simp) h
  · exact hdigits (by simp) h
  · exact hdigits (by simp) h

theorem isOfDigits_of_floatDigits (h : floatDigits cs = .error fault) : fault.IsOfDigits cs := by
  have hmantissa : mantissa cs ⊆ cs := (List.takeWhile_sublist _).subset
  rcases exists_of_bind_eq_error h with hwhole | ⟨_, -, h⟩
  · have hsub : whole (mantissa cs) ⊆ mantissa cs := (List.takeWhile_sublist _).subset
    exact (isOfDigits_of_optionalDigits hwhole).mono (List.Subset.trans hsub hmantissa)
  rcases exists_of_bind_eq_error h with hfraction | ⟨_, -, h⟩
  · have hsub : fraction (mantissa cs) ⊆ mantissa cs :=
      List.Subset.trans (List.drop_subset 1 _) (List.dropWhile_sublist _).subset
    exact (isOfDigits_of_optionalDigits hfraction).mono (List.Subset.trans hsub hmantissa)
  rcases exists_of_bind_eq_error h with hscale | ⟨_, -, h⟩
  · exact (isOfDigits_of_exponentDigits hscale).mono (List.dropWhile_sublist _).subset
  · cases h

theorem isOfDigits_or_eq_of_decimalFloat (h : decimalFloat cs = .error fault) :
    fault.IsOfDigits cs ∨ fault = .notAFloat := by
  rcases exists_of_bind_eq_error h with hdigits | ⟨ds, -, h⟩
  · exact .inl (isOfDigits_of_floatDigits hdigits)
  · split at h
    · cases h
    · cases h
      exact .inr rfl

/-- Where a float has digits, they are a number. -/
theorem isOfDigits_of_decimalFloat (h : decimalFloat cs = .error fault)
    (hne : whole (mantissa cs) ≠ [] ∨ fraction (mantissa cs) ≠ []) : fault.IsOfDigits cs := by
  rcases exists_of_bind_eq_error h with hdigits | ⟨ds, hdigits, h⟩
  · exact isOfDigits_of_floatDigits hdigits
  · obtain ⟨q, -, hds⟩ := denotes_of_floatDigits hdigits hne
    obtain ⟨d, hread, -⟩ := readDecimal?_of_denotes hds
    rw [hread] at h
    cases h

end Literal

/-! ## What matches say -/

section

variable {n : ℕ} {c : Char} {x cs w rest : List Char} {o : Except LexicalFault Token}

theorem isDigit_of_isDigitOf (h : isDigitOf 10 c) : isDigit c :=
  isDigit_iff.2 (isDigit_of_isDigitOf_ten h)

theorem isNamePart_of_isDigitOf {radix : ℕ} (h : isDigitOf radix c) : isNamePart c := by
  have hc := of_isDigitOf h
  simpa [isNamePart, isNameStart, isLetter, isDigit, or_assoc] using Or.inl hc

/-- What starts with a digit has digits before its point, -/
theorem whole_mantissa_ne_nil (hc : isDigit c) :
    Literal.whole (Literal.mantissa (c :: x)) ≠ [] := by
  have hmark := Literal.not_isExponentMark_of_isDigitOf (isDigitOf_ten (isDigit_iff.1 hc))
  have hpoint := Literal.ne_point_of_isDigitOf (isDigitOf_ten (isDigit_iff.1 hc))
  simp [Literal.whole, Literal.mantissa, hmark, hpoint]

/-- and a digit after a point is one of the fraction. -/
theorem fraction_mantissa_ne_nil (hc : isDigit c) :
    Literal.fraction (Literal.mantissa ('.' :: c :: x)) ≠ [] := by
  have hmark := Literal.not_isExponentMark_of_isDigitOf (isDigitOf_ten (isDigit_iff.1 hc))
  have hpoint : Literal.isExponentMark '.' = false := rfl
  simp [Literal.fraction, Literal.mantissa, hmark, hpoint]

theorem exists_baseOfMark (h : isRadixMark c) : ∃ radix, baseOfMark? c = some radix := by
  have hc := isRadixMark_iff.1 h
  simp only [List.mem_cons, List.not_mem_nil, or_false] at hc
  rcases hc with rfl | rfl | rfl | rfl | rfl | rfl <;> exact ⟨_, rfl⟩

/-- A literal of an integer, or what is wrong with its digits. -/
theorem means_integer {value : Except LiteralFault ℕ}
    (hvalue : ∀ n, value = .ok n → Spelling n cs)
    (hfault : ∀ fault, value = .error fault → fault.IsOfDigits cs) :
    Means cs (readLiteral .integer value) := by
  cases value with
  | ok n => exact hvalue n rfl
  | error fault => exact (hfault fault rfl).message_ne

theorem means_decimalInteger (cs : List Char) :
    Means cs (readLiteral .integer (Literal.decimalInteger cs)) := by
  refine means_integer (fun n h => ?_) fun _ => Literal.isOfDigits_of_decimalInteger
  obtain ⟨zeros, ds, hds, hzeros, hcs⟩ := Literal.decimalInteger_eq_ok_iff.1 h
  exact .decimal hds hzeros hcs

theorem means_markedInteger (hc : isRadixMark c) (x : List Char) :
    Means ('0' :: c :: x) (readLiteral .integer (Literal.markedInteger ('0' :: c :: x))) := by
  refine means_integer (fun n h => ?_) fun _ => Literal.isOfDigits_of_markedInteger
  obtain ⟨radix, hradix⟩ := exists_baseOfMark hc
  obtain ⟨zeros, lead, ds, separated, hlead, hds, hseparated, rfl⟩ :=
    (Literal.markedInteger_eq_ok_iff hradix).1 h
  exact .marked hradix hlead hds hseparated rfl

/-- The number that a float is nearest to, or what is wrong with its digits. -/
theorem means_decimalFloat
    (hne : Literal.whole (Literal.mantissa cs) ≠ [] ∨ Literal.fraction (Literal.mantissa cs) ≠ []) :
    Means cs (readLiteral .float (Literal.decimalFloat cs)) := by
  cases hvalue : Literal.decimalFloat cs with
  | error fault =>
    exact (Literal.isOfDigits_of_decimalFloat hvalue hne).message_ne
  | ok x =>
    obtain ⟨q, hq, hnearest⟩ := Literal.isNearest_of_decimalFloat hvalue hne
    have hunsigned := Literal.isUnsigned_of_decimalFloat hvalue
    simp only [Number.isUnsigned, Bool.and_eq_true, Bool.not_eq_true'] at hunsigned
    exact ⟨q, fun r => ⟨fun hr => hr.eq hq, fun hr => hr ▸ hq⟩, hnearest, hunsigned⟩

/-- What a match of a pattern stands for is true of its text. -/
theorem means_of_mem {p : Pattern} (hw : c :: x ∈ p.language)
    (hread : read? ⟨p.shape, c :: x⟩ = some o) : Means (c :: x) o := by
  have hw := cons_mem_language.1 hw
  cases p with
  | decimalInteger =>
    obtain rfl := Option.some.inj hread
    exact means_decimalInteger _
  | markedInteger =>
    obtain ⟨rfl, m, y, hm, -, rfl⟩ := hw
    obtain rfl := Option.some.inj hread
    exact means_markedInteger hm y
  | pointFloat | exponentFloat =>
    obtain rfl := Option.some.inj hread
    exact means_decimalFloat (.inl (whole_mantissa_ne_nil hw.1))
  | fractionFloat =>
    obtain ⟨rfl, f, e, hf, -, rfl⟩ := hw
    obtain ⟨d, ds, hd, -, rfl⟩ := mem_digits.1 hf
    obtain rfl := Option.some.inj hread
    exact means_decimalFloat (.inr (fraction_mantissa_ne_nil hd))
  | comment | blank => cases hread
  | operator | leftParen | rightParen | name | singleQuote | doubleQuote | symbol =>
    obtain rfl := Option.some.inj hread
    exact trivial

/-- What is read at the front of a text is true of what is taken. -/
theorem Front.means (h : Front w rest (some o)) : Means w o := by
  obtain ⟨c, x, hcons⟩ := List.exists_cons_of_ne_nil h.ne_nil
  generalize ho : some o = outcome at h
  cases h with
  | @matched p v extra rest outcome _ hchosen htakes =>
    cases htakes with
    | plain =>
      rw [List.append_nil] at hcons ⊢
      subst hcons
      exact means_of_mem hchosen.matched ho.symm
    | comment => cases ho
    | closed | unclosed =>
      cases ho
      exact trivial
  | stray =>
    cases ho
    exact trivial
  | pointBeforeMark _ hfault =>
    cases ho
    exact (Literal.isOfDigits_of_decimalInteger hfault).message_ne

/-! ## Literals of integers -/

/-- Digits and separators that end a text are one lexeme, -/
theorem cut_numeralParts (hc : isDigit c) (hx : ∀ d ∈ x, isNumeralPart d) :
    cut (c :: x) = [⟨.decimalInteger, c :: x⟩] := by
  have hradix : ∀ d ∈ (x ++ []).head?, isRadixMark d = false :=
    isRadixMark_head?_append hx (by simp)
  have hmeasure : Lexeme.measure c (x ++ []) = (.decimalInteger, x.length) := by
    rw [measure_decimal hc hradix, measureNumeral_append hx (by simp)]
    rfl
  have hcut := cut_cons hmeasure
  rwa [List.append_nil, cut] at hcut

/-- and so are digits, letters and separators after a mark. -/
theorem cut_nameParts (hc : isRadixMark c) (hx : ∀ d ∈ x, isNamePart d) :
    cut ('0' :: c :: x) = [⟨.markedInteger, '0' :: c :: x⟩] := by
  have hmeasure : Lexeme.measure '0' (c :: x ++ []) = (.markedInteger, (c :: x).length) := by
    have hrun : runLength isNamePart (x ++ []) = x.length := runLength_append hx (by simp)
    have hmark : '0' = '0' ∧ (c :: x ++ []).head?.any isRadixMark := ⟨rfl, hc⟩
    rw [measure_digit rfl, measureDigit, if_pos hmark, List.cons_append, List.drop_succ_cons,
      List.drop_zero, hrun, List.length_cons, Nat.add_comm]
  have hcut := cut_cons hmeasure
  rwa [List.append_nil, cut] at hcut

theorem isRadixMark_of_baseOfMark {radix : ℕ} (h : baseOfMark? c = some radix) :
    isRadixMark c := by
  unfold baseOfMark? at h
  split at h
  · rfl
  · rfl
  · rfl
  · rfl
  · rfl
  · rfl
  · cases h

/-- A literal of an integer is one lexeme, which is read as the integer. -/
theorem cut_of_spelling (h : Spelling n cs) :
    ∃ shape, cut cs = [⟨shape, cs⟩] ∧ read? ⟨shape, cs⟩ = some (.ok (.integer n)) := by
  cases h with
  | @decimal zeros ds hds hzeros hcs =>
    have hvalue := Literal.decimalInteger_eq_ok_iff.2 ⟨zeros, ds, hds, hzeros, hcs⟩
    obtain ⟨hdigits, -⟩ := denotesNatural_iff.1 ⟨zeros, hds⟩
    obtain ⟨d, x, rfl⟩ := List.exists_cons_of_ne_nil hcs.ne_nil
    refine ⟨.decimalInteger, cut_numeralParts ?_ fun c hc => ?_,
      congrArg (fun v => some (readLiteral .integer v)) hvalue⟩
    · exact isDigit_of_isDigitOf (hdigits d (List.mem_of_head? hcs.head?_eq.symm))
    · rcases hcs.mem_of_mem (List.mem_cons_of_mem d hc) with hmem | rfl
      · exact isNumeralPart_of_isDigit (isDigit_of_isDigitOf (hdigits c hmem))
      · rfl
  | @marked mark radix zeros lead ds separated hmark hlead hds hseparated hcs =>
    subst hcs
    have hvalue := (Literal.markedInteger_eq_ok_iff hmark).2
      ⟨zeros, lead, ds, separated, hlead, hds, hseparated, rfl⟩
    obtain ⟨hone, hle⟩ := Literal.bounds_of_baseOfMark hmark
    obtain ⟨hdigits, -⟩ := (exists_spells_iff hone hle).1 ⟨zeros, hds⟩
    refine ⟨.markedInteger, cut_nameParts (isRadixMark_of_baseOfMark hmark) fun c hc => ?_,
      congrArg (fun v => some (readLiteral .integer v)) hvalue⟩
    rcases List.mem_append.1 hc with hc | hc
    · obtain rfl : c = '_' := by
        rcases hlead with rfl | rfl
        · cases hc
        · exact List.mem_singleton.1 hc
      rfl
    · rcases hseparated.mem_of_mem hc with hmem | rfl
      · exact isNamePart_of_isDigitOf (hdigits c hmem)
      · rfl

end

/-! ## Whole sources -/

/-- The span of what is read holds the text that it is read from. -/
theorem exists_front_of_reads {source : String} {pre cs : List Char} {items : List LexicalItem}
    {start : ℕ} (hsource : source.toList = pre ++ cs) (hstart : start = byteCount pre)
    (h : Reads start cs items) : ∀ i ∈ items, ∃ w rest,
      textBetween? source i.start i.stop = some (.ofList w) ∧ Front w rest (some i.outcome) := by
  induction h generalizing pre with
  | done => simp
  | @skipped start w rest items _ _ ih =>
    refine ih (by rw [hsource, List.append_assoc]) ?_
    rw [byteCount_append, hstart]
    rfl
  | @item start w rest items outcome hw _ ih =>
    refine List.forall_mem_cons.2 ⟨⟨w, rest, textBetween?_eq hsource hstart rfl, hw⟩, ?_⟩
    refine ih (by rw [hsource, List.append_assoc]) ?_
    rw [byteCount_append, hstart]
    rfl

/-- **Literals mean what they say.** A literal of an integer, in any base, with letters in either
case, separators and zeros before its digits, is read as the one token of the integer. Conversely
every integer of a source is read from one of its literals, every float is the number nearest to
what its text denotes, and no fault of a literal is that nothing is left of it. -/
theorem lexicalItems_mean (source : String) :
    (∀ n, Spelling n source.toList →
      lexicalItems source = [⟨.ok (.integer n), 0, source.utf8ByteSize⟩]) ∧
    ∀ i ∈ lexicalItems source,
      ∃ text, textBetween? source i.start i.stop = some text ∧ Means text.toList i.outcome := by
  constructor
  · intro n h
    obtain ⟨shape, hcut, hread⟩ := cut_of_spelling h
    rw [lexicalItems, hcut, itemsFrom, hread]
    show [(⟨.ok (.integer n), 0, 0 + (String.ofList source.toList).utf8ByteSize⟩ : LexicalItem)] = _
    rw [String.ofList_toList, Nat.zero_add]
  · intro i hi
    have hreads : Reads 0 source.toList (lexicalItems source) := reads_itemsFrom 0 source.toList
    obtain ⟨w, rest, htext, hw⟩ := exists_front_of_reads (List.nil_append _).symm rfl hreads i hi
    refine ⟨_, htext, ?_⟩
    rw [String.toList_ofList]
    exact hw.means

/-- Separators and the case of letters do not count. -/
theorem lexicalItems_mean_marked :
    Spelling 255 "0X_f_F".toList ∧
      lexicalItems "0X_f_F" = [⟨.ok (.integer 255), 0, 6⟩] ∧
      ∃ text, textBetween? "0X_f_F" 0 6 = some text ∧
        Means text.toList (.ok (.integer 255)) := by
  have hdigits : Nat.digits 16 255 = [15, 15] := by norm_num
  have hspells : Spells 16 0 255 ['f', 'F'] := by
    rw [Spells, hdigits]
    exact .cons (.inl rfl) (.cons (.inr rfl) .nil)
  have hspelling : Spelling 255 "0X_f_F".toList :=
    .marked rfl (.inr rfl) hspells (.separator .single) rfl
  have hitems := (lexicalItems_mean "0X_f_F").1 255 hspelling
  refine ⟨hspelling, hitems, (lexicalItems_mean "0X_f_F").2 ⟨.ok (.integer 255), 0, 6⟩ ?_⟩
  rw [hitems]
  exact List.mem_singleton.2 rfl

end Calculator
