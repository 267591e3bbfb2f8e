import Calculator.Proofs.Parser.Phrase
import Calculator.Proofs.Token.Literal

/-!
# Numbers as literals

A number without a sign is written as a literal of an expression.

* `Number.isUnsigned`, `Number.isFinite`: the numbers that are written so.
* `Number.token`, `Phrase.ofNumber`: the token of the number, and its derivation.
* `Number.placedFrom_cut_text`: the text of the number is cut and read as its token.
-/

namespace Calculator

namespace Number

/-- A number that is neither negative nor NaN. The sign of a float zero counts. -/
def isUnsigned : Number → Bool
  | .integer n => 0 ≤ n
  | .float x => !x.isNaN && !x.signBit

/-- Every integer is finite. -/
def isFinite : Number → Bool
  | .integer _ => true
  | .float x => x.isFinite

/-- The token of a number without a sign. -/
def token : Number → Token
  | .integer n => .integer n.toNat
  | .float x => .float x

end Number

/-- The number of a literal. -/
def Token.number? : Token → Option Number
  | .integer n => some (.integer n)
  | .float x => some (.float x)
  | _ => none

/-! ## Literals have no sign -/

/-- A decimal is read as a number that is neither negative nor NaN. -/
theorem Decimal.isUnsigned_toDouble (d : Decimal) : (Number.float d.toDouble).isUnsigned := by
  rw [toDouble_eq, Double.ofRatio]
  split <;> rfl

theorem Literal.isUnsigned_of_decimalFloat {cs : List Char} {x : Double}
    (h : decimalFloat cs = .ok x) : (Number.float x).isUnsigned := by
  obtain ⟨_, d, -, -, rfl⟩ := decimalFloat_eq_ok_iff.1 h
  exact d.isUnsigned_toDouble

theorem Lexeme.readLiteral_eq_ok_iff {α : Type} {token : α → Token}
    {value : Except LiteralFault α} {t : Token} :
    readLiteral token value = .ok t ↔ ∃ a, value = .ok a ∧ token a = t := by
  cases value <;> simp [readLiteral]

/-- Floats are read from float literals only. -/
theorem Lexeme.decimalFloat_of_read? {l : Lexeme} {x : Double}
    (h : l.read? = some (.ok (.float x))) : Literal.decimalFloat l.chars = .ok x := by
  cases hs : l.shape <;> simp [read?, hs, readLiteral_eq_ok_iff] at h
  exact h

/-- The number of a literal has no sign. -/
theorem Lexeme.isUnsigned_of_read? {l : Lexeme} {token : Token} {v : Number}
    (hread : l.read? = some (.ok token)) (hv : token.number? = some v) : v.isUnsigned := by
  cases token with
  | integer n => cases hv; exact decide_eq_true (Int.natCast_nonneg n)
  | float x => cases hv; exact Literal.isUnsigned_of_decimalFloat (decimalFloat_of_read? hread)
  | operator | leftParen | rightParen | name | quoted | symbol => cases hv

/-! ## Numbers without a sign are literals -/

/-- The literal of a number at a column. -/
def Phrase.ofNumber (column : Nat) : Number → Phrase .primary
  | .integer n => .integer n.toNat column
  | .float x => .float x column

section

variable {v : Number}

@[simp] theorem Phrase.tokens_ofNumber (column : Nat) (v : Number) :
    (ofNumber column v).tokens = [⟨v.token, column⟩] := by
  cases v <;> rfl

@[simp] theorem Phrase.nesting_ofNumber (column : Nat) (v : Number) :
    (ofNumber column v).nesting = 0 := by
  cases v <;> rfl

theorem Phrase.tree_ofNumber (column : Nat) (h : v.isUnsigned) :
    (ofNumber column v).tree = .literal v column := by
  cases v with
  | integer n => rw [ofNumber, tree, Int.toNat_of_nonneg (of_decide_eq_true h)]
  | float x => rfl

namespace Number

theorem exists_eq_finite {x : Double} (hu : (float x).isUnsigned) (hf : (float x).isFinite) :
    ∃ m, x = .finite false m := by
  cases x with
  | nan | infinite s => cases hf
  | finite s m =>
    cases s with
    | false => exact ⟨m, rfl⟩
    | true => cases hu

theorem toList_text_integer (n : Nat) : (integer n).text.toList = decimalDigits n :=
  toList_naturalText n

/-- The text of a float without a sign is a numeral that is read as the float. -/
theorem exists_numeral_text (m : Magnitude) : ∃ n : Numeral,
    (float (.finite false m)).text.toList = n.chars ∧ n.value.toDouble = .finite false m := by
  obtain ⟨n, hn, hv⟩ := @Layout.exists_numeral layout rfl rfl (.shortest m.units)
  refine ⟨n, ?_, hv.trans (Decimal.toDouble_shortest m)⟩
  rw [hn]
  exact String.toList_ofList

/-- The text of a number without a sign starts with a digit. -/
theorem exists_head_text (hu : v.isUnsigned) (hf : v.isFinite) :
    ∃ c cs, v.text.toList = c :: cs ∧ '0' ≤ c ∧ c ≤ '9' := by
  cases v with
  | integer n =>
    obtain ⟨k, rfl⟩ := Int.eq_ofNat_of_zero_le (of_decide_eq_true hu)
    obtain ⟨c, cs, hcs⟩ := List.exists_cons_of_ne_nil (decimalDigits_ne_nil k)
    refine ⟨c, cs, (toList_text_integer k).trans hcs, isDigit_of_mem_decimalDigits (n := k) ?_⟩
    rw [hcs]
    exact List.mem_cons_self
  | float x =>
    obtain ⟨m, rfl⟩ := exists_eq_finite hu hf
    obtain ⟨n, hn, -⟩ := exists_numeral_text m
    obtain ⟨c, cs, hcs⟩ := List.exists_cons_of_ne_nil n.whole_ne_nil
    refine ⟨c, _, hn.trans (by rw [Numeral.chars, hcs]; rfl), n.isDigit_whole ?_⟩
    rw [hcs]
    exact List.mem_cons_self

/-- The text of a number without a sign is cut and read as its token. -/
theorem placedFrom_cut_text {column : Nat} {rest : List Char} {ts : List Placed}
    (hu : v.isUnsigned) (hf : v.isFinite) (hrest : Lexeme.Delimited rest)
    (h : placedFrom (column + v.text.toList.length) (Lexeme.cut rest) = .ok ts) :
    placedFrom column (Lexeme.cut (v.text.toList ++ rest)) = .ok (⟨v.token, column⟩ :: ts) := by
  cases v with
  | integer n =>
    obtain ⟨k, rfl⟩ := Int.eq_ofNat_of_zero_le (of_decide_eq_true hu)
    rw [toList_text_integer] at h ⊢
    rw [Lexeme.cut_decimalDigits k hrest]
    refine placedFrom_cons_token ?_ h
    rw [Lexeme.read?, Literal.decimalInteger_decimalDigits]
    rfl
  | float x =>
    obtain ⟨m, rfl⟩ := exists_eq_finite hu hf
    obtain ⟨n, hn, hv⟩ := exists_numeral_text m
    rw [hn] at h ⊢
    rw [Lexeme.cut_numeral n hrest]
    refine placedFrom_cons_token ?_ h
    rw [Lexeme.read?, Literal.decimalFloat_numeral, hv]
    rfl

/-- The text of a number without a sign, and nothing else. -/
theorem placedFrom_cut_text_alone (hu : v.isUnsigned) (hf : v.isFinite) (column : Nat) :
    placedFrom column (Lexeme.cut v.text.toList) = .ok [⟨v.token, column⟩] := by
  rw [← List.append_nil v.text.toList]
  exact placedFrom_cut_text hu hf nofun (by rw [Lexeme.cut]; rfl)

end Number

end

end Calculator
