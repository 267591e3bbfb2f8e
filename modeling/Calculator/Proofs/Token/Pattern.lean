import Mathlib.Computability.Language
import Calculator.Token.Lexeme

/-!
# Token patterns

The tokens of a source are declared by patterns, each a regular language. A source is read by
longest match: at each place the longest text of any pattern counts. Comments and quoted texts take
more than their patterns match.

* `Pattern`, `Pattern.language`: the patterns and their languages.
* `Pattern.Chosen`: the longest match at the front of a text.
* `Pattern.Takes`: what is taken at a match, and what it stands for.
* `Front`, `Reads`: what is read at one place, and the reading of a whole source.
-/

namespace Calculator

open Lexeme
open scoped Computability

/-- A pattern of tokens, or of the texts between them. -/
inductive Pattern where
  /-- A float with a point after its first digits. -/
  | pointFloat
  /-- A float with a point before its first digits. -/
  | fractionFloat
  /-- A float with an exponent and no point. -/
  | exponentFloat
  | decimalInteger
  | markedInteger
  | operator (op : BinaryOp)
  | leftParen
  | rightParen
  | name
  | singleQuote
  | doubleQuote
  | symbol
  /-- The character that begins a comment. -/
  | comment
  | blank
  deriving DecidableEq

namespace Pattern

/-! ## Languages -/

/-- The texts of one character with the property. -/
def oneOf (p : Char → Bool) : Language Char := {w | ∃ c, p c ∧ w = [c]}

/-- The texts listed. -/
def anyOf (texts : List String) : Language Char := {w | w ∈ texts.map String.toList}

/-- The texts of a language, or nothing. -/
def optionally (l : Language Char) : Language Char := 1 + l

/-- `[0-9][0-9_]*` -/
def digits : Language Char := oneOf isDigit * (oneOf isNumeralPart)∗

/-- `[eE][+-]?` -/
def signedMark : Language Char :=
  oneOf Literal.isExponentMark * optionally (anyOf ["+", "-"])

/-- `[eE][+-]?[0-9][0-9_]*` -/
def exponent : Language Char := signedMark * digits

/-- The language of a pattern. -/
def language : Pattern → Language Char
  | .pointFloat => digits * anyOf ["."] * optionally digits * optionally exponent
  | .fractionFloat => anyOf ["."] * digits * optionally exponent
  | .exponentFloat => digits * exponent
  | .decimalInteger => digits
  | .markedInteger => anyOf ["0"] * oneOf isRadixMark * (oneOf isNamePart)∗
  | .operator op => anyOf [op.symbol]
  | .leftParen => anyOf ["("]
  | .rightParen => anyOf [")"]
  | .name => oneOf isNameStart * (oneOf isNamePart)∗
  | .singleQuote => anyOf ["\x27"]
  | .doubleQuote => anyOf ["\x22"]
  | .symbol =>
    anyOf ["==", "!=", "<=", ">=", "<<", ">>", ":=", "->"] +
      oneOf "<>=!&|^~@,;:[]\x7b\x7d.".toList.contains
  | .comment => anyOf ["#"]
  | .blank => oneOf isBlank * (oneOf isBlank)∗

/-! ## Matches -/

/-- The shape of what a pattern matches. A quote alone is not closed. -/
def shape : Pattern → Shape
  | .pointFloat | .fractionFloat | .exponentFloat => .float
  | .decimalInteger => .decimalInteger
  | .markedInteger => .markedInteger
  | .operator op => .operator op
  | .leftParen => .leftParen
  | .rightParen => .rightParen
  | .name => .name
  | .singleQuote | .doubleQuote => .openQuote
  | .symbol => .symbol
  | .comment => .comment
  | .blank => .blank

def isQuote : Pattern → Bool
  | .singleQuote | .doubleQuote => true
  | _ => false

/-- A pattern whose matches are all that is taken. -/
def isPlain : Pattern → Bool
  | .singleQuote | .doubleQuote | .comment => false
  | _ => true

/-- The text `w` is matched by the pattern, by no other, and no longer text at the front of
`w ++ rest` is matched by any. -/
structure Chosen (p : Pattern) (w rest : List Char) : Prop where
  matched : w ∈ p.language
  unique : ∀ q : Pattern, w ∈ q.language → q = p
  longest : ∀ (q : Pattern) (v : List Char), v ∈ q.language → v <+: w ++ rest → v.length ≤ w.length

/-- At a match `w` the text `w ++ extra` is taken before `rest`, and stands for a token, a fault or
nothing. -/
inductive Takes : Pattern → (w extra rest : List Char) → Option (Except LexicalFault Token) → Prop
  | plain {p : Pattern} {w rest : List Char} (hp : p.isPlain) :
      Takes p w [] rest (read? ⟨p.shape, w⟩)
  /-- A comment goes up to the end of its line. -/
  | comment {w body rest : List Char} (hbody : ∀ c ∈ body, isLineEnd c = false)
      (hrest : ∀ c ∈ rest.head?, isLineEnd c) : Takes .comment w body rest none
  /-- A quoted text goes through the next quote of the same kind on its line. -/
  | closed {p : Pattern} (hp : p.isQuote) {quote : Char} {body rest : List Char}
      (hbody : ∀ c ∈ body, c ≠ quote ∧ isLineEnd c = false) :
      Takes p [quote] (body ++ [quote]) rest
        (some (.ok (.quoted (String.ofList (quote :: (body ++ [quote]))))))
  /-- Where there is none, the quote alone is taken. -/
  | unclosed {p : Pattern} (hp : p.isQuote) {quote : Char} {rest : List Char}
      (hrest : ∀ body after, rest = body ++ quote :: after → ∃ c ∈ body, isLineEnd c) :
      Takes p [quote] [] rest (some (.error .unterminatedString))

end Pattern

/-- Digits and a point before a letter that could begin an exponent and does not. -/
structure PointBeforeMark (w rest : List Char) : Prop where
  matched : w ∈ Pattern.digits * Pattern.anyOf ["."]
  mark : ∃ c ∈ rest.head?, Literal.isExponentMark c
  noExponent : ∀ v ∈ Pattern.signedMark * Pattern.oneOf isDigit, ¬v <+: rest

/-! ## Readings -/

/-- From `w ++ rest` the text `w` is read next, and stands for a token, a fault or nothing. -/
inductive Front : (w rest : List Char) → Option (Except LexicalFault Token) → Prop
  | matched {p : Pattern} {w extra rest : List Char} {o : Option (Except LexicalFault Token)}
      (hregular : ∀ v after, v ++ after = w ++ (extra ++ rest) → ¬PointBeforeMark v after)
      (hchosen : p.Chosen w (extra ++ rest)) (htakes : p.Takes w extra rest o) :
      Front (w ++ extra) rest o
  /-- A character that begins no match. -/
  | stray {c : Char} {rest : List Char} (hc : ∀ (p : Pattern) w, c :: w ∉ p.language) :
      Front [c] rest (some (.error .unexpectedCharacter))
  /-- The exception to longest match: the text is read as an integer, which fails. -/
  | pointBeforeMark {w rest : List Char} {fault : LiteralFault} (h : PointBeforeMark w rest)
      (hfault : Literal.decimalInteger w = .error fault) :
      Front w rest (some (.error (.invalidLiteral fault)))

/-- The source text from byte `start` on is read as these tokens and faults. -/
inductive Reads : (start : Nat) → List Char → List LexicalItem → Prop
  | done {start : Nat} : Reads start [] []
  | skipped {start : Nat} {w rest : List Char} {items : List LexicalItem} (h : Front w rest none)
      (hrest : Reads (start + (String.ofList w).utf8ByteSize) rest items) :
      Reads start (w ++ rest) items
  | item {start : Nat} {w rest : List Char} {items : List LexicalItem}
      {outcome : Except LexicalFault Token} (h : Front w rest (some outcome))
      (hrest : Reads (start + (String.ofList w).utf8ByteSize) rest items) :
      Reads start (w ++ rest) (⟨outcome, start, start + (String.ofList w).utf8ByteSize⟩ :: items)

/-! ## Members -/

namespace Pattern

section

variable {p : Char → Bool} {l : Language Char} {w : List Char}

theorem mem_oneOf_mul : w ∈ oneOf p * l ↔ ∃ c x, p c ∧ x ∈ l ∧ w = c :: x := by
  simp only [Language.mem_mul]
  constructor
  · rintro ⟨_, ⟨c, hc, rfl⟩, x, hx, rfl⟩
    exact ⟨c, x, hc, hx, rfl⟩
  · rintro ⟨c, x, hc, hx, rfl⟩
    exact ⟨[c], ⟨c, hc, rfl⟩, x, hx, rfl⟩

theorem mem_kstar_oneOf : w ∈ (oneOf p)∗ ↔ ∀ c ∈ w, p c := by
  rw [Language.mem_kstar]
  constructor
  · rintro ⟨ws, rfl, hws⟩ c hc
    obtain ⟨v, hv, hcv⟩ := List.mem_flatten.1 hc
    obtain ⟨d, hd, rfl⟩ := hws v hv
    obtain rfl := List.mem_singleton.1 hcv
    exact hd
  · intro hw
    refine ⟨w.map ([·]), (List.flatMap_singleton' w).symm.trans List.flatMap_def, ?_⟩
    intro v hv
    obtain ⟨c, hc, rfl⟩ := List.mem_map.1 hv
    exact ⟨c, hw c hc, rfl⟩

theorem mem_optionally : w ∈ optionally l ↔ w = [] ∨ w ∈ l := by
  rw [optionally, Language.mem_add, Language.mem_one]

theorem mem_anyOf {texts : List String} : w ∈ anyOf texts ↔ w ∈ texts.map String.toList := Iff.rfl

theorem mem_anyOf_mul {text : String} :
    w ∈ anyOf [text] * l ↔ ∃ x ∈ l, w = text.toList ++ x := by
  simp only [Language.mem_mul, mem_anyOf, List.map_cons, List.map_nil, List.mem_singleton,
    exists_eq_left]
  exact exists_congr fun x => and_congr_right fun _ => eq_comm

theorem mem_digits : w ∈ digits ↔ ∃ d x, isDigit d ∧ (∀ c ∈ x, isNumeralPart c) ∧ w = d :: x := by
  simp only [digits, mem_oneOf_mul, mem_kstar_oneOf]

theorem mem_signedMark : w ∈ signedMark ↔ ∃ m, Literal.isExponentMark m ∧
    (w = [m] ∨ w = [m, '+'] ∨ w = [m, '-']) := by
  simp only [signedMark, mem_oneOf_mul, mem_optionally, mem_anyOf]
  constructor
  · rintro ⟨m, x, hm, hx, rfl⟩
    exact ⟨m, hm, by simpa using hx⟩
  · rintro ⟨m, hm, rfl | rfl | rfl⟩
    · exact ⟨m, [], hm, by simp, rfl⟩
    · exact ⟨m, ['+'], hm, by simp, rfl⟩
    · exact ⟨m, ['-'], hm, by simp, rfl⟩

end

end Pattern

end Calculator
