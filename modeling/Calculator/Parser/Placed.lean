import Calculator.Parser.Error
import Calculator.Token.Lexeme

/-!
# Placed tokens

Tokens with the columns at which they stand. Columns count characters from one.

* `tokenize`: the placed tokens of a source, or the error of its first fault.
-/

namespace Calculator

/-- A token and its column. -/
structure Placed where
  token : Token
  column : Nat
  deriving DecidableEq

/-- The error of a token that cannot stand where it was found. -/
def Placed.refusal (t : Placed) : ParseError := ⟨t.token.refusal, t.column⟩

/-- The parse fault of a lexeme with a lexical fault. -/
def Lexeme.parseFault (l : Lexeme) : LexicalFault → ParseFault
  | .unexpectedCharacter => .unexpectedCharacter (l.chars.headD default)
  | .unterminatedString => .unterminatedString l.text
  | .invalidLiteral fault => .invalidLiteral l.text fault

/-- The placed tokens of lexemes of which the first stands at `column`. -/
def placedFrom (column : Nat) : List Lexeme → Except ParseError (List Placed)
  | [] => .ok []
  | l :: ls =>
    match l.read? with
    | none => placedFrom (column + l.chars.length) ls
    | some (.ok token) => do return ⟨token, column⟩ :: (← placedFrom (column + l.chars.length) ls)
    | some (.error fault) => .error ⟨l.parseFault fault, column⟩

/-- The placed tokens of a source. -/
def tokenize (source : String) : Except ParseError (List Placed) :=
  placedFrom 1 (Lexeme.cut source.toList)

end Calculator
