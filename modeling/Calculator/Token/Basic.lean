import Calculator.Operator.Basic
import Calculator.Token.Literal

/-!
# Tokens

The words of an expression. Names, quoted texts and symbols without arithmetic meaning are tokens
too, so that the parser can say what it refuses.

These are the tokens that a source can have. An integer token has no sign, since a minus sign is a
token of its own, and what a source skips, blanks and comments, is no token at all. So a list of
tokens that is put together by hand has none of these either.
-/

namespace Calculator

/-- A token that a source can have: integers are not negative, and there are no blanks and comments
among the tokens. -/
inductive Token where
  | float (value : Double)
  | integer (value : Nat)
  | operator (op : BinaryOp)
  | leftParen
  | rightParen
  | name (text : String)
  /-- A text with its quotes. -/
  | quoted (text : String)
  | symbol (text : String)
  deriving DecidableEq

namespace Token

/-- Floats in messages are always plain, and integral ones have no fraction. -/
def layout : Layout where
  isPlain _ := true
  markIntegral := false
  plusSign := false
  exponentWidth := 1
  nan := "NaN"

/-- The text of a token in messages. -/
def text : Token → String
  | .float x => layout.text x
  | .integer n => naturalText n
  | .operator op => op.symbol
  | .leftParen => "("
  | .rightParen => ")"
  | .name s | .quoted s | .symbol s => s

/-- The binary operator that a token stands for. -/
def operator? : Token → Option BinaryOp
  | .operator op => some op
  | _ => none

end Token

end Calculator
