import Calculator.Token.Basic

/-!
# Parse errors

Why a source text is no expression, and at which column.
-/

namespace Calculator

/-- Why a text is no expression. -/
inductive ParseFault where
  /-- A character that begins no token. -/
  | unexpectedCharacter (c : Char)
  | invalidLiteral (literal : String) (fault : LiteralFault)
  /-- A quote that is not closed on its line. -/
  | unterminatedString (quote : String)
  | unexpectedToken (token : Token)
  | unexpectedEndOfInput
  /-- A group without its closing parenthesis. -/
  | expectedClosingParen
  /-- A token after a complete expression. -/
  | trailingToken (token : Token)
  | nameNotAllowed (name : String)
  | stringNotAllowed (literal : String)
  | unsupportedOperator (symbol : String)
  | nestingTooDeep (limit : Nat)
  deriving DecidableEq

/-- A fault and the column that it points at, counted from one. -/
structure ParseError where
  fault : ParseFault
  column : Nat
  deriving DecidableEq

namespace ParseError

def quote (text : String) : String := "'" ++ text ++ "'"

def message (e : ParseError) : String :=
  let place := " at column " ++ naturalText e.column
  match e.fault with
  | .unexpectedCharacter c => "unexpected character " ++ quote c.toString ++ place
  | .invalidLiteral literal fault =>
    "invalid numeric literal " ++ quote literal ++ place ++ ": " ++ fault.message
  | .unterminatedString q => "unexpected token " ++ quote ("unterminated string " ++ q) ++ place
  | .unexpectedToken t => "unexpected token " ++ quote t.text ++ place
  | .unexpectedEndOfInput => "unexpected end of input" ++ place
  | .expectedClosingParen => "expected closing parenthesis ')' for '('" ++ place
  | .trailingToken t => "extra tokens after expression: " ++ quote t.text ++ place
  | .nameNotAllowed name => "names are not allowed: " ++ quote name ++ place
  | .stringNotAllowed literal =>
    "only numeric constants are allowed, found string " ++ literal ++ place
  | .unsupportedOperator symbol => "unsupported operator " ++ quote symbol ++ place
  | .nestingTooDeep limit =>
    "expression nested too deeply (limit " ++ naturalText limit ++ ")" ++ place

end ParseError

/-- The fault of a token that cannot stand where it was found: names, quoted texts and symbols are
never allowed, any other token only not here. -/
def Token.refusal : Token → ParseFault
  | .name s => .nameNotAllowed s
  | .quoted s => .stringNotAllowed s
  | .symbol s => .unsupportedOperator s
  | t => .unexpectedToken t

/-- The fault of a token after a complete expression. -/
def Token.trailingFault : Token → ParseFault
  | .name s => .nameNotAllowed s
  | .quoted s => .stringNotAllowed s
  | .symbol s => .unsupportedOperator s
  | t => .trailingToken t

end Calculator
