import Calculator.Parser.Grammar

/-!
# Cursors

A cursor holds the tokens that are left to parse, the nesting depth that is open and its limit.
Parsing a level of the grammar moves it forward. A parser that fails leaves the cursor where it
stopped: the tokens consumed stay consumed, and the nesting levels entered stay open.

* `Cursor.parseLevel`, `Cursor.parseAll`: parse a level of the grammar, or an expression that ends
  with the tokens.
* `parse`: the expression that a source text denotes.
-/

namespace Calculator

/-- The limit on nesting unless another is set. -/
def defaultNesting : Nat := 200

/-- A place among the tokens of an expression. -/
structure Cursor where
  tokens : List Placed
  /-- How many nesting levels are open. -/
  depth : Nat
  /-- How many nesting levels may be open. -/
  limit : Nat
  /-- The column just past the end of the source. -/
  endColumn : Nat
  deriving DecidableEq

namespace Cursor

/-- The cursor before the first token. -/
def start (tokens : List Placed) (endColumn limit : Nat) : Cursor := ⟨tokens, 0, limit, endColumn⟩

/-- The next token. -/
def peek (c : Cursor) : Option Placed := c.tokens.head?

/-- The cursor after the next token. -/
def advance (c : Cursor) : Cursor := { c with tokens := c.tokens.drop 1 }

/-- Opens a nesting level for the token at `column`. -/
def enter (c : Cursor) (column : Nat) : Except ParseError Cursor :=
  if c.limit ≤ c.depth then .error ⟨.nestingTooDeep c.limit, column⟩
  else .ok { c with depth := c.depth + 1 }

/-- Closes a nesting level. -/
def leave (c : Cursor) : Cursor := { c with depth := c.depth - 1 }

/-- How many more levels may be opened. -/
def levels (c : Cursor) : Nat := c.limit - c.depth

/-- Parses a level of the grammar. -/
def parseLevel (c : Cursor) (level : Level) : Except ParseError Expr × Cursor :=
  match (parser ⟨c.limit, c.endColumn⟩ c.levels level).run c.tokens with
  | .done e rest => (.ok e, { c with tokens := rest })
  | .failed error rest levels =>
    (.error error, { c with tokens := rest, depth := c.depth + (c.levels - levels) })

/-- Parses an expression and requires the tokens to end there. -/
def parseAll (c : Cursor) : Except ParseError Expr × Cursor :=
  match c.parseLevel .additive with
  | (.ok e, c') =>
    match c'.peek with
    | none => (.ok e, c')
    | some t => (.error ⟨t.token.trailingFault, t.column⟩, c'.advance)
  | (.error error, c') => (.error error, c')

end Cursor

/-- The expression that a source text denotes, with a limit on nesting. -/
def parseWithin (source : String) (limit : Nat) : Except ParseError Expr := do
  let tokens ← tokenize source
  (Cursor.start tokens (source.length + 1) limit).parseAll.1

/-- The expression that a source text denotes. -/
def parse (source : String) : Except ParseError Expr := parseWithin source defaultNesting

end Calculator
