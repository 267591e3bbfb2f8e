/-!
# Lines

What a line of a session asks for, once the white space around it is taken off.

* `isWhiteSpace`: the characters with the Unicode property White_Space.
* `trim`: a text without the white space at its ends.
* `Line.ofText`: what a line asks for.
-/

namespace Calculator

/-- The ranges of the Unicode property White_Space, ends included. -/
def whiteSpaceRanges : List (Nat × Nat) :=
  [(0x9, 0xD), (0x20, 0x20), (0x85, 0x85), (0xA0, 0xA0), (0x1680, 0x1680), (0x2000, 0x200A),
    (0x2028, 0x2029), (0x202F, 0x202F), (0x205F, 0x205F), (0x3000, 0x3000)]

/-- A character with the Unicode property White_Space. -/
def isWhiteSpace (c : Char) : Bool :=
  whiteSpaceRanges.any fun range => range.1 ≤ c.toNat && c.toNat ≤ range.2

/-- The characters without the white space at both ends. -/
def trimChars (cs : List Char) : List Char :=
  ((cs.dropWhile isWhiteSpace).reverse.dropWhile isWhiteSpace).reverse

/-- The text without the white space at both ends. -/
def trim (text : String) : String := String.ofList (trimChars text.toList)

/-- The text with its ASCII letters in lower case. -/
def foldCase (text : String) : String := String.ofList (text.toList.map Char.toLower)

/-- What a line asks for. -/
inductive Line where
  /-- Nothing. -/
  | empty
  /-- The end of the session. -/
  | quit
  /-- The value of an expression. -/
  | expression (source : String)
  deriving DecidableEq

/-- What a line asks for. The words that end a session may be written in any case. -/
def Line.ofText (line : String) : Line :=
  let text := trim line
  if text.isEmpty then .empty
  else if foldCase text = "quit" ∨ foldCase text = "exit" then .quit
  else .expression text

/-- Stands at the start of a session at a terminal. -/
def greeting : String := "Simple calculator REPL. Type 'quit' or 'exit' to leave."

end Calculator
