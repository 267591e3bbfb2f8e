import Calculator.Token.Basic

/-!
# Lexemes

A source text is cut into lexemes: at each place the longest text that has one of the shapes of
`Shape`. The cut loses nothing; blanks and comments are lexemes as well.

* `measure c cs`: the shape of the lexeme that starts with `c`, and how many characters of `cs`
  belong to it.
* `cut`: the lexemes of a text, from first to last.
* `Lexeme.read?`: the token or fault that a lexeme stands for; none for blanks and comments.
-/

namespace Calculator

/-- The shapes of lexemes. -/
inductive Shape where
  | blank
  | comment
  | decimalInteger
  /-- An integer whose radix is marked: `0x1f`. -/
  | markedInteger
  | float
  /-- Digits and a point before a letter `e` that begins no exponent. -/
  | pointBeforeMark
  | name
  | operator (op : BinaryOp)
  | leftParen
  | rightParen
  | symbol
  | quoted
  /-- A quote that is not closed on its line. -/
  | openQuote
  /-- A character that begins no other shape. -/
  | stray
  deriving DecidableEq

/-- Why a lexeme is no token. -/
inductive LexicalFault where
  | unexpectedCharacter
  | unterminatedString
  | invalidLiteral (fault : LiteralFault)
  deriving DecidableEq

/-- A piece of source text and its shape. -/
structure Lexeme where
  shape : Shape
  chars : List Char
  deriving DecidableEq

namespace Lexeme

/-! ## Character classes -/

def isBlank (c : Char) : Bool := c = ' ' ∨ c = '\t' ∨ c = '\r' ∨ c = '\n' ∨ c = '\x0c'

def isLineEnd (c : Char) : Bool := c = '\n' ∨ c = '\r'

def isDigit (c : Char) : Bool := '0' ≤ c ∧ c ≤ '9'

def isLetter (c : Char) : Bool := ('a' ≤ c ∧ c ≤ 'z') ∨ ('A' ≤ c ∧ c ≤ 'Z')

/-- A character that goes on in a numeral: a digit or a separator. -/
def isNumeralPart (c : Char) : Bool := isDigit c || c = '_'

def isNameStart (c : Char) : Bool := isLetter c || c = '_'

/-- A character that goes on in a name or after a radix mark. -/
def isNamePart (c : Char) : Bool := isDigit c || isNameStart c

def isRadixMark (c : Char) : Bool := "xXoObB".toList.contains c

/-- The symbols of one character that are no operators. -/
def isSymbol (c : Char) : Bool := "<>=!&|^~@,;:[]\x7b\x7d.".toList.contains c

/-- The symbols of two characters. -/
def isDoubleSymbol (c d : Char) : Bool :=
  match c, d with
  | '=', '=' | '!', '=' | '<', '=' | '>', '=' | '<', '<' | '>', '>' | ':', '=' | '-', '>' => true
  | _, _ => false

/-- How many characters at the front of `cs` have the property. -/
def runLength (p : Char → Bool) (cs : List Char) : Nat := (cs.takeWhile p).length

/-! ## Measures -/

/-- The length of the digits after an exponent mark and its sign, with `before` characters counted
before them; zero if there are none. -/
def exponentDigitsLength (before : Nat) : List Char → Nat
  | d :: cs => if isDigit d then before + 1 + runLength isNumeralPart cs else 0
  | [] => 0

/-- The length of the exponent at the front of a text; zero if there is none. -/
def exponentLength : List Char → Nat
  | mark :: cs =>
    if Literal.isExponentMark mark then
      match cs with
      | '+' :: ds | '-' :: ds => exponentDigitsLength 2 ds
      | ds => exponentDigitsLength 1 ds
    else 0
  | [] => 0

/-- The length of the fraction digits at the front of a text. -/
def fractionLength : List Char → Nat
  | d :: cs => if isDigit d then 1 + runLength isNumeralPart cs else 0
  | [] => 0

/-- The lexeme at a digit, by the characters after it, where no radix mark follows a zero. A point
after the digits belongs to them, also before a letter `e` that begins no exponent; such a text is
no float. -/
def measureNumeral (cs : List Char) : Shape × Nat :=
  let whole := runLength isNumeralPart cs
  match cs.drop whole with
  | '.' :: after =>
    let fraction := fractionLength after
    let exponent := exponentLength (after.drop fraction)
    if fraction = 0 ∧ exponent = 0 ∧ after.head?.any Literal.isExponentMark then
      (.pointBeforeMark, whole + 1)
    else
      (.float, whole + 1 + fraction + exponent)
  | after =>
    let exponent := exponentLength after
    if exponent = 0 then (.decimalInteger, whole) else (.float, whole + exponent)

/-- The lexeme at a digit. -/
def measureDigit (c : Char) (cs : List Char) : Shape × Nat :=
  if c = '0' ∧ cs.head?.any isRadixMark then
    (.markedInteger, 1 + runLength isNamePart (cs.drop 1))
  else
    measureNumeral cs

/-- The lexeme at a point. -/
def measurePoint (cs : List Char) : Shape × Nat :=
  let fraction := fractionLength cs
  if fraction = 0 then (.symbol, 0) else (.float, fraction + exponentLength (cs.drop fraction))

/-- The lexeme at a quote. -/
def measureQuote (quote : Char) (cs : List Char) : Shape × Nat :=
  let body := runLength (fun c => c ≠ quote ∧ !isLineEnd c) cs
  if (cs.drop body).head? = some quote then (.quoted, body + 1) else (.openQuote, 0)

/-- The operator or symbol at a character, by the character after it. -/
def measureSymbol (c : Char) (next : Option Char) : Shape × Nat :=
  if next.any (isDoubleSymbol c) then (.symbol, 1)
  else
    match c, next with
    | '*', some '*' => (.operator .pow, 1)
    | '*', _ => (.operator .mul, 0)
    | '/', some '/' => (.operator .floorDiv, 1)
    | '/', _ => (.operator .div, 0)
    | '%', _ => (.operator .mod, 0)
    | '+', _ => (.operator .add, 0)
    | '-', _ => (.operator .sub, 0)
    | '(', _ => (.leftParen, 0)
    | ')', _ => (.rightParen, 0)
    | c, _ => if isSymbol c then (.symbol, 0) else (.stray, 0)

/-- The shape of the lexeme that starts with `c`, and how many characters after `c` belong to it. -/
def measure (c : Char) (cs : List Char) : Shape × Nat :=
  if isBlank c then (.blank, runLength isBlank cs)
  else if c = '#' then (.comment, runLength (!isLineEnd ·) cs)
  else if isDigit c then measureDigit c cs
  else if c = '.' then measurePoint cs
  else if isNameStart c then (.name, runLength isNamePart cs)
  else if c = '\x27' ∨ c = '\x22' then measureQuote c cs
  else measureSymbol c cs.head?

/-- The lexemes of a text. -/
def cut : List Char → List Lexeme
  | [] => []
  | c :: cs => ⟨(measure c cs).1, c :: cs.take (measure c cs).2⟩ :: cut (cs.drop (measure c cs).2)
termination_by cs => cs.length
decreasing_by simp only [List.length_drop, List.length_cons]; omega

/-! ## Reading -/

def text (l : Lexeme) : String := String.ofList l.chars

/-- The token of a literal, or the fault of its text. -/
def readLiteral {α : Type} (token : α → Token) (value : Except LiteralFault α) :
    Except LexicalFault Token :=
  match value with
  | .ok a => .ok (token a)
  | .error fault => .error (.invalidLiteral fault)

/-- The token or fault that a lexeme stands for. -/
def read? (l : Lexeme) : Option (Except LexicalFault Token) :=
  match l.shape with
  | .blank | .comment => none
  | .decimalInteger | .pointBeforeMark =>
    some (readLiteral .integer (Literal.decimalInteger l.chars))
  | .markedInteger => some (readLiteral .integer (Literal.markedInteger l.chars))
  | .float => some (readLiteral .float (Literal.decimalFloat l.chars))
  | .name => some (.ok (.name l.text))
  | .operator op => some (.ok (.operator op))
  | .leftParen => some (.ok .leftParen)
  | .rightParen => some (.ok .rightParen)
  | .symbol => some (.ok (.symbol l.text))
  | .quoted => some (.ok (.quoted l.text))
  | .openQuote => some (.error .unterminatedString)
  | .stray => some (.error .unexpectedCharacter)

/-- The length of a lexeme in UTF-8 bytes. -/
def byteLength (l : Lexeme) : Nat := l.text.utf8ByteSize

end Lexeme

/-- A token or fault with the bytes of the source that it spans. -/
structure LexicalItem where
  outcome : Except LexicalFault Token
  start : Nat
  stop : Nat

/-- The tokens and faults of lexemes of which the first starts at byte `start`. -/
def itemsFrom (start : Nat) : List Lexeme → List LexicalItem
  | [] => []
  | l :: ls =>
    match l.read? with
    | none => itemsFrom (start + l.byteLength) ls
    | some outcome => ⟨outcome, start, start + l.byteLength⟩ :: itemsFrom (start + l.byteLength) ls

/-- The tokens and faults of a source, faults without an end to the reading. -/
def lexicalItems (source : String) : List LexicalItem := itemsFrom 0 (Lexeme.cut source.toList)

end Calculator
