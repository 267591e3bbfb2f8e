import Calculator.Calculation
import Calculator.Expr.Outline
import Calculator.Session.Line

/-!
# Transcripts

What a session writes, as a function of its settings and its input.

* `answer`: what an expression gets: its outline if wanted, then its value or its error.
* `inputLines`: input bytes split at line feeds.
* `converse`: the transcript of a session over lines of input.
-/

namespace Calculator

/-- The settings of a session. -/
structure Settings where
  /-- The limit on nesting. -/
  limit : Nat := defaultNesting
  /-- Whether the outline of a tree is written before its value. -/
  showOutline : Bool := false
  deriving DecidableEq

/-- What is written to standard output and to standard error. -/
structure Transcript where
  output : String := ""
  errors : String := ""
  deriving DecidableEq

namespace Transcript

/-- One transcript after another. -/
def append (s t : Transcript) : Transcript := ⟨s.output ++ t.output, s.errors ++ t.errors⟩

instance : Append Transcript := ⟨append⟩

/-- A transcript of one error. -/
def error (message : String) : Transcript := { errors := "Error: " ++ message ++ "\n" }

/-- A transcript of one value. -/
def value (x : Number) : Transcript := { output := x.text ++ "\n" }

end Transcript

/-- The transcript of an expression, and whether it has a value. -/
def answer (settings : Settings) (source : String) : Transcript × Bool :=
  match parseWithin source settings.limit with
  | .error e => (.error e.message, false)
  | .ok tree =>
    let outline : Transcript := { output := if settings.showOutline then tree.outline else "" }
    match (Evaluator.forNesting settings.limit).value tree with
    | .error e => (outline ++ .error e.message, false)
    | .ok x => (outline ++ .value x, true)

/-! ## Input -/

def lineFeed : UInt8 := 10

def carriageReturn : UInt8 := 13

/-- A line from its reversed bytes, without the carriage return that ended it with its line feed. -/
def endedLine : List UInt8 → List UInt8
  | b :: bs => if b = carriageReturn then bs.reverse else (b :: bs).reverse
  | [] => []

/-- The lines of bytes that go on a line whose reversed bytes are `begun`. -/
def inputLinesFrom (begun : List UInt8) : List UInt8 → List (List UInt8)
  | [] => if begun.isEmpty then [] else [begun.reverse]
  | b :: bs =>
    if b = lineFeed then endedLine begun :: inputLinesFrom [] bs
    else inputLinesFrom (b :: begun) bs

/-- The lines of input: ended by a line feed, which a carriage return may precede; a last line may
lack its end. -/
def inputLines (bytes : List UInt8) : List (List UInt8) := inputLinesFrom [] bytes

/-- The text that bytes encode in UTF-8. -/
def decodeLine? (bytes : List UInt8) : Option String := String.fromUTF8? ⟨bytes.toArray⟩

/-- The message for input that is not UTF-8. -/
def unreadableMessage : String := "could not read stdin: stream did not contain valid UTF-8"

/-- The transcript of a session over lines of input. A line that ends the session or is not UTF-8
is the last that is read. -/
def converse (settings : Settings) : List (List UInt8) → Transcript
  | [] => {}
  | line :: lines =>
    match decodeLine? line with
    | none => .error unreadableMessage
    | some text =>
      match Line.ofText text with
      | .quit => {}
      | .empty => converse settings lines
      | .expression source => (answer settings source).1 ++ converse settings lines

end Calculator
