import Calculator.Session.Transcript

/-!
# The command line

    [--max-depth N] [--debug-parse] [-V | --version] [--] [WORD...]

Options count only before the first word of the expression; from there on every word belongs to it,
also one that looks like an option. Short flags may be written together, and the first of them
decides. Without a word, expressions are read from standard input, line by line.

Which request the arguments make, and the status of a request that fails, are those of the parser of
command lines that the calculator uses. Its texts are not kept: what is written about an option that
cannot be followed, and the usage, have a wording of their own here.

* `Request.ofArguments`: what the arguments ask for.
* `execute`: what is written, and the exit status.
-/

namespace Calculator

def programName : String := "reckon"

def programVersion : String := "0.1.0"

/-- What the arguments ask for. -/
inductive Request where
  | version
  | usage
  /-- An option that cannot be followed; the wording of the reason is not that of the program. -/
  | misuse (reason : String)
  /-- The value of one expression. -/
  | evaluate (settings : Settings) (source : String)
  /-- The values of the lines of standard input. -/
  | session (settings : Settings)
  deriving DecidableEq

/-- The number that a text of decimal digits, perhaps after a plus sign, denotes, if it is a limit
that can be set. -/
def readLimit? (text : String) : Option Nat :=
  let digits := match text.toList with
    | '+' :: cs => cs
    | cs => cs
  if !digits.isEmpty && digits.all (isDigitOf 10) && numeralValue 10 digits ≤ greatestLimit then
    some (numeralValue 10 digits)
  else none

namespace Request

def limitOption : String := "--max-depth"

/-- The text after `option=`, if the argument has that form. -/
def attached? (option argument : String) : Option String :=
  let lead := option.toList ++ ['=']
  if lead.isPrefixOf argument.toList then
    some (String.ofList (argument.toList.drop lead.length))
  else none

/-- The options that take no value. -/
def flags : List String := ["--debug-parse", "--version", "--help"]

/-- The first of the short flags that an argument consists of after its minus sign. -/
def shortFlag? (argument : String) : Option Char :=
  match argument.toList with
  | '-' :: flag :: more =>
    if (flag :: more).all fun c => c = 'V' ∨ c = 'h' then some flag else none
  | _ => none

/-- The request for the words of an expression. -/
def ofWords (settings : Settings) (words : List String) : Request :=
  if words.isEmpty then .session settings else .evaluate settings (" ".intercalate words)

/-- The settings with a limit, read from its text; an option counts once. -/
def withLimit (settings : Settings) (given : Bool) (text : String) : Except String Settings :=
  if given then .error (limitOption ++ " was given twice")
  else
    match readLimit? text with
    | some n => .ok { settings with limit := n }
    | none => .error (limitOption ++ " needs a whole number, not '" ++ text ++ "'")

/-- What the arguments ask for after options that led to `settings`; `limitGiven` says whether the
limit was among them. -/
def ofRest (settings : Settings) (limitGiven : Bool) : List String → Request
  | [] => .session settings
  | argument :: rest =>
    if argument = "--" then ofWords settings rest
    else if shortFlag? argument = some 'V' ∨ argument = "--version" then .version
    else if shortFlag? argument = some 'h' ∨ argument = "--help" then .usage
    else if argument = "--debug-parse" then
      if settings.showOutline then .misuse "--debug-parse was given twice"
      else ofRest { settings with showOutline := true } limitGiven rest
    else if argument = limitOption then
      match rest with
      | [] => .misuse (limitOption ++ " needs a value")
      | text :: rest' =>
        match withLimit settings limitGiven text with
        | .ok settings' => ofRest settings' true rest'
        | .error reason => .misuse reason
    else
      match attached? limitOption argument with
      | some text =>
        match withLimit settings limitGiven text with
        | .ok settings' => ofRest settings' true rest
        | .error reason => .misuse reason
      | none =>
        match flags.find? fun flag => (attached? flag argument).isSome with
        | some flag => .misuse (flag ++ " takes no value")
        | none => ofWords settings (argument :: rest)

/-- What the arguments ask for. -/
def ofArguments (arguments : List String) : Request := ofRest {} false arguments

end Request

/-- The exit status of a request that fails. -/
def failedStatus : Nat := 2

/-- What a run writes, and its exit status. -/
structure Report where
  transcript : Transcript
  status : Nat
  deriving DecidableEq

/-- The usage, in short; the program's own has more to say. -/
def usageText : String :=
  "Usage: " ++ programName ++ " [--max-depth N] [--debug-parse] [EXPRESSION]...\n"

/-- Carries out a request with the bytes of standard input. -/
def Request.execute (request : Request) (input : List UInt8) : Report :=
  match request with
  | .version => ⟨{ output := programName ++ " " ++ programVersion ++ "\n" }, 0⟩
  | .usage => ⟨{ output := usageText }, 0⟩
  | .misuse reason => ⟨.error reason, failedStatus⟩
  | .evaluate settings source =>
    let (transcript, hasValue) := answer settings source
    ⟨transcript, if hasValue then 0 else failedStatus⟩
  | .session settings => ⟨converse settings (inputLines input), 0⟩

/-- What a run with these arguments and this input writes, and its exit status. -/
def execute (arguments : List String) (input : List UInt8) : Report :=
  (Request.ofArguments arguments).execute input

end Calculator
