import Calculator.Expr.Basic
import Calculator.Parser.Placed

/-!
# The grammar

Expressions are parsed by descent through five levels, lowest precedence first:

    additive       := multiplicative (("+" | "-") multiplicative)*
    multiplicative := unary (("*" | "/" | "//" | "%") unary)*
    unary          := ("+" | "-") unary | power
    power          := primary ("**" unary)?
    primary        := NUMBER | "(" additive ")"

What stands in a group, after a sign or in an exponent is nested one level deeper, and the parser
goes only so many levels deep. The recursion is on the levels that are left, so it is bounded by
the limit and not by the input; the loops for repeated operators run over the tokens.

* `Outcome`: a tree and the tokens after it, or an error and where the parser stopped.
* `Parser`: a function to outcomes that consumes a token whenever it succeeds.
* `parser setting levels level`: the parser of a level of the grammar.
-/

namespace Calculator

/-- What a parser makes of the tokens before it. -/
inductive Outcome where
  | done (tree : Expr) (rest : List Placed)
  /-- The error, the tokens that were not consumed, and the nesting levels that were left. -/
  | failed (error : ParseError) (rest : List Placed) (levels : Nat)
  deriving DecidableEq

/-- A parser of trees. When it succeeds it has consumed at least one token. -/
structure Parser where
  run : List Placed → Outcome
  consumes : ∀ {ts e rest}, run ts = .done e rest → rest.length < ts.length

/-- What a parser needs to know of its surroundings to word its errors. -/
structure Setting where
  /-- The limit on nesting. -/
  limit : Nat
  /-- The column just past the end of the source. -/
  endColumn : Nat

/-- The levels of the grammar. -/
inductive Level where
  | additive
  | multiplicative
  | unary
  | power
  | primary
  deriving DecidableEq

namespace Parser

/-! ## Chains of operators -/

/-- Goes on with the operators accepted, after the left operand `left`. -/
def chainFrom (accepts : BinaryOp → Bool) (operand : Parser) (left : Expr) (ts : List Placed) :
    Outcome :=
  match ts with
  | ⟨.operator op, column⟩ :: rest =>
    if accepts op then
      match _h : operand.run rest with
      | .done right rest' => chainFrom accepts operand (.binary op left right column) rest'
      | .failed error rest' levels => .failed error rest' levels
    else .done left ts
  | ts => .done left ts
termination_by ts.length
decreasing_by
  have := operand.consumes _h
  simp only [List.length_cons]
  omega

theorem chainFrom_length_le {accepts : BinaryOp → Bool} {operand : Parser} {left e : Expr}
    {ts rest : List Placed} (h : chainFrom accepts operand left ts = .done e rest) :
    rest.length ≤ ts.length := by
  fun_induction chainFrom accepts operand left ts with
  | case1 left op column ts' _ right rest' hrun ih =>
    have := ih h
    have := operand.consumes hrun
    simp only [List.length_cons]
    omega
  | case2 => cases h
  | case3 => cases h; exact Nat.le_refl _
  | case4 => cases h; exact Nat.le_refl _

/-- Operands joined by the operators accepted, grouped from the left. -/
def chain (accepts : BinaryOp → Bool) (operand : Parser) : Parser where
  run ts :=
    match operand.run ts with
    | .done left rest => chainFrom accepts operand left rest
    | .failed error rest levels => .failed error rest levels
  consumes {ts e rest} h := by
    cases hrun : operand.run ts with
    | done left rest' =>
      rw [hrun] at h
      exact Nat.lt_of_le_of_lt (chainFrom_length_le h) (operand.consumes hrun)
    | failed => rw [hrun] at h; cases h

/-! ## Nested parsers -/

/-- The parsers for what is nested one level deeper. -/
structure Nested where
  /-- What stands after a sign or in an exponent. -/
  unary : Parser
  /-- What stands in a group. -/
  additive : Parser

/-- A place in the nesting: the setting, how many levels are left, and the parsers of the next
level if one is left. -/
structure Place where
  setting : Setting
  levels : Nat
  nested : Option (Thunk Nested)

namespace Place

/-- Parses what the token at `column` opens, one level deeper. -/
def descend (p : Place) (column : Nat) (select : Nested → Parser) (ts : List Placed) : Outcome :=
  match p.nested with
  | some nested => (select nested.get).run ts
  | none => .failed ⟨.nestingTooDeep p.setting.limit, column⟩ ts p.levels

theorem descend_consumes {p : Place} {column : Nat} {select : Nested → Parser} {ts : List Placed}
    {e : Expr} {rest : List Placed} (h : p.descend column select ts = .done e rest) :
    rest.length < ts.length := by
  unfold descend at h
  split at h
  · exact (select _).consumes h
  · cases h

/-- Closes the group opened at `column` after the tree `e`. -/
def closeGroup (p : Place) (column : Nat) (e : Expr) : List Placed → Outcome
  | ⟨.rightParen, _⟩ :: rest => .done e rest
  | t :: rest => .failed t.refusal rest p.levels
  | [] => .failed ⟨.expectedClosingParen, column⟩ [] p.levels

theorem closeGroup_length_le {p : Place} {column : Nat} {e e' : Expr} {ts rest : List Placed}
    (h : p.closeGroup column e ts = .done e' rest) : rest.length ≤ ts.length := by
  unfold closeGroup at h
  split at h
  · cases h; simp
  · cases h
  · cases h

/-- A number or a group. -/
def primaryOutcome (p : Place) : List Placed → Outcome
  | [] => .failed ⟨.unexpectedEndOfInput, p.setting.endColumn⟩ [] p.levels
  | ⟨.integer n, column⟩ :: ts => .done (.literal (.integer n) column) ts
  | ⟨.float x, column⟩ :: ts => .done (.literal (.float x) column) ts
  | ⟨.leftParen, column⟩ :: ts =>
    match p.descend column Nested.additive ts with
    | .done e rest => p.closeGroup column e rest
    | .failed error rest levels => .failed error rest levels
  | t :: ts => .failed t.refusal ts p.levels

def primary (p : Place) : Parser where
  run := p.primaryOutcome
  consumes {ts e rest} h := by
    unfold primaryOutcome at h
    split at h
    · cases h
    · cases h; simp
    · cases h; simp
    · split at h
      · next hd =>
        have := descend_consumes hd
        have := closeGroup_length_le h
        simp only [List.length_cons]
        omega
      · cases h
    · cases h

/-- The exponent after a base, if there is one. -/
def powerOutcome (p : Place) (base : Expr) : List Placed → Outcome
  | ⟨.operator .pow, column⟩ :: ts =>
    match p.descend column Nested.unary ts with
    | .done exponent rest => .done (.binary .pow base exponent column) rest
    | .failed error rest levels => .failed error rest levels
  | ts => .done base ts

/-- A primary with an optional exponent. -/
def power (p : Place) : Parser where
  run ts :=
    match p.primary.run ts with
    | .done base rest => p.powerOutcome base rest
    | .failed error rest levels => .failed error rest levels
  consumes {ts e rest} h := by
    split at h
    · next hp =>
      have := p.primary.consumes hp
      unfold powerOutcome at h
      split at h
      · split at h
        · next hd =>
          have := descend_consumes hd
          cases h
          simp only [List.length_cons] at *
          omega
        · cases h
      · cases h; assumption
    · cases h

/-- A sign and its operand, or a power. -/
def unaryOutcome (p : Place) (ts : List Placed) : Outcome :=
  match ts with
  | ⟨.operator op, column⟩ :: rest =>
    match op.sign? with
    | some sign =>
      match p.descend column Nested.unary rest with
      | .done e rest' => .done (.signed sign e column) rest'
      | .failed error rest' levels => .failed error rest' levels
    | none => p.power.run ts
  | _ => p.power.run ts

def unary (p : Place) : Parser where
  run := p.unaryOutcome
  consumes {ts e rest} h := by
    unfold unaryOutcome at h
    split at h
    · split at h
      · split at h
        · next hd =>
          have := descend_consumes hd
          cases h
          simp only [List.length_cons]
          omega
        · cases h
      · exact p.power.consumes h
    · exact p.power.consumes h

def multiplicative (p : Place) : Parser := chain BinaryOp.isMultiplicative p.unary

def additive (p : Place) : Parser := chain BinaryOp.isAdditive p.multiplicative

/-- The parser of a level of the grammar. -/
def parser (p : Place) : Level → Parser
  | .additive => p.additive
  | .multiplicative => p.multiplicative
  | .unary => p.unary
  | .power => p.power
  | .primary => p.primary

end Place

/-- The place with so many levels left. -/
def place (setting : Setting) : Nat → Place
  | 0 => ⟨setting, 0, none⟩
  | levels + 1 =>
    ⟨setting, levels + 1,
      some ⟨fun _ => ⟨(place setting levels).unary, (place setting levels).additive⟩⟩⟩

end Parser

/-- The parser of a level of the grammar, with so many nesting levels left. -/
def parser (setting : Setting) (levels : Nat) (level : Level) : Parser :=
  (Parser.place setting levels).parser level

end Calculator
