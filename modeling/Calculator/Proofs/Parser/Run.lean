import Calculator.Proofs.Parser.Phrase

/-!
# Runs of the parser

`Run setting levels goal ts o`: with so many nesting levels left, parsing `goal` from the tokens
`ts` has the outcome `o`. Each constructor is one way in which a parser of
`Calculator/Parser/Grammar.lean` ends; what holds of every run is then proved by induction, one
case for each way.

* `Goal`: what is parsed: a level of the grammar, a level one nesting level deeper, or the rest of
  a chain after its left operand.
* `run_iff`: the runs of a goal are those of its parser, so each goal has exactly one outcome.
* `Run.avoids`: after a success no operator follows that the phrase would go on with.
-/

namespace Calculator

/-- The tokens do not start with an operator that has the property. -/
def Avoids (property : BinaryOp → Bool) (ts : List Placed) : Prop :=
  ∀ op column rest, ts = ⟨.operator op, column⟩ :: rest → property op = false

namespace Avoids

variable {property : BinaryOp → Bool}

theorem nil : Avoids property [] := by
  intro op column rest h
  cases h

theorem cons {t : Placed} {ts : List Placed} (h : ∀ op, t.token = .operator op → property op = false) :
    Avoids property (t :: ts) := by
  rintro op column rest ⟨⟩
  exact h op rfl

theorem head {op : BinaryOp} {column : Nat} {ts : List Placed}
    (h : Avoids property (⟨.operator op, column⟩ :: ts)) : property op = false := h op column ts rfl

theorem mono {property' : BinaryOp → Bool} {ts : List Placed} (h : Avoids property ts)
    (hp : ∀ op, property op = false → property' op = false) : Avoids property' ts :=
  fun op column rest hts => hp op (h op column rest hts)

end Avoids

/-- A token that begins a number or a group. -/
def Token.beginsPrimary : Token → Bool
  | .integer _ | .float _ | .leftParen => true
  | _ => false

/-- The power operator. -/
def BinaryOp.isPower (op : BinaryOp) : Bool := op = .pow

/-- The operators that are signs before an operand. -/
def BinaryOp.isSign (op : BinaryOp) : Bool := op.sign?.isSome

/-- The operators that a complete phrase of the level would go on with. -/
def Level.continues : Level → BinaryOp → Bool
  | .primary, _ => false
  | .power, op | .unary, op => op.isPower
  | .multiplicative, op => op.isPower || op.isMultiplicative
  | .additive, _ => true

/-- What is parsed. -/
inductive Goal where
  | level (l : Level)
  /-- A level inside of what the token at `column` opens. -/
  | nested (column : Nat) (l : Level)
  /-- The rest of a chain after its left operand. -/
  | rest (c : Chain) (left : Expr)

/-- How parsing a goal can go. -/
inductive Run (setting : Setting) : Nat → Goal → List Placed → Outcome → Prop where
  | integer {k n column ts} :
      Run setting k (.level .primary) (⟨.integer n, column⟩ :: ts)
        (.done (.literal (.integer n) column) ts)
  | float {k x column ts} :
      Run setting k (.level .primary) (⟨.float x, column⟩ :: ts)
        (.done (.literal (.float x) column) ts)
  | endOfInput {k} :
      Run setting k (.level .primary) []
        (.failed ⟨.unexpectedEndOfInput, setting.endColumn⟩ [] k)
  | refused {k t ts} : t.token.beginsPrimary = false →
      Run setting k (.level .primary) (t :: ts) (.failed t.refusal ts k)
  | group {k column ts e closed rest} :
      Run setting k (.nested column .additive) ts (.done e (⟨.rightParen, closed⟩ :: rest)) →
      Run setting k (.level .primary) (⟨.leftParen, column⟩ :: ts) (.done e rest)
  | groupUnclosed {k column ts e} :
      Run setting k (.nested column .additive) ts (.done e []) →
      Run setting k (.level .primary) (⟨.leftParen, column⟩ :: ts)
        (.failed ⟨.expectedClosingParen, column⟩ [] k)
  | groupRefused {k column ts e t rest} :
      Run setting k (.nested column .additive) ts (.done e (t :: rest)) → t.token ≠ .rightParen →
      Run setting k (.level .primary) (⟨.leftParen, column⟩ :: ts) (.failed t.refusal rest k)
  | groupFailed {k column ts error rest levels} :
      Run setting k (.nested column .additive) ts (.failed error rest levels) →
      Run setting k (.level .primary) (⟨.leftParen, column⟩ :: ts) (.failed error rest levels)
  | tooDeep {column l ts} :
      Run setting 0 (.nested column l) ts (.failed ⟨.nestingTooDeep setting.limit, column⟩ ts 0)
  | deeper {k column l ts o} :
      Run setting k (.level l) ts o → Run setting (k + 1) (.nested column l) ts o
  | base {k ts e rest} :
      Run setting k (.level .primary) ts (.done e rest) → Avoids BinaryOp.isPower rest →
      Run setting k (.level .power) ts (.done e rest)
  | baseFailed {k ts error rest levels} :
      Run setting k (.level .primary) ts (.failed error rest levels) →
      Run setting k (.level .power) ts (.failed error rest levels)
  | power {k ts b column us x rest} :
      Run setting k (.level .primary) ts (.done b (⟨.operator .pow, column⟩ :: us)) →
      Run setting k (.nested column .unary) us (.done x rest) →
      Run setting k (.level .power) ts (.done (.binary .pow b x column) rest)
  | powerFailed {k ts b column us error rest levels} :
      Run setting k (.level .primary) ts (.done b (⟨.operator .pow, column⟩ :: us)) →
      Run setting k (.nested column .unary) us (.failed error rest levels) →
      Run setting k (.level .power) ts (.failed error rest levels)
  | unsigned {k ts o} : Avoids BinaryOp.isSign ts →
      Run setting k (.level .power) ts o → Run setting k (.level .unary) ts o
  | signed {k sign column ts e rest} :
      Run setting k (.nested column .unary) ts (.done e rest) →
      Run setting k (.level .unary) (⟨.operator (Sign.operator sign), column⟩ :: ts)
        (.done (.signed sign e column) rest)
  | signedFailed {k sign column ts error rest levels} :
      Run setting k (.nested column .unary) ts (.failed error rest levels) →
      Run setting k (.level .unary) (⟨.operator (Sign.operator sign), column⟩ :: ts)
        (.failed error rest levels)
  | first {k ts e rest o} (c : Chain) :
      Run setting k (.level c.operand) ts (.done e rest) → Run setting k (.rest c e) rest o →
      Run setting k (.level c.level) ts o
  | firstFailed {k ts error rest levels} (c : Chain) :
      Run setting k (.level c.operand) ts (.failed error rest levels) →
      Run setting k (.level c.level) ts (.failed error rest levels)
  | stop {k c left ts} : Avoids c.accepts ts →
      Run setting k (.rest c left) ts (.done left ts)
  | next {k c left op column ts right rest o} : c.accepts op →
      Run setting k (.level c.operand) ts (.done right rest) →
      Run setting k (.rest c (.binary op left right column)) rest o →
      Run setting k (.rest c left) (⟨.operator op, column⟩ :: ts) o
  | nextFailed {k c left op column ts error rest levels} : c.accepts op →
      Run setting k (.level c.operand) ts (.failed error rest levels) →
      Run setting k (.rest c left) (⟨.operator op, column⟩ :: ts) (.failed error rest levels)

/-! ## The runs of the parsers -/

open Calculator.Parser

namespace Goal

/-- The parser of a goal. -/
def parse (setting : Setting) : Nat → Goal → List Placed → Outcome
  | k, .level l, ts => (parser setting k l).run ts
  | 0, .nested column _, ts => .failed ⟨.nestingTooDeep setting.limit, column⟩ ts 0
  | k + 1, .nested _ l, ts => (parser setting k l).run ts
  | k, .rest c left, ts => chainFrom c.accepts (parser setting k c.operand) left ts

end Goal

@[simp] theorem place_setting (setting : Setting) (k : Nat) :
    (place setting k).setting = setting := by
  cases k <;> rfl

@[simp] theorem place_levels (setting : Setting) (k : Nat) : (place setting k).levels = k := by
  cases k <;> rfl

section

variable {setting : Setting} {k : Nat}

theorem descend_additive (column : Nat) (ts : List Placed) :
    (place setting k).descend column Nested.additive ts =
      Goal.parse setting k (.nested column .additive) ts := by
  cases k <;> rfl

theorem descend_unary (column : Nat) (ts : List Placed) :
    (place setting k).descend column Nested.unary ts =
      Goal.parse setting k (.nested column .unary) ts := by
  cases k <;> rfl

/-- Every nested goal runs as its parser does. -/
def RunsNested (setting : Setting) (k : Nat) : Prop :=
  ∀ column l ts, Run setting k (.nested column l) ts (Goal.parse setting k (.nested column l) ts)

theorem run_primary (hn : RunsNested setting k) (ts : List Placed) :
    Run setting k (.level .primary) ts ((place setting k).primaryOutcome ts) := by
  unfold Place.primaryOutcome
  split
  · rw [place_setting, place_levels]; exact .endOfInput
  · exact .integer
  · exact .float
  · next column ts =>
    have hrun := hn column .additive ts
    rw [descend_additive]
    cases hd : Goal.parse setting k (.nested column .additive) ts with
    | failed error rest levels => rw [hd] at hrun; exact .groupFailed hrun
    | done e rest =>
      rw [hd] at hrun
      dsimp only
      unfold Place.closeGroup
      rw [place_levels]
      split
      · exact .group hrun
      · next t rest ht => exact .groupRefused hrun fun h => ht t.column (by rw [← h])
      · exact .groupUnclosed hrun
  · next t ts hi hx hp =>
    rw [place_levels]
    refine .refused ?_
    unfold Token.beginsPrimary
    split
    · next n h => exact (hi n t.column (by rw [← h])).elim
    · next x h => exact (hx x t.column (by rw [← h])).elim
    · next h => exact (hp t.column (by rw [← h])).elim
    · rfl

theorem run_power (hn : RunsNested setting k) (ts : List Placed) :
    Run setting k (.level .power) ts ((place setting k).power.run ts) := by
  have hp : Run setting k (.level .primary) ts ((place setting k).primary.run ts) :=
    run_primary hn ts
  unfold Place.power
  dsimp only
  cases ho : (place setting k).primary.run ts with
  | failed error rest levels => rw [ho] at hp; exact .baseFailed hp
  | done b rest =>
    rw [ho] at hp
    dsimp only
    unfold Place.powerOutcome
    split
    · next column us =>
      have hrun := hn column .unary us
      rw [descend_unary]
      cases hd : Goal.parse setting k (.nested column .unary) us with
      | failed error rest levels => rw [hd] at hrun; exact .powerFailed hp hrun
      | done x rest => rw [hd] at hrun; exact .power hp hrun
    · next hne =>
      refine .base hp fun op column us h => decide_eq_false ?_
      rintro rfl
      exact hne column us h

theorem run_unary (hn : RunsNested setting k) (ts : List Placed) :
    Run setting k (.level .unary) ts ((place setting k).unaryOutcome ts) := by
  unfold Place.unaryOutcome
  split
  · next op column rest =>
    split
    · next sign hs =>
      obtain rfl := BinaryOp.eq_operator_of_sign? hs
      have hrun := hn column .unary rest
      rw [descend_unary]
      cases hd : Goal.parse setting k (.nested column .unary) rest with
      | failed error rest levels => rw [hd] at hrun; exact .signedFailed hrun
      | done e rest => rw [hd] at hrun; exact .signed hrun
    · next hs =>
      refine .unsigned (.cons fun op' h => ?_) (run_power hn _)
      obtain rfl := Token.operator.inj h
      rw [BinaryOp.isSign, hs, Option.isSome_none]
  · next hne =>
    exact .unsigned (fun op column rest h => (hne op column rest h).elim) (run_power hn ts)

/-- The loop over the operators of a chain runs as far as its operands run. -/
theorem run_rest {c : Chain} {operand : Parser}
    (ho : ∀ ts, Run setting k (.level c.operand) ts (operand.run ts)) (left : Expr)
    (ts : List Placed) :
    Run setting k (.rest c left) ts (chainFrom c.accepts operand left ts) := by
  fun_induction chainFrom c.accepts operand left ts with
  | case1 left op column ts ha right rest hrun ih => exact .next ha (hrun ▸ ho ts) ih
  | case2 left op column ts ha error rest levels hrun => exact .nextFailed ha (hrun ▸ ho ts)
  | case3 left op column ts ha =>
    refine .stop (.cons fun op' h => ?_)
    obtain rfl := Token.operator.inj h
    exact Bool.eq_false_iff.2 ha
  | case4 left ts hne => exact .stop fun op column rest h => (hne op column rest h).elim

theorem run_chain (c : Chain) (operand : Parser)
    (ho : ∀ ts, Run setting k (.level c.operand) ts (operand.run ts)) (ts : List Placed) :
    Run setting k (.level c.level) ts ((chain c.accepts operand).run ts) := by
  have h := ho ts
  unfold chain
  dsimp only
  cases hrun : operand.run ts with
  | failed error rest levels => rw [hrun] at h; exact .firstFailed c h
  | done left rest => rw [hrun] at h; exact .first c h (run_rest ho left rest)

theorem run_level (hn : RunsNested setting k) (l : Level) (ts : List Placed) :
    Run setting k (.level l) ts ((parser setting k l).run ts) := by
  have hm := run_chain .products (place setting k).unary (run_unary hn)
  match l with
  | .primary => exact run_primary hn ts
  | .power => exact run_power hn ts
  | .unary => exact run_unary hn ts
  | .multiplicative => exact hm ts
  | .additive => exact run_chain .sums (place setting k).multiplicative hm ts

end

theorem runsNested (setting : Setting) (k : Nat) : RunsNested setting k := by
  induction k with
  | zero => exact fun column l ts => .tooDeep
  | succ k ih => exact fun column l ts => .deeper (run_level ih l ts)

/-- Every goal runs as its parser does. -/
theorem run_parse (setting : Setting) (k : Nat) (goal : Goal) (ts : List Placed) :
    Run setting k goal ts (goal.parse setting k ts) := by
  cases goal with
  | level l => exact run_level (runsNested setting k) l ts
  | nested column l => exact runsNested setting k column l ts
  | rest c left => exact run_rest (run_level (runsNested setting k) c.operand) left ts

/-! ## One outcome for each goal -/

section

variable {setting : Setting} {k : Nat}

theorem parse_group (column : Nat) (ts : List Placed) :
    Goal.parse setting k (.level .primary) (⟨.leftParen, column⟩ :: ts) =
      match Goal.parse setting k (.nested column .additive) ts with
      | .done e rest => (place setting k).closeGroup column e rest
      | .failed error rest levels => .failed error rest levels := by
  rw [← descend_additive]
  rfl

theorem parse_power (ts : List Placed) :
    Goal.parse setting k (.level .power) ts =
      match Goal.parse setting k (.level .primary) ts with
      | .done base rest => (place setting k).powerOutcome base rest
      | .failed error rest levels => .failed error rest levels := rfl

theorem powerOutcome_power (b : Expr) (column : Nat) (us : List Placed) :
    (place setting k).powerOutcome b (⟨.operator .pow, column⟩ :: us) =
      match Goal.parse setting k (.nested column .unary) us with
      | .done x rest => .done (.binary .pow b x column) rest
      | .failed error rest levels => .failed error rest levels := by
  rw [← descend_unary]
  rfl

theorem parse_signed (sign : Sign) (column : Nat) (ts : List Placed) :
    Goal.parse setting k (.level .unary) (⟨.operator sign.operator, column⟩ :: ts) =
      match Goal.parse setting k (.nested column .unary) ts with
      | .done e rest => .done (.signed sign e column) rest
      | .failed error rest levels => .failed error rest levels := by
  rw [← descend_unary]
  cases sign <;> rfl

theorem parse_unsigned {ts : List Placed} (h : Avoids BinaryOp.isSign ts) :
    Goal.parse setting k (.level .unary) ts = Goal.parse setting k (.level .power) ts := by
  change (place setting k).unaryOutcome ts = (place setting k).power.run ts
  unfold Place.unaryOutcome
  split
  · split
    · next sign hs => have := h.head; simp [BinaryOp.isSign, hs] at this
    · rfl
  · rfl

theorem parse_chain (c : Chain) (ts : List Placed) :
    Goal.parse setting k (.level c.level) ts =
      match Goal.parse setting k (.level c.operand) ts with
      | .done e rest => Goal.parse setting k (.rest c e) rest
      | .failed error rest levels => .failed error rest levels := by
  cases c <;> rfl

theorem parse_next {c : Chain} (left : Expr) {op : BinaryOp} (accepted : c.accepts op)
    (column : Nat) (ts : List Placed) :
    Goal.parse setting k (.rest c left) (⟨.operator op, column⟩ :: ts) =
      match Goal.parse setting k (.level c.operand) ts with
      | .done right rest => Goal.parse setting k (.rest c (.binary op left right column)) rest
      | .failed error rest levels => .failed error rest levels := by
  simp only [Goal.parse]
  rw [chainFrom, if_pos accepted]
  cases (parser setting k c.operand).run ts <;> rfl

theorem parse_stop {c : Chain} (left : Expr) {ts : List Placed} (h : Avoids c.accepts ts) :
    Goal.parse setting k (.rest c left) ts = .done left ts := by
  simp only [Goal.parse]
  unfold chainFrom
  split
  · rw [if_neg (by rw [h.head]; exact Bool.false_ne_true)]
  · rfl

end

/-- A run ends as the parser of its goal does. -/
theorem Run.eq_parse {setting : Setting} {k : Nat} {goal : Goal} {ts : List Placed} {o : Outcome}
    (h : Run setting k goal ts o) : goal.parse setting k ts = o := by
  induction h with
  | integer | float | tooDeep => rfl
  | @endOfInput k => cases k <;> rfl
  | @refused k t ts h =>
    obtain ⟨token, column⟩ := t
    cases token <;> first | (cases k <;> rfl) | cases h
  | group _ ih => rw [parse_group, ih]; rfl
  | @groupUnclosed k column ts e _ ih => rw [parse_group, ih]; cases k <;> rfl
  | @groupRefused k column ts e t rest _ ht ih =>
    rw [parse_group, ih]
    obtain ⟨token, column⟩ := t
    cases token <;> first | (cases k <;> rfl) | exact (ht rfl).elim
  | groupFailed _ ih => rw [parse_group, ih]
  | deeper _ ih => exact ih
  | base _ ha ih =>
    rw [parse_power, ih]
    dsimp only
    unfold Place.powerOutcome
    split
    · cases ha.head
    · rfl
  | baseFailed _ ih => rw [parse_power, ih]
  | power _ _ ihb ihe => rw [parse_power, ihb]; dsimp only; rw [powerOutcome_power, ihe]
  | powerFailed _ _ ihb ihe => rw [parse_power, ihb]; dsimp only; rw [powerOutcome_power, ihe]
  | unsigned ha _ ih => rw [parse_unsigned ha, ih]
  | signed _ ih => rw [parse_signed, ih]
  | signedFailed _ ih => rw [parse_signed, ih]
  | first c _ _ iho ihr => rw [parse_chain, iho]; exact ihr
  | firstFailed c _ ih => rw [parse_chain, ih]
  | stop ha => exact parse_stop _ ha
  | next ha _ _ iho ihr => rw [parse_next _ ha, iho]; exact ihr
  | nextFailed ha _ ih => rw [parse_next _ ha, ih]

/-- The runs of a goal are those of its parser. -/
theorem run_iff {setting : Setting} {k : Nat} {goal : Goal} {ts : List Placed} {o : Outcome} :
    Run setting k goal ts o ↔ goal.parse setting k ts = o :=
  ⟨Run.eq_parse, fun h => h ▸ run_parse setting k goal ts⟩

/-! ## What follows a success -/

/-- The operators that a goal, once met, would go on with. -/
def Goal.continues : Goal → BinaryOp → Bool
  | .level l | .nested _ l => l.continues
  | .rest c _ => c.level.continues

/-- The tokens do not go on with the operand that a goal starts from. -/
def Goal.Starts : Goal → List Placed → Prop
  | .level _, _ | .nested _ _, _ => True
  | .rest c _, ts => Avoids c.operand.continues ts

theorem Chain.continues_level {c : Chain} {op : BinaryOp} (h : c.operand.continues op = false)
    (ha : c.accepts op = false) : c.level.continues op = false := by
  cases c <;> cases op <;> simp_all [Chain.operand, Chain.accepts, Chain.level, Level.continues,
    BinaryOp.isPower, BinaryOp.isMultiplicative, BinaryOp.isAdditive]

/-- After a success no operator follows that the phrase would go on with. -/
theorem Run.avoids {setting : Setting} {k : Nat} {goal : Goal} {ts rest : List Placed} {e : Expr}
    {o : Outcome} (h : Run setting k goal ts o) (hs : goal.Starts ts) (ho : o = .done e rest) :
    Avoids goal.continues rest := by
  induction h generalizing e rest with
  | integer | float => exact fun _ _ _ _ => rfl
  | group _ ih => exact fun _ _ _ _ => rfl
  | deeper _ ih => exact ih trivial ho
  | base _ ha => cases ho; exact ha
  | power _ _ _ ih => cases ho; exact ih trivial rfl
  | unsigned _ _ ih => exact ih trivial ho
  | signed _ ih => cases ho; exact ih trivial rfl
  | first c _ _ iho ihr => exact ihr (iho trivial rfl) ho
  | stop ha =>
    cases ho
    exact fun op column rest h => Chain.continues_level (hs op column rest h) (ha op column rest h)
  | next _ _ _ iho ihr => exact ihr (iho trivial rfl) ho
  | endOfInput | refused | groupUnclosed | groupRefused | groupFailed | tooDeep | baseFailed
  | powerFailed | signedFailed | firstFailed | nextFailed => cases ho

end Calculator
