import Calculator.Proofs.Parser.Recognition

/-!
# Reading an expression from left to right

A scan reads tokens one after another and keeps no tree: only whether an operand has to follow, how
many nesting levels are open, and which groups are not closed. It finds the fault of the parser
without the parser's recursion.

* `Scan.step`: the state after a token and the level that the token opens, unless the token cannot
  stand there.
* `Scan.fault?`: the first fault of tokens, read from a state.
* `Run.fault`: while the parser works on a goal, it fails with the fault of the scan, or both go on
  with the tokens after the phrase.
* `parseAll_eq_error_iff_fault`: the error of the parser is the first fault of the scan.
-/

namespace Calculator

/-- A group that is not closed. -/
structure OpenGroup where
  /-- The column of its parenthesis. -/
  column : Nat
  /-- How many nesting levels are open around it. -/
  outside : Nat

/-- What is known after some tokens of an expression. -/
structure Scan where
  /-- Whether an operand has to follow. -/
  expectsOperand : Bool
  /-- How many nesting levels are open. -/
  depth : Nat
  /-- The groups that are open, innermost first. -/
  groups : List OpenGroup

namespace Scan

/-- Before the first token. -/
def start : Scan := ⟨true, 0, []⟩

/-- The nesting level of the operands of sums and products inside the innermost of the groups. -/
def chainDepth : List OpenGroup → Nat
  | [] => 0
  | g :: _ => g.outside + 1

/-- The level that one more token opens, if it opens one, and the state after it; none if the token
cannot stand there. Sums and products end the signs and exponents before them, a parenthesis ends
those inside its group. -/
def step : Scan → Placed → Option (Option Nat × Scan)
  | ⟨true, depth, groups⟩, ⟨.integer _, _⟩ => some (none, ⟨false, depth, groups⟩)
  | ⟨true, depth, groups⟩, ⟨.float _, _⟩ => some (none, ⟨false, depth, groups⟩)
  | ⟨true, depth, groups⟩, ⟨.leftParen, column⟩ =>
    some (some (depth + 1), ⟨true, depth + 1, ⟨column, depth⟩ :: groups⟩)
  | ⟨true, depth, groups⟩, ⟨.operator op, _⟩ =>
    if op.isSign then some (some (depth + 1), ⟨true, depth + 1, groups⟩) else none
  | ⟨false, depth, groups⟩, ⟨.operator op, _⟩ =>
    if op.isPower then some (some (depth + 1), ⟨true, depth + 1, groups⟩)
    else some (none, ⟨true, chainDepth groups, groups⟩)
  | ⟨false, _, g :: groups⟩, ⟨.rightParen, _⟩ => some (none, ⟨false, g.outside, groups⟩)
  | _, _ => none

/-- The fault of a token that cannot stand after the tokens read. -/
def misplaced (s : Scan) (t : Token) : ParseFault :=
  if s.expectsOperand = false ∧ s.groups.isEmpty then t.trailingFault else t.refusal

/-- The fault of an expression that ends here. -/
def endFault? (setting : Setting) : Scan → Option ParseError
  | ⟨true, _, _⟩ => some ⟨.unexpectedEndOfInput, setting.endColumn⟩
  | ⟨false, _, g :: _⟩ => some ⟨.expectedClosingParen, g.column⟩
  | ⟨false, _, []⟩ => none

/-- The first fault of tokens that are read from a state. -/
def fault? (setting : Setting) (s : Scan) : List Placed → Option ParseError
  | [] => s.endFault? setting
  | t :: ts =>
    match s.step t with
    | none => some ⟨s.misplaced t.token, t.column⟩
    | some (none, s') => s'.fault? setting ts
    | some (some level, s') =>
      if setting.limit < level then some ⟨.nestingTooDeep setting.limit, t.column⟩
      else s'.fault? setting ts

/-! ## Steps -/

theorem step_group (depth column : Nat) (groups : List OpenGroup) :
    step ⟨true, depth, groups⟩ ⟨.leftParen, column⟩ =
      some (some (depth + 1), ⟨true, depth + 1, ⟨column, depth⟩ :: groups⟩) := rfl

theorem step_power (depth column : Nat) (groups : List OpenGroup) :
    step ⟨false, depth, groups⟩ ⟨.operator .pow, column⟩ =
      some (some (depth + 1), ⟨true, depth + 1, groups⟩) := rfl

theorem step_sign (sign : Sign) (depth column : Nat) (groups : List OpenGroup) :
    step ⟨true, depth, groups⟩ ⟨.operator sign.operator, column⟩ =
      some (some (depth + 1), ⟨true, depth + 1, groups⟩) := by
  cases sign <;> rfl

theorem step_chain {c : Chain} {op : BinaryOp} (h : c.accepts op) (depth column : Nat)
    (groups : List OpenGroup) :
    step ⟨false, depth, groups⟩ ⟨.operator op, column⟩ =
      some (none, ⟨true, chainDepth groups, groups⟩) := by
  cases c <;> cases op <;> first | rfl | cases h

/-- The ways in which a scan goes on. -/
inductive Stepped : Scan → Placed → Option Nat → Scan → Prop where
  | integer {depth groups n column} :
      Stepped ⟨true, depth, groups⟩ ⟨.integer n, column⟩ none ⟨false, depth, groups⟩
  | float {depth groups x column} :
      Stepped ⟨true, depth, groups⟩ ⟨.float x, column⟩ none ⟨false, depth, groups⟩
  | group {depth groups column} :
      Stepped ⟨true, depth, groups⟩ ⟨.leftParen, column⟩ (some (depth + 1))
        ⟨true, depth + 1, ⟨column, depth⟩ :: groups⟩
  | opener {expects depth groups op column} :
      Stepped ⟨expects, depth, groups⟩ ⟨.operator op, column⟩ (some (depth + 1))
        ⟨true, depth + 1, groups⟩
  | link {depth groups op column} :
      Stepped ⟨false, depth, groups⟩ ⟨.operator op, column⟩ none ⟨true, chainDepth groups, groups⟩
  | close {depth g groups column} :
      Stepped ⟨false, depth, g :: groups⟩ ⟨.rightParen, column⟩ none ⟨false, g.outside, groups⟩

theorem stepped {s s' : Scan} {t : Placed} {opened : Option Nat}
    (h : s.step t = some (opened, s')) : Stepped s t opened s' := by
  unfold step at h
  split at h
  · cases h; exact .integer
  · cases h; exact .float
  · cases h; exact .group
  · split at h <;> cases h
    exact .opener
  · split at h <;> cases h
    · exact .opener
    · exact .link
  · cases h; exact .close
  · cases h

/-- No token begins an operand that the parser of a primary refuses. -/
theorem step_eq_none_of_refused {depth : Nat} {groups : List OpenGroup} {t : Placed}
    {ts : List Placed} (h : t.token.beginsPrimary = false)
    (ha : Avoids BinaryOp.isSign (t :: ts)) : step ⟨true, depth, groups⟩ t = none := by
  obtain ⟨token, column⟩ := t
  cases token with
  | operator op => rw [step, ha.head]; rfl
  | integer | float | leftParen => cases h
  | rightParen | name | quoted | symbol => rfl

/-- After an expression nothing stands but an operator or the end of a group. -/
theorem step_eq_none_of_complete {depth : Nat} {groups : List OpenGroup} {t : Placed}
    {ts : List Placed} (h : t.token = .rightParen → groups = [])
    (ha : Avoids Level.additive.continues (t :: ts)) : step ⟨false, depth, groups⟩ t = none := by
  obtain ⟨token, column⟩ := t
  cases token with
  | operator op => cases ha.head
  | rightParen => rw [h rfl]; rfl
  | integer | float | leftParen | name | quoted | symbol => rfl

section

variable {setting : Setting} {s s' : Scan} {t : Placed}

theorem fault?_of_step (h : s.step t = some (none, s')) (ts : List Placed) :
    s.fault? setting (t :: ts) = s'.fault? setting ts := by
  rw [fault?, h]

theorem fault?_of_opens {level : Nat} (h : s.step t = some (some level, s')) (ts : List Placed) :
    s.fault? setting (t :: ts) =
      if setting.limit < level then some ⟨.nestingTooDeep setting.limit, t.column⟩
      else s'.fault? setting ts := by
  rw [fault?, h]

theorem fault?_of_step_eq_none (h : s.step t = none) (ts : List Placed) :
    s.fault? setting (t :: ts) = some ⟨s.misplaced t.token, t.column⟩ := by
  rw [fault?, h]

end

end Scan

/-! ## The parser fails where the scan does -/

/-- Whether an operand has to follow where a goal is parsed. -/
def Goal.expectsOperand : Goal → Bool
  | .level _ | .nested _ _ => true
  | .rest _ _ => false

/-- Phrases of a chain stand at the level of their group. -/
def Level.Stands (depth : Nat) (groups : List OpenGroup) : Level → Prop
  | .multiplicative | .additive => depth = Scan.chainDepth groups
  | _ => True

/-- Before a power or a primary is parsed, a sign has been looked for. -/
def Level.LacksSign (ts : List Placed) : Level → Prop
  | .primary | .power => Avoids BinaryOp.isSign ts
  | _ => True

/-- The level at which a scan is after a phrase: a number or group leaves it unchanged. -/
def Level.Leaves (before after : Nat) : Level → Prop
  | .primary => after = before
  | _ => True

theorem Level.eq_chainDepth_of_stands {c : Chain} {depth : Nat} {groups : List OpenGroup}
    (h : c.level.Stands depth groups) : depth = Scan.chainDepth groups := by
  cases c <;> exact h

theorem Level.stands_operand (c : Chain) (groups : List OpenGroup) :
    c.operand.Stands (Scan.chainDepth groups) groups := by
  cases c
  · exact rfl
  · trivial

theorem Level.lacksSign_operand (c : Chain) (ts : List Placed) : c.operand.LacksSign ts := by
  cases c <;> trivial

/-- The place of the scan where a goal is parsed with `k` nesting levels left. -/
def Goal.Ready (limit k depth : Nat) (groups : List OpenGroup) (ts : List Placed) : Goal → Prop
  | .level l => depth + k = limit ∧ l.Stands depth groups ∧ l.LacksSign ts
  | .nested _ l => depth + k = limit + 1 ∧ l.Stands depth groups ∧ l.LacksSign ts
  | .rest _ _ => Scan.chainDepth groups + k = limit

/-- The operands of a chain are parsed at the level of the chain. -/
theorem Goal.ready_operand (c : Chain) {limit k : Nat} {groups : List OpenGroup}
    (h : Scan.chainDepth groups + k = limit) (ts : List Placed) :
    (Goal.level c.operand).Ready limit k (Scan.chainDepth groups) groups ts :=
  ⟨h, Level.stands_operand c groups, Level.lacksSign_operand c ts⟩

/-- The first fault of tokens in which a goal is to be found. A nested goal follows its opening
token, which may open a level too many. -/
def Goal.fault? (setting : Setting) (s : Scan) (ts : List Placed) : Goal → Option ParseError
  | .level _ | .rest _ _ => s.fault? setting ts
  | .nested column _ =>
    if setting.limit < s.depth then some ⟨.nestingTooDeep setting.limit, column⟩
    else s.fault? setting ts

section

variable (setting : Setting) (l : Level) (depth : Nat) (groups : List OpenGroup) (ts : List Placed)

theorem Goal.fault?_level :
    (Goal.level l).fault? setting ⟨(Goal.level l).expectsOperand, depth, groups⟩ ts =
      Scan.fault? setting ⟨true, depth, groups⟩ ts := rfl

theorem Goal.fault?_nested (column : Nat) :
    (Goal.nested column l).fault? setting ⟨(Goal.nested column l).expectsOperand, depth, groups⟩
        ts =
      if setting.limit < depth then some ⟨.nestingTooDeep setting.limit, column⟩
      else Scan.fault? setting ⟨true, depth, groups⟩ ts := rfl

theorem Goal.fault?_rest (c : Chain) (left : Expr) :
    (Goal.rest c left).fault? setting ⟨(Goal.rest c left).expectsOperand, depth, groups⟩ ts =
      Scan.fault? setting ⟨false, depth, groups⟩ ts := rfl

end

/-- The level at which the scan is after a goal is met. -/
def Goal.Leaves (before after : Nat) : Goal → Prop
  | .level l => l.Leaves before after
  | _ => True

/-- What an outcome says of the first fault of the tokens: it is the error, or it is that of the
tokens after the phrase, of which the scan stands at the end. -/
def Outcome.Tells (setting : Setting) (groups : List OpenGroup) (leaves : Nat → Prop)
    (fault : Option ParseError) : Outcome → Prop
  | .done _ rest =>
    ∃ depth, leaves depth ∧ fault = Scan.fault? setting ⟨false, depth, groups⟩ rest
  | .failed error _ _ => fault = some error

theorem Outcome.Tells.mono {setting : Setting} {groups : List OpenGroup}
    {leaves leaves' : Nat → Prop} {fault : Option ParseError} {o : Outcome}
    (h : o.Tells setting groups leaves fault) (hl : ∀ d, leaves d → leaves' d) :
    o.Tells setting groups leaves' fault := by
  cases o with
  | failed => exact h
  | done e rest =>
    obtain ⟨d, hd, hf⟩ := h
    exact ⟨d, hl d hd, hf⟩

/-- While the parser works on a goal, it fails with the fault of the scan, or both go on with the
tokens after the phrase. -/
theorem Run.fault {setting : Setting} {k : Nat} {goal : Goal} {ts : List Placed} {o : Outcome}
    (h : Run setting k goal ts o) {depth : Nat} {groups : List OpenGroup}
    (hr : goal.Ready setting.limit k depth groups ts) :
    o.Tells setting groups (goal.Leaves depth)
      (goal.fault? setting ⟨goal.expectsOperand, depth, groups⟩ ts) := by
  induction h generalizing depth groups with
  | integer | float =>
    refine ⟨depth, rfl, ?_⟩
    rw [Goal.fault?_level, Scan.fault?_of_step rfl]
  | endOfInput => rfl
  | refused h => exact Scan.fault?_of_step_eq_none (Scan.step_eq_none_of_refused h hr.2.2) _
  | @group _ column _ _ _ _ _ ih =>
    obtain ⟨hd, -⟩ := hr
    obtain ⟨d, -, hf⟩ := @ih (depth + 1) (⟨column, depth⟩ :: groups) ⟨by omega, rfl, trivial⟩
    refine ⟨depth, rfl, ?_⟩
    rw [Goal.fault?_level, Scan.fault?_of_opens (Scan.step_group ..), ← Goal.fault?_nested, hf,
      Scan.fault?_of_step rfl]
  | @groupUnclosed _ column _ _ _ ih =>
    obtain ⟨hd, -⟩ := hr
    obtain ⟨d, -, hf⟩ := @ih (depth + 1) (⟨column, depth⟩ :: groups) ⟨by omega, rfl, trivial⟩
    rw [Goal.fault?_level, Scan.fault?_of_opens (Scan.step_group ..), ← Goal.fault?_nested, hf]
    rfl
  | @groupRefused _ column _ _ t rest hrun ht ih =>
    obtain ⟨hd, -⟩ := hr
    obtain ⟨d, -, hf⟩ := @ih (depth + 1) (⟨column, depth⟩ :: groups) ⟨by omega, rfl, trivial⟩
    rw [Goal.fault?_level, Scan.fault?_of_opens (Scan.step_group ..), ← Goal.fault?_nested, hf,
      Scan.fault?_of_step_eq_none
        (Scan.step_eq_none_of_complete (fun h => (ht h).elim) (hrun.avoids trivial rfl))]
    rfl
  | @groupFailed _ column _ _ _ _ _ ih =>
    obtain ⟨hd, -⟩ := hr
    have hf := @ih (depth + 1) (⟨column, depth⟩ :: groups) ⟨by omega, rfl, trivial⟩
    rw [Goal.fault?_level, Scan.fault?_of_opens (Scan.step_group ..)]
    exact hf
  | tooDeep =>
    obtain ⟨hd, -⟩ := hr
    exact if_pos (by dsimp only; omega)
  | deeper _ ih =>
    obtain ⟨hd, hl⟩ := hr
    have hf := @ih depth groups ⟨by omega, hl⟩
    rw [Goal.fault?_nested, if_neg (by omega)]
    exact hf.mono fun _ _ => trivial
  | base _ _ ih =>
    obtain ⟨d, -, hf⟩ := ih hr
    exact ⟨d, trivial, hf⟩
  | baseFailed _ ih => exact ih hr
  | power _ _ ihb ihx =>
    have hd := hr.1
    obtain ⟨d, rfl, hf⟩ := ihb hr
    obtain ⟨d', -, hg⟩ := @ihx (d + 1) groups ⟨by omega, trivial, trivial⟩
    refine ⟨d', trivial, hf.trans ?_⟩
    rw [Scan.fault?_of_opens (Scan.step_power ..), ← hg]
    rfl
  | powerFailed _ _ ihb ihx =>
    have hd := hr.1
    obtain ⟨d, rfl, hf⟩ := ihb hr
    have hg := @ihx (d + 1) groups ⟨by omega, trivial, trivial⟩
    refine hf.trans ?_
    rw [Scan.fault?_of_opens (Scan.step_power ..)]
    exact hg
  | unsigned ha _ ih => exact ih ⟨hr.1, trivial, ha⟩
  | signed _ ih =>
    obtain ⟨hd, -⟩ := hr
    obtain ⟨d, -, hf⟩ := @ih (depth + 1) groups ⟨by omega, trivial, trivial⟩
    refine ⟨d, trivial, ?_⟩
    rw [Goal.fault?_level, Scan.fault?_of_opens (Scan.step_sign ..), ← hf]
    rfl
  | signedFailed _ ih =>
    obtain ⟨hd, -⟩ := hr
    have hf := @ih (depth + 1) groups ⟨by omega, trivial, trivial⟩
    rw [Goal.fault?_level, Scan.fault?_of_opens (Scan.step_sign ..)]
    exact hf
  | @first _ ts _ _ _ c _ _ iho ihr =>
    obtain ⟨hd, hs, -⟩ := hr
    obtain rfl := Level.eq_chainDepth_of_stands hs
    obtain ⟨d, -, hf⟩ := iho (Goal.ready_operand c hd ts)
    have hg := @ihr d groups hd
    rw [Goal.fault?_level, ← Goal.fault?_level setting c.operand, hf]
    exact hg.mono fun _ _ => by cases c <;> trivial
  | @firstFailed _ ts _ _ _ c _ ih =>
    obtain ⟨hd, hs, -⟩ := hr
    obtain rfl := Level.eq_chainDepth_of_stands hs
    exact ih (Goal.ready_operand c hd ts)
  | stop => exact ⟨depth, trivial, rfl⟩
  | @next _ c _ _ _ ts _ _ _ ha _ _ iho ihr =>
    obtain ⟨d, -, hf⟩ := iho (Goal.ready_operand c hr ts)
    have hg := @ihr d groups hr
    rw [Goal.fault?_rest, Scan.fault?_of_step (Scan.step_chain ha ..),
      ← Goal.fault?_level setting c.operand, hf]
    exact hg
  | @nextFailed _ c _ _ _ ts _ _ _ ha _ ih =>
    have hf := ih (Goal.ready_operand c hr ts)
    rw [Goal.fault?_rest, Scan.fault?_of_step (Scan.step_chain ha ..)]
    exact hf

/-- The error of the parser is the first fault of the scan. -/
theorem parseAll_eq_error_iff_fault {ts : List Placed} {endColumn limit : Nat} {err : ParseError} :
    (Cursor.start ts endColumn limit).parseAll.1 = .error err ↔
      Scan.start.fault? ⟨limit, endColumn⟩ ts = some err := by
  have hrun := run_parse ⟨limit, endColumn⟩ limit (.level .additive) ts
  have hf := @Run.fault _ _ _ _ _ hrun 0 [] ⟨Nat.zero_add limit, rfl, trivial⟩
  rw [Goal.fault?_level] at hf
  change Outcome.Tells _ _ _ (Scan.start.fault? ⟨limit, endColumn⟩ ts) _ at hf
  rw [parseAll_start]
  cases ho : Goal.parse ⟨limit, endColumn⟩ limit (.level .additive) ts with
  | failed error rest levels =>
    rw [ho] at hf
    rw [hf]
    simp
  | done e rest =>
    rw [ho] at hf hrun
    obtain ⟨d, -, hf⟩ := hf
    rw [hf]
    cases rest with
    | nil => simp [Scan.fault?, Scan.endFault?]
    | cons t rest =>
      rw [Scan.fault?_of_step_eq_none
        (Scan.step_eq_none_of_complete (fun _ => rfl) (hrun.avoids trivial rfl))]
      simp [Scan.misplaced]

end Calculator
