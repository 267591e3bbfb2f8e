import Calculator.Proofs.Evaluation.PostOrder

/-!
# Fewer operators

What an evaluator computes when operators have been taken away from the full set. Up to the first
step that applies one of them it does what the evaluator with every operator does, and there it
fails.

* `Operation`, `Permitted.narrow`: an operator in one of its arities; the full set without some.
* `binary?_narrow`, `sign?_narrow`: which operators are left, each arity on its own.
* `Supplied`: steps that find their operands among the values held.
* `Evaluator.value_narrow`: the value with fewer operators.
-/

namespace Calculator

/-- An operator in one of its arities. -/
inductive Operation where
  | binary (op : BinaryOp)
  | sign (sign : Sign)
  deriving DecidableEq

/-- The error for an operator that is not permitted. -/
def Operation.unsupported (column : Nat) : Operation → EvalError
  | .binary op => .unsupportedBinary op column
  | .sign s => .unsupportedSign s column

/-- The operators of a tree in post-order, with their columns. -/
def Expr.operations : Expr → List (Operation × Nat)
  | .literal _ _ => []
  | .signed sign operand column => operand.operations ++ [(.sign sign, column)]
  | .binary op left right column => left.operations ++ right.operations ++ [(.binary op, column)]

namespace Permitted

def erase (p : Permitted) : Operation → Permitted
  | .binary op => p.eraseBinary op
  | .sign s => p.eraseSign s

/-- Every operator but those that are taken away, one after the other. -/
def narrow (removed : List Operation) : Permitted := removed.foldl erase all

theorem foldl_erase (p : Permitted) (removed : List Operation) :
    removed.foldl erase p =
      ⟨p.binaryOps.filter (.binary · ∉ removed), p.signs.filter (.sign · ∉ removed)⟩ := by
  induction removed generalizing p with
  | nil =>
    show p = ⟨p.binaryOps.filter _, p.signs.filter _⟩
    rw [List.filter_eq_self.2 (by simp), List.filter_eq_self.2 (by simp)]
  | cons o removed ih =>
    rw [List.foldl_cons, ih]
    cases o <;> simp [erase, eraseBinary, eraseSign, Bool.and_comm]

variable {removed : List Operation}

theorem binary?_narrow (op : BinaryOp) :
    (narrow removed).binary? op = if .binary op ∈ removed then none else some op.apply := by
  have hall : op ∈ all.binaryOps := by cases op <;> decide
  rw [binary?, narrow, foldl_erase]
  by_cases h : .binary op ∈ removed <;> simp [h, hall]

theorem sign?_narrow (s : Sign) :
    (narrow removed).sign? s = if .sign s ∈ removed then none else some s.apply := by
  have hall : s ∈ all.signs := by cases s <;> decide
  rw [sign?, narrow, foldl_erase]
  by_cases h : .sign s ∈ removed <;> simp [h, hall]

/-- Neither the order nor repetitions matter. -/
theorem narrow_congr {removed' : List Operation} (h : ∀ o, o ∈ removed' ↔ o ∈ removed) :
    narrow removed' = narrow removed := by
  rw [narrow, narrow, foldl_erase, foldl_erase]
  simp only [h]

end Permitted

/-! ## Operands -/

namespace EvalStep

/-- The operator that a step applies, with its column. -/
def operation? : EvalStep → Option (Operation × Nat)
  | .enter _ | .literal _ => none
  | .sign s column => some (.sign s, column)
  | .operator op column => some (.binary op, column)

/-- The step applies none of the operators taken away. -/
def keeps (removed : List Operation) (s : EvalStep) : Bool := s.operation?.all (·.1 ∉ removed)

/-- How many values a step takes. -/
def operands : EvalStep → Nat
  | .enter _ | .literal _ => 0
  | .sign _ _ => 1
  | .operator _ _ => 2

/-- How many values a step leaves in their place. -/
def results : EvalStep → Nat
  | .enter _ => 0
  | _ => 1

end EvalStep

/-- With `n` values held, each of the steps finds its operands, and `m` values are left. -/
inductive Supplied : Nat → List EvalStep → Nat → Prop where
  | nil {n : Nat} : Supplied n [] n
  | cons {n m : Nat} {s : EvalStep} {steps : List EvalStep} (hs : s.operands ≤ n)
      (h : Supplied (n - s.operands + s.results) steps m) : Supplied n (s :: steps) m

namespace Supplied

variable {n m k depth : Nat} {steps steps' : List EvalStep}

theorem append (h : Supplied n steps m) (h' : Supplied m steps' k) :
    Supplied n (steps ++ steps') k := by
  induction h with
  | nil => exact h'
  | cons hs _ ih => exact .cons hs (ih h')

theorem enter (h : Supplied n steps m) : Supplied n (.enter depth :: steps) m :=
  .cons (Nat.zero_le n) h

/-- The steps of a tree need no values before them, and leave one. -/
theorem walk (e : Expr) (depth n : Nat) : Supplied n (e.walk depth) (n + 1) := by
  induction e generalizing depth n with
  | literal v column => exact .enter (.cons (Nat.zero_le n) .nil)
  | signed s operand column ih =>
    exact .enter ((ih (depth + 1) n).append (.cons (Nat.le_add_left 1 n) .nil))
  | binary op left right column ihl ihr =>
    refine .enter (((ihl depth n).append (ihr (depth + 1) (n + 1))).append (.cons ?_ .nil))
    exact Nat.le_add_left 2 n

end Supplied

/-- The values held, last first, start with the operands of the step. -/
inductive Ready : List Number → EvalStep → Prop where
  | enter {values : List Number} {depth : Nat} : Ready values (.enter depth)
  | literal {values : List Number} {v : Number} : Ready values (.literal v)
  | sign {values : List Number} {x : Number} {s : Sign} {column : Nat} :
      Ready (x :: values) (.sign s column)
  | operator {values : List Number} {x y : Number} {op : BinaryOp} {column : Nat} :
      Ready (y :: x :: values) (.operator op column)

theorem ready_of_operands_le {values : List Number} {s : EvalStep}
    (h : s.operands ≤ values.length) : Ready values s := by
  cases s with
  | enter => exact .enter
  | literal => exact .literal
  | sign =>
    match values, h with
    | x :: values, _ => exact .sign
  | operator =>
    match values, h with
    | y :: x :: values, _ => exact .operator

/-! ## The first operator taken away -/

/-- The steps of a tree before the first that applies an operator taken away, which is `o` at
`column`. -/
structure FirstRemoved (removed : List Operation) (e : Expr) (before : List EvalStep)
    (o : Operation) (column : Nat) : Prop where
  mem : o ∈ removed
  keeps : ∀ s ∈ before, s.keeps removed
  next : ∃ s after, e.walk 1 = before ++ s :: after ∧ s.operation? = some (o, column)

/-- The steps apply the operators of the tree. -/
theorem Expr.filterMap_walk (e : Expr) (depth : Nat) :
    (e.walk depth).filterMap EvalStep.operation? = e.operations := by
  induction e generalizing depth with
  | literal => rfl
  | signed sign operand column ih =>
    simp [walk, operations, List.filterMap_cons, ih, EvalStep.operation?]
  | binary op left right column ihl ihr =>
    simp [walk, operations, List.filterMap_cons, ihl, ihr, EvalStep.operation?]

/-- In a tree with an operator taken away there is a first one. -/
theorem exists_firstRemoved {removed : List Operation} {e : Expr}
    (h : ∃ p ∈ e.operations, p.1 ∈ removed) :
    ∃ before o column, FirstRemoved removed e before o column := by
  obtain ⟨⟨o, column⟩, hmem, ho⟩ := h
  rw [← e.filterMap_walk 1] at hmem
  obtain ⟨s, hs, hop⟩ := List.mem_filterMap.1 hmem
  have hsome : ((e.walk 1).find? (!·.keeps removed)).isSome := by
    rw [List.find?_isSome]
    exact ⟨s, hs, by simp [EvalStep.keeps, hop, ho]⟩
  obtain ⟨t, ht⟩ := Option.isSome_iff_exists.1 hsome
  obtain ⟨hremoves, before, after, hwalk, hbefore⟩ := List.find?_eq_some_iff_append.1 ht
  have hkeeps : ∀ u ∈ before, u.keeps removed := fun u hu => by simpa using hbefore u hu
  cases hop' : t.operation? with
  | none => simp [EvalStep.keeps, hop'] at hremoves
  | some p =>
    have hmem : p.1 ∈ removed := by simpa [EvalStep.keeps, hop'] using hremoves
    exact ⟨before, p.1, p.2, hmem, hkeeps, t, after, hwalk, hop'⟩

namespace Evaluator

section

variable {ev : Evaluator} {values values' : List Number} {s : EvalStep}

theorem step_sign (s : Sign) (x : Number) (column : Nat) :
    ev.step (x :: values) (.sign s column) = (ev.applySign s x column).map (· :: values) := rfl

theorem step_operator (op : BinaryOp) (x y : Number) (column : Nat) :
    ev.step (y :: x :: values) (.operator op column) =
      (ev.applyBinary op x y column).map (· :: values) := rfl

/-- A step replaces its operands by its results. -/
theorem length_step (hs : Ready values s) (h : ev.step values s = .ok values') :
    values'.length = values.length - s.operands + s.results := by
  cases hs with
  | enter =>
    rw [step] at h
    split at h
    · cases h
    · cases h; rfl
  | literal => cases h; rfl
  | @sign values x s column =>
    rw [step_sign] at h
    cases hx : ev.applySign s x column with
    | error err => rw [hx] at h; cases h
    | ok y => rw [hx] at h; cases h; rfl
  | @operator values x y op column =>
    rw [step_operator] at h
    cases hx : ev.applyBinary op x y column with
    | error err => rw [hx] at h; cases h
    | ok z => rw [hx] at h; cases h; rfl

/-- After steps that succeed, the next one finds its operands. -/
theorem ready_of_run {before after : List EvalStep} {m : Nat}
    (hsupplied : Supplied values.length (before ++ s :: after) m)
    (h : ev.run before values = .ok values') : Ready values' s := by
  induction before generalizing values with
  | nil =>
    cases h
    cases hsupplied with
    | cons hs _ => exact ready_of_operands_le hs
  | cons t before ih =>
    cases hsupplied with
    | cons ht hrest =>
      rw [run_cons] at h
      cases hstep : ev.step values t with
      | error err => rw [hstep] at h; cases h
      | ok values₁ =>
        rw [hstep] at h
        rw [← length_step (ready_of_operands_le ht) hstep] at hrest
        exact ih hrest h

end

/-! ## Two evaluators -/

section

variable {removed : List Operation} {limit : Nat} {s : EvalStep} {steps : List EvalStep}
  {values : List Number}

theorem applySign_narrow (s : Sign) (x : Number) (column : Nat) :
    (⟨.narrow removed, limit⟩ : Evaluator).applySign s x column =
      if .sign s ∈ removed then .error (.unsupportedSign s column)
      else (s.apply x).mapError (.arithmetic · column) := by
  unfold applySign
  rw [Permitted.sign?_narrow]
  by_cases h : .sign s ∈ removed <;> simp only [h, if_true, if_false]

theorem applyBinary_narrow (op : BinaryOp) (x y : Number) (column : Nat) :
    (⟨.narrow removed, limit⟩ : Evaluator).applyBinary op x y column =
      if .binary op ∈ removed then .error (.unsupportedBinary op column)
      else (op.apply x y).mapError (.arithmetic · column) := by
  unfold applyBinary
  rw [Permitted.binary?_narrow]
  by_cases h : .binary op ∈ removed <;> simp only [h, if_true, if_false]

/-- A step that applies no operator taken away is the same step. -/
theorem step_narrow_of_keeps (h : s.keeps removed) :
    (⟨.narrow removed, limit⟩ : Evaluator).step values s =
      (⟨.all, limit⟩ : Evaluator).step values s := by
  show (⟨.narrow removed, limit⟩ : Evaluator).step values s =
      (⟨.narrow [], limit⟩ : Evaluator).step values s
  match s, values with
  | .enter depth, values => rfl
  | .literal v, values => rfl
  | .sign sign column, [] => rfl
  | .sign sign column, x :: values =>
    have hkept : .sign sign ∉ removed := of_decide_eq_true h
    simp only [step, applySign_narrow, if_neg hkept, List.not_mem_nil, if_false]
  | .operator op column, [] => rfl
  | .operator op column, [_] => rfl
  | .operator op column, y :: x :: values =>
    have hkept : .binary op ∉ removed := of_decide_eq_true h
    simp only [step, applyBinary_narrow, if_neg hkept, List.not_mem_nil, if_false]

theorem run_narrow_of_keeps (h : ∀ s ∈ steps, s.keeps removed) :
    (⟨.narrow removed, limit⟩ : Evaluator).run steps values =
      (⟨.all, limit⟩ : Evaluator).run steps values := by
  induction steps generalizing values with
  | nil => rfl
  | cons s steps ih =>
    rw [run_cons, run_cons, step_narrow_of_keeps (h s List.mem_cons_self)]
    congr 1
    funext values'
    exact ih fun t ht => h t (.tail s ht)

/-- A step that applies an operator taken away fails once it has its operands. -/
theorem step_narrow_of_mem {o : Operation} {column : Nat} (h : s.operation? = some (o, column))
    (ho : o ∈ removed) (hs : Ready values s) :
    (⟨.narrow removed, limit⟩ : Evaluator).step values s = .error (o.unsupported column) := by
  cases hs with
  | enter => cases h
  | literal => cases h
  | sign =>
    cases h
    rw [step_sign, applySign_narrow, if_pos ho]
    rfl
  | operator =>
    cases h
    rw [step_operator, applyBinary_narrow, if_pos ho]
    rfl

/-- Only operators that have been taken away are refused. -/
theorem mem_of_step_narrow {o : Operation} {column : Nat} (hs : Ready values s)
    (h : (⟨.narrow removed, limit⟩ : Evaluator).step values s = .error (o.unsupported column)) :
    o ∈ removed := by
  have harithmetic {r : ArithmeticResult} {column' : Nat} {values : List Number} :
      (r.mapError (EvalError.arithmetic · column')).map (· :: values) ≠
        .error (o.unsupported column) := by
    cases o <;> cases r <;> rintro ⟨⟩
  cases hs with
  | enter =>
    rw [step] at h
    split at h
    · cases o <;> cases h
    · cases h
  | literal => cases h
  | sign =>
    rw [step_sign, applySign_narrow] at h
    split at h
    · next hmem => cases o <;> cases h; exact hmem
    · exact absurd h harithmetic
  | operator =>
    rw [step_operator, applyBinary_narrow] at h
    split at h
    · next hmem => cases o <;> cases h; exact hmem
    · exact absurd h harithmetic

end

/-! ## Whole trees -/

section

variable {removed : List Operation} {limit : Nat} {e : Expr} {before : List EvalStep}
  {o : Operation} {column : Nat} {ev ev' : Evaluator}

theorem run_walk_nil (ev : Evaluator) (e : Expr) :
    ev.run (e.walk 1) [] = (ev.value e).map ([·]) := by
  rw [run_walk, value, valueAt_eq_recurse]

theorem value_eq_of_run_eq (h : ev.run (e.walk 1) [] = ev'.run (e.walk 1) []) :
    ev.value e = ev'.value e := by
  rw [run_walk_nil, run_walk_nil] at h
  cases hv : ev.value e <;> cases hv' : ev'.value e <;> rw [hv, hv'] at h <;> cases h <;> rfl

theorem value_eq_error_iff {err : EvalError} :
    ev.value e = .error err ↔ ev.run (e.walk 1) [] = .error err := by
  rw [run_walk_nil]
  cases ev.value e with
  | ok v => exact iff_of_false (by rintro ⟨⟩) (by rintro ⟨⟩)
  | error err' => simp only [Except.map, Except.error.injEq]

/-- Each step of a tree finds its operands. -/
theorem ready_of_run_walk {s : EvalStep} {after : List EvalStep} {values : List Number}
    (hwalk : e.walk 1 = before ++ s :: after) (h : ev.run before [] = .ok values) :
    Ready values s := by
  have hsupplied : Supplied ([] : List Number).length (before ++ s :: after) 1 := by
    rw [← hwalk]
    exact Supplied.walk e 1 0
  exact ready_of_run hsupplied h

/-- Without an operator taken away, nothing changes. -/
theorem value_narrow_of_keeps (h : ∀ p ∈ e.operations, p.1 ∉ removed) :
    (⟨.narrow removed, limit⟩ : Evaluator).value e = (⟨.all, limit⟩ : Evaluator).value e := by
  refine value_eq_of_run_eq (run_narrow_of_keeps fun s hs => ?_)
  rw [EvalStep.keeps, Option.all_eq_true]
  intro p hop
  rw [← Expr.filterMap_walk e 1] at h
  exact decide_eq_true (h p (List.mem_filterMap.2 ⟨s, hs, hop⟩))

/-- Up to the first operator taken away the steps are the same, and there the evaluation fails. -/
theorem run_narrow_of_first (h : FirstRemoved removed e before o column) :
    (⟨.narrow removed, limit⟩ : Evaluator).run (e.walk 1) [] =
      (⟨.all, limit⟩ : Evaluator).run before [] >>= fun _ => .error (o.unsupported column) := by
  obtain ⟨s, after, hwalk, hop⟩ := h.next
  rw [hwalk, run_append, run_narrow_of_keeps h.keeps]
  cases hrun : (⟨.all, limit⟩ : Evaluator).run before [] with
  | error err => rfl
  | ok values =>
    show (⟨.narrow removed, limit⟩ : Evaluator).run (s :: after) values = _
    rw [run_cons, step_narrow_of_mem hop h.mem (ready_of_run_walk hwalk hrun)]
    rfl

/-- A failure before the first operator taken away is the failure with every operator. -/
theorem value_narrow_of_error {err : EvalError} (h : FirstRemoved removed e before o column)
    (hrun : (⟨.all, limit⟩ : Evaluator).run before [] = .error err) :
    (⟨.all, limit⟩ : Evaluator).value e = .error err ∧
      (⟨.narrow removed, limit⟩ : Evaluator).value e = .error err := by
  obtain ⟨s, after, hwalk, -⟩ := h.next
  constructor
  · rw [value_eq_error_iff, hwalk, run_append, hrun]
    rfl
  · rw [value_eq_error_iff, run_narrow_of_first h, hrun]
    rfl

/-- Where the steps before the first operator taken away succeed, it is refused. -/
theorem value_narrow_of_ok {values : List Number} (h : FirstRemoved removed e before o column)
    (hrun : (⟨.all, limit⟩ : Evaluator).run before [] = .ok values) :
    (⟨.narrow removed, limit⟩ : Evaluator).value e = .error (o.unsupported column) := by
  rw [value_eq_error_iff, run_narrow_of_first h, hrun]
  rfl

/-- A tree that has a value contains no operator taken away. -/
theorem keeps_of_value_narrow {v : Number}
    (h : (⟨.narrow removed, limit⟩ : Evaluator).value e = .ok v) :
    ∀ p ∈ e.operations, p.1 ∉ removed := by
  intro p hp hmem
  obtain ⟨before, o, column, hfirst⟩ := exists_firstRemoved ⟨p, hp, hmem⟩
  cases hrun : (⟨.all, limit⟩ : Evaluator).run before [] with
  | error err => rw [(value_narrow_of_error hfirst hrun).2] at h; cases h
  | ok values => rw [value_narrow_of_ok hfirst hrun] at h; cases h

/-- Only operators that have been taken away are refused. -/
theorem mem_of_value_narrow
    (h : (⟨.narrow removed, limit⟩ : Evaluator).value e = .error (o.unsupported column)) :
    o ∈ removed := by
  rw [value_eq_error_iff, run_eq_error_iff] at h
  obtain ⟨before, s, after, values, hwalk, hrun, hstep⟩ := h
  exact mem_of_step_narrow (ready_of_run_walk hwalk hrun) hstep

end

/-- **Narrowing is exact.** Operators are taken away in any order and with repetitions. A tree then
has a value if and only if it has that value with every operator and contains none of those taken
away, in the arity in which it was taken away. A tree without them has the value or the error that
it has with every operator. In a tree with one of them there is a first in post-order: an error with
every operator that comes before it is the error, and otherwise it is refused at its column. Only
the set of the operators taken away matters, each arity is looked up on its own, and nothing else is
ever refused. -/
theorem value_narrow (removed : List Operation) (limit : Nat) (e : Expr) :
    let every : Evaluator := ⟨.all, limit⟩
    let narrowed : Evaluator := ⟨.narrow removed, limit⟩
    (∀ v, narrowed.value e = .ok v ↔
      every.value e = .ok v ∧ ∀ p ∈ e.operations, p.1 ∉ removed) ∧
    ((∀ p ∈ e.operations, p.1 ∉ removed) → narrowed.value e = every.value e) ∧
    ((∃ p ∈ e.operations, p.1 ∈ removed) →
      ∃ before o column, FirstRemoved removed e before o column) ∧
    (∀ before o column, FirstRemoved removed e before o column →
      (∀ err, every.run before [] = .error err →
        every.value e = .error err ∧ narrowed.value e = .error err) ∧
      ∀ values, every.run before [] = .ok values →
        narrowed.value e = .error (o.unsupported column)) ∧
    (∀ removed', (∀ o, o ∈ removed' ↔ o ∈ removed) →
      Permitted.narrow removed' = Permitted.narrow removed) ∧
    (∀ op, (Permitted.narrow removed).binary? op =
      if .binary op ∈ removed then none else Permitted.all.binary? op) ∧
    (∀ s, (Permitted.narrow removed).sign? s =
      if .sign s ∈ removed then none else Permitted.all.sign? s) ∧
    (∀ o column, narrowed.value e = .error (o.unsupported column) → o ∈ removed) ∧
    ∀ (o : Operation) column, every.value e ≠ .error (o.unsupported column) := by
  intro every narrowed
  have hevery : Permitted.all = Permitted.narrow [] := rfl
  refine ⟨fun v => ⟨fun h => ?_, fun ⟨h, hkeeps⟩ => ?_⟩, value_narrow_of_keeps,
    exists_firstRemoved, fun before o column h => ⟨fun err => value_narrow_of_error h,
    fun values => value_narrow_of_ok h⟩, fun removed' => Permitted.narrow_congr, fun op => ?_,
    fun s => ?_, fun o column => mem_of_value_narrow, fun o column h => ?_⟩
  · have hkeeps := keeps_of_value_narrow h
    exact ⟨value_narrow_of_keeps hkeeps ▸ h, hkeeps⟩
  · exact (value_narrow_of_keeps hkeeps).trans h
  · rw [hevery, Permitted.binary?_narrow, Permitted.binary?_narrow, if_neg List.not_mem_nil]
  · rw [hevery, Permitted.sign?_narrow, Permitted.sign?_narrow, if_neg List.not_mem_nil]
  · exact List.not_mem_nil (@mem_of_value_narrow [] limit e o column h)

/-- In `1+-2` without `+` and the minus sign the sign is refused, since it comes first. -/
theorem value_narrow_sign_first :
    (⟨.narrow [.sign .minus, .binary .add, .sign .minus], 3⟩ : Evaluator).value
      (.binary .add (.literal (.integer 1) 1) (.signed .minus (.literal (.integer 2) 4) 3) 2) =
      .error (.unsupportedSign .minus 3) := by
  have hfirst : FirstRemoved [.sign .minus, .binary .add, .sign .minus]
      (.binary .add (.literal (.integer 1) 1) (.signed .minus (.literal (.integer 2) 4) 3) 2)
      [.enter 1, .enter 1, .literal (.integer 1), .enter 2, .enter 3, .literal (.integer 2)]
      (.sign .minus) 3 := by
    exact ⟨by decide, by simp [EvalStep.keeps, EvalStep.operation?], .sign .minus 3,
      [.operator .add 2], rfl, rfl⟩
  exact ((value_narrow _ 3 _).2.2.2.1 _ _ _ hfirst).2 [.integer 2, .integer 1] rfl

end Evaluator

end Calculator
