import Calculator.Proofs.Parser.Calls

/-!
# The account of nesting levels

A function of the parser that succeeds has closed each level that it opened, and one that fails may
leave some open. So whoever calls these functions one after another, whatever becomes of the calls,
never sees fewer levels open than before, nor more than the limit. A function never closes a level
that it did not open, so a check that a level is open before one is closed changes nothing.

* `Cursor.Advances`: what a cursor keeps when it moves on.
* `Descent.leaveChecked`, `Routine.withinChecked`: closing levels with the check, and the functions
  of the parser that do so.
* `Descent.Balanced`: how functions keep account; `Balanced.bind`, `Balanced.nested` and
  `Balanced.loop` carry it from the parts of a function to the whole.
* `Routine.balanced_within`: the functions of the parser keep account.
* `Cursor.accounts_after`: so they do on a cursor that has been through other calls.
-/

namespace Calculator

/-- What a cursor keeps when it moves on. -/
structure Cursor.Advances (c c' : Cursor) : Prop where
  limit_eq : c'.limit = c.limit
  endColumn_eq : c'.endColumn = c.endColumn
  suffix : c'.tokens <:+ c.tokens
  le_depth : c.depth ≤ c'.depth
  depth_le : c'.depth ≤ c'.limit

namespace Cursor.Advances

variable {c c₁ c₂ : Cursor}

theorem refl (hc : c.depth ≤ c.limit) : c.Advances c :=
  ⟨rfl, rfl, List.suffix_refl _, Nat.le_refl _, hc⟩

theorem trans (h : c.Advances c₁) (h' : c₁.Advances c₂) : c.Advances c₂ where
  limit_eq := h'.limit_eq.trans h.limit_eq
  endColumn_eq := h'.endColumn_eq.trans h.endColumn_eq
  suffix := h'.suffix.trans h.suffix
  le_depth := Nat.le_trans h.le_depth h'.le_depth
  depth_le := h'.depth_le

theorem advance (hc : c.depth ≤ c.limit) : c.Advances c.advance :=
  ⟨rfl, rfl, List.drop_suffix 1 c.tokens, Nat.le_refl _, hc⟩

/-- A level more is open. -/
theorem deeper (hc : c.depth < c.limit) : c.Advances { c with depth := c.depth + 1 } :=
  ⟨rfl, rfl, List.suffix_refl _, Nat.le_succ _, hc⟩

/-- A level that was opened is closed. -/
theorem leave (hc : c.depth ≤ c.limit) (h : Advances { c with depth := c.depth + 1 } c₁)
    (hdepth : c₁.leave.depth = c.depth) : c.Advances c₁.leave where
  limit_eq := h.limit_eq
  endColumn_eq := h.endColumn_eq
  suffix := h.suffix
  le_depth := Nat.le_of_eq hdepth.symm
  depth_le := by
    have hlimit : c₁.leave.limit = c.limit := h.limit_eq
    rwa [hdepth, hlimit]

end Cursor.Advances

/-! ## Closing levels with a check -/

namespace Descent

variable {α β : Type}

/-- Closes a nesting level if one is open. -/
def leaveChecked : Descent Unit where
  run c := if c.depth = 0 then none else some (.ok (), c.leave)
  length_le h := by
    split at h
    · cases h
    · exact leave.length_le h

/-- What the token at `column` opens, one level deeper, closed with the check. -/
def nestedChecked (column : Nat) (x : Descent α) : Descent α := do
  enter column
  let a ← x
  leaveChecked
  return a

end Descent

namespace Routine

open Descent

/-- The exponent after a base, if there is one. -/
def raiseChecked (call : Routine → Descent Expr) (base : Expr) : Descent Expr := do
  match ← peek with
  | some ⟨.operator .pow, column⟩ =>
    let _ ← next
    let exponent ← nestedChecked column (call (.level .unary))
    return .binary .pow base exponent column
  | _ => return base

/-- What a function of the parser does that closes levels with the check, by the functions that it
calls. -/
def bodyChecked (call : Routine → Descent Expr) : Routine → Descent Expr
  | .level .unary => do
    match ← peek with
    | some ⟨.operator op, column⟩ =>
      match op.sign? with
      | some sign =>
        let _ ← next
        let e ← nestedChecked column (call (.level .unary))
        return .signed sign e column
      | none => call (.level .power)
    | _ => call (.level .power)
  | .level .power => do
    let base ← call (.level .primary)
    raiseChecked call base
  | .grouping column => do
    let e ← nestedChecked column (call (.level .additive))
    close column e
  | r => body call r

/-- `Routine.within` with the check. -/
def withinChecked : Nat → Routine → Descent Expr
  | 0, _ => outOfCalls
  | n + 1, r => r.bodyChecked (withinChecked n)

end Routine

/-! ## Keeping account -/

/-- Whenever `x` ends it has moved the cursor on, and a success has left the depth as it was. The
levels closed were all open, so `y`, which does the same with the check, ends alike. -/
def Descent.Balanced {α : Type} (x y : Descent α) : Prop :=
  ∀ ⦃c r c'⦄, x.run c = some (r, c') → c.depth ≤ c.limit →
    y.run c = some (r, c') ∧ c.Advances c' ∧ ∀ a, r = .ok a → c'.depth = c.depth

namespace Descent.Balanced

variable {α β : Type} {x y : Descent α} {f g : α → Descent β}

theorem pure (a : α) : Balanced (Pure.pure a) (Pure.pure a) := by
  rintro c r c' ⟨⟩ hc
  exact ⟨rfl, .refl hc, fun _ _ => rfl⟩

theorem fail (e : ParseError) : Balanced (α := α) (.fail e) (.fail e) := by
  rintro c r c' ⟨⟩ hc
  exact ⟨rfl, .refl hc, fun _ _ => rfl⟩

theorem outOfCalls : Balanced (α := α) .outOfCalls .outOfCalls := by
  rintro c r c' ⟨⟩

theorem peek : Balanced .peek .peek := by
  rintro c r c' ⟨⟩ hc
  exact ⟨rfl, .refl hc, fun _ _ => rfl⟩

theorem next : Balanced .next .next := by
  rintro c r c' ⟨⟩ hc
  exact ⟨rfl, .advance hc, fun _ _ => rfl⟩

theorem endColumn : Balanced .endColumn .endColumn := by
  rintro c r c' ⟨⟩ hc
  exact ⟨rfl, .refl hc, fun _ _ => rfl⟩

theorem bind (hx : Balanced x y) (hf : ∀ a, Balanced (f a) (g a)) :
    Balanced (x >>= f) (y >>= g) := by
  intro c r c' h hc
  rw [run_bind] at h
  split at h
  · next a c₁ hrun =>
    obtain ⟨hy, hadv, hdepth⟩ := hx hrun hc
    obtain ⟨hg, hadv', hdepth'⟩ := hf a h hadv.depth_le
    refine ⟨(run_bind_ok hy).trans hg, hadv.trans hadv', ?_⟩
    intro b hb
    rw [hdepth' b hb, hdepth a rfl]
  · next e c₁ hrun =>
    cases h
    obtain ⟨hy, hadv, -⟩ := hx hrun hc
    exact ⟨run_bind_error hy, hadv, by rintro _ ⟨⟩⟩
  · cases h

/-- A nested function opens a level, and closes it if it succeeds. -/
theorem nested (column : Nat) (hx : Balanced x y) :
    Balanced (.nested column x) (.nestedChecked column y) := by
  intro c r c' h hc
  rcases Nat.lt_or_ge c.depth c.limit with hlt | hge
  · have henter : (enter column).run c = some (.ok (), { c with depth := c.depth + 1 }) :=
      @run_enter ⟨c.limit, c.endColumn⟩ c.depth column c.tokens hlt
    rw [Descent.nested, run_bind_ok henter, run_bind] at h
    split at h
    · next a c₁ hrun =>
      cases h
      obtain ⟨hy, hadv, hdepth⟩ := hx hrun hlt
      have hopen : c₁.depth = c.depth + 1 := hdepth a rfl
      have hleave : leaveChecked.run c₁ = some (.ok (), c₁.leave) := if_neg (by omega)
      have hclosed : c₁.leave.depth = c.depth := by rw [Cursor.leave, hopen, Nat.add_sub_cancel]
      refine ⟨?_, .leave hc hadv hclosed, fun _ _ => hclosed⟩
      rw [Descent.nestedChecked, run_bind_ok henter, run_bind_ok hy, run_bind_ok hleave]
      rfl
    · next e c₁ hrun =>
      cases h
      obtain ⟨hy, hadv, -⟩ := hx hrun hlt
      refine ⟨?_, (Cursor.Advances.deeper hlt).trans hadv, by rintro _ ⟨⟩⟩
      rw [Descent.nestedChecked, run_bind_ok henter, run_bind_error hy]
    · cases h
  · have henter : (enter column).run c = some (.error ⟨.nestingTooDeep c.limit, column⟩, c) :=
      @run_enter_of_le ⟨c.limit, c.endColumn⟩ c.depth column c.tokens hge
    rw [Descent.nested, run_bind_error henter] at h
    cases h
    exact ⟨run_bind_error henter, .refl hc, by rintro _ ⟨⟩⟩

/-- Each turn of a loop keeps account if its operand does. The induction is on the tokens left. -/
theorem loop (accepts : BinaryOp → Bool) {x y : Descent Expr} (hx : Balanced x y) (left : Expr) :
    Balanced (.loop accepts x left) (.loop accepts y left) := by
  intro c r c' h hc
  induction hn : c.tokens.length using Nat.strongRecOn generalizing c left with
  | _ n ih =>
    obtain ⟨ts, depth, limit, endColumn⟩ := c
    by_cases hstop : Avoids accepts ts
    · have hrun (z : Descent Expr) :=
        @run_loop_stop ⟨limit, endColumn⟩ depth z ts left accepts hstop
      cases (hrun x).symm.trans h
      exact ⟨hrun y, .refl hc, fun _ _ => rfl⟩
    · obtain ⟨op, column, us, rfl, ha⟩ : ∃ op column us,
          ts = ⟨.operator op, column⟩ :: us ∧ accepts op := by
        simpa [Avoids] using hstop
      have hrun (z : Descent Expr) := @run_loop_next ⟨limit, endColumn⟩ depth column z us left
        accepts op ha
      have hstep := (hrun x).symm.trans h
      rw [run_bind] at hstep
      split at hstep
      · next right c₁ hright =>
        obtain ⟨hy, hadv, hdepth⟩ := hx hright hc
        have hlt : c₁.tokens.length < n := by
          have hle := x.length_le hright
          rw [← hn]
          exact Nat.lt_succ_of_le hle
        obtain ⟨hloop, hadv', hdepth'⟩ := ih _ hlt _ hstep hadv.depth_le rfl
        refine ⟨(hrun y).trans ((run_bind_ok hy).trans hloop),
          (Cursor.Advances.advance hc).trans (hadv.trans hadv'), ?_⟩
        intro e he
        rw [hdepth' e he, hdepth right rfl]
        rfl
      · next e c₁ hright =>
        cases hstep
        obtain ⟨hy, hadv, -⟩ := hx hright hc
        refine ⟨(hrun y).trans (run_bind_error hy), (Cursor.Advances.advance hc).trans hadv, ?_⟩
        rintro _ ⟨⟩
      · cases hstep

end Descent.Balanced

/-! ## The functions of the parser -/

namespace Routine

open Descent

variable {call call' : Routine → Descent Expr}

theorem balanced_close (column : Nat) (e : Expr) :
    (close column e).Balanced (close column e) := by
  refine Balanced.bind .next fun t => ?_
  split
  · exact .fail _
  · exact .pure _
  · exact .fail _

theorem balanced_raise (h : ∀ r, (call r).Balanced (call' r)) (base : Expr) :
    (raise call base).Balanced (raiseChecked call' base) := by
  refine Balanced.bind .peek fun t => ?_
  rcases t with _ | ⟨token, column⟩
  · exact .pure _
  cases token with
  | operator op =>
    cases op with
    | pow => exact .bind .next fun _ => .bind (.nested column (h _)) fun _ => .pure _
    | _ => exact .pure _
  | _ => exact .pure _

/-- A function of the parser keeps account if those that it calls do. -/
theorem balanced_body (h : ∀ r, (call r).Balanced (call' r)) (r : Routine) :
    (r.body call).Balanced (r.bodyChecked call') := by
  cases r with
  | expression =>
    refine Balanced.bind (h _) fun e => .bind .next fun t => ?_
    split
    · exact .pure _
    · exact .fail _
  | grouping column => exact .bind (.nested column (h _)) fun e => balanced_close column e
  | level l =>
    cases l with
    | additive => exact .bind (h _) fun left => .loop _ (h _) left
    | multiplicative => exact .bind (h _) fun left => .loop _ (h _) left
    | unary =>
      refine Balanced.bind .peek fun t => ?_
      rcases t with _ | ⟨token, column⟩
      · exact h _
      cases token with
      | operator op =>
        dsimp only
        cases op.sign? with
        | some sign => exact .bind .next fun _ => .bind (.nested column (h _)) fun _ => .pure _
        | none => exact h _
      | _ => exact h _
    | power => exact .bind (h _) fun base => balanced_raise h base
    | primary =>
      refine Balanced.bind .next fun t => ?_
      split
      · exact .bind .endColumn fun _ => .fail _
      · exact .pure _
      · exact .pure _
      · exact h _
      · exact .fail _

/-- The functions of the parser keep account, however many calls they have. -/
theorem balanced_within (n : Nat) (r : Routine) :
    (r.within n).Balanced (r.withinChecked n) := by
  induction n generalizing r with
  | zero => exact .outOfCalls
  | succ n ih => exact balanced_body ih r

end Routine

/-! ## Calls on one cursor -/

/-- The functions of the parser that are called from outside. -/
inductive Entry where
  | expression
  | level (l : Level)

def Entry.routine : Entry → Routine
  | .expression => .expression
  | .level l => .level l

/-- What may be done with a cursor from outside. -/
inductive Action where
  | call (f : Entry)
  | peek
  | next
  /-- Opens a nesting level for the token at `column`. -/
  | enter (column : Nat)

namespace Cursor

/-- The result of a call, and the cursor after it. -/
def call (c : Cursor) : Entry → Except ParseError Expr × Cursor
  | .expression => c.parseAll
  | .level l => c.parseLevel l

def perform (c : Cursor) : Action → Cursor
  | .call f => (c.call f).2
  | .peek => c
  | .next => c.advance
  | .enter column =>
    match c.enter column with
    | .ok c' => c'
    | .error _ => c

/-- The cursor after one action after another, whatever becomes of them. -/
def after (c : Cursor) (actions : List Action) : Cursor := actions.foldl perform c

/-- A call keeps account of the nesting levels. -/
structure Accounts (c : Cursor) (f : Entry) : Prop where
  advances : c.Advances (c.call f).2
  depth_eq {e : Expr} : (c.call f).1 = .ok e → (c.call f).2.depth = c.depth
  tokens_ne {e : Expr} : (c.call f).1 = .ok e → (c.call f).2.tokens ≠ c.tokens
  /-- No level is closed when none is open: with the check the call ends as without it. -/
  checked {n : Nat} : 6 * c.levels + 7 ≤ n →
    (f.routine.withinChecked n).run c = some (c.call f)

variable {c : Cursor}

theorem run_within_routine {f : Entry} {n : Nat} (hn : 6 * c.levels + 7 ≤ n) :
    (f.routine.within n).run c = some (c.call f) := by
  cases f with
  | expression => exact run_within_expression hn
  | level l =>
    have hcalls := Routine.calls_level_le l
    refine run_within_level ?_
    rw [Goal.calls]
    omega

theorem length_lt_of_parseLevel {l : Level} {e : Expr} (h : (c.parseLevel l).1 = .ok e) :
    (c.parseLevel l).2.tokens.length < c.tokens.length := by
  unfold parseLevel at h ⊢
  split at h
  · next hrun => exact (parser _ _ l).consumes hrun
  · cases h

/-- A call that succeeds has consumed a token. -/
theorem length_lt_of_call {f : Entry} {e : Expr} (h : (c.call f).1 = .ok e) :
    (c.call f).2.tokens.length < c.tokens.length := by
  cases f with
  | level l => exact length_lt_of_parseLevel h
  | expression =>
    have hlevel := @length_lt_of_parseLevel c .additive
    rw [call, parseAll] at h ⊢
    split at h
    · next e' c' hrun =>
      rw [hrun] at hlevel
      split at h
      · exact hlevel rfl
      · cases h
    · cases h

theorem accounts (hc : c.depth ≤ c.limit) (f : Entry) : c.Accounts f := by
  have hrun {n : Nat} (hn : 6 * c.levels + 7 ≤ n) :=
    Routine.balanced_within n f.routine (run_within_routine hn) hc
  obtain ⟨-, hadv, hdepth⟩ := hrun (Nat.le_refl _)
  refine ⟨hadv, fun {e} h => hdepth e h, fun {e} h heq => ?_, fun {n} hn => (hrun hn).1⟩
  have hlt := length_lt_of_call h
  rw [heq] at hlt
  exact Nat.lt_irrefl _ hlt

theorem advances_perform (hc : c.depth ≤ c.limit) (a : Action) : c.Advances (c.perform a) := by
  cases a with
  | call f => exact (accounts hc f).advances
  | peek => exact .refl hc
  | next => exact .advance hc
  | enter column =>
    rw [perform, Cursor.enter]
    split
    · next c' h =>
      split at h
      · cases h
      · next hlt =>
        cases h
        exact .deeper (Nat.not_le.1 hlt)
    · exact .refl hc

theorem advances_after (hc : c.depth ≤ c.limit) (actions : List Action) :
    c.Advances (c.after actions) := by
  induction actions generalizing c with
  | nil => exact .refl hc
  | cons a actions ih =>
    have hstep := advances_perform hc a
    exact hstep.trans (ih hstep.depth_le)

/-- **The account of nesting levels.** On a cursor that has been through other calls, successful or
not, and has been moved on or had levels opened in between, there are at least as many levels open
as before all that, and at most as many as the limit allows. Each call there keeps account of them.
-/
theorem accounts_after (hc : c.depth ≤ c.limit) (actions : List Action) (f : Entry) :
    c.Advances (c.after actions) ∧ (c.after actions).Accounts f := by
  have hadv := advances_after hc actions
  exact ⟨hadv, accounts hadv.depth_le f⟩

/-- The first call fails inside of a group and leaves its level open. The second one succeeds. -/
theorem accounts_after_failure :
    let c : Cursor := ⟨[⟨.leftParen, 1⟩, ⟨.operator .mul, 2⟩, ⟨.integer 3, 3⟩], 0, 1, 4⟩
    let actions : List Action := [.call .expression, .peek]
    c.depth ≤ c.limit ∧ (c.after actions).depth = 1 ∧
      c.Advances (c.after actions) ∧ (c.after actions).Accounts (.level .additive) :=
  ⟨by decide, rfl, accounts_after (by decide) [.call .expression, .peek] (.level .additive)⟩

end Cursor

end Calculator
