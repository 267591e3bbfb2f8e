import Calculator.Proofs.Parser.Descent
import Calculator.Proofs.Parser.Run

/-!
# How many calls the parser needs

The functions of the parser end as the parsers of their levels do. For every nesting level that is
left they need six active calls and no more, however many tokens there are.

* `Routine.calls`, `Goal.calls`: how many calls functions and goals need.
* `perform_group`, `perform_signed`, `perform_power`, `perform_chain`: what each of them calls.
* `Descent.run_nested`, `Descent.run_loop_next`, `Descent.run_loop_stop`: how nested functions and
  loops go on.
* `Run.perform`: with enough calls a goal ends as its runs do.
* `run_within_expression`: with enough calls an expression is parsed as `Cursor.parseAll` parses it.
* `exists_run_within_eq_none`: one call fewer is too few.
-/

namespace Calculator

open Descent Routine

/-- How many calls a function needs beyond those for the nesting levels that are left: its own, and
one for each function down to the rest of a group. -/
def Routine.calls : Routine → Nat
  | .expression => 7
  | .level .additive => 6
  | .level .multiplicative => 5
  | .level .unary => 4
  | .level .power => 3
  | .level .primary => 2
  | .grouping _ => 1

/-- The calls that a function has left for those that it calls. -/
theorem Routine.exists_calls_left {k n : Nat} {r : Routine} (h : 6 * k + r.calls ≤ n) :
    ∃ m, n = m + 1 ∧ 6 * k + (r.calls - 1) ≤ m := by
  have hpos : 0 < r.calls := by
    cases r with
    | expression | grouping => exact Nat.succ_pos _
    | level l => cases l <;> exact Nat.succ_pos _
  exact ⟨n - 1, by omega, by omega⟩

theorem Routine.calls_level_le (l : Level) : (Routine.level l).calls ≤ 6 := by
  cases l <;> decide

/-- How many calls a goal needs with `k` nesting levels left. -/
def Goal.calls (k : Nat) : Goal → Nat
  | .level l => 6 * k + (Routine.level l).calls
  | .nested _ _ => 6 * k
  | .rest c _ => 6 * k + (Routine.level c.operand).calls

/-- What the functions of the parser do for a goal, with so many calls. -/
def Goal.perform (n : Nat) : Goal → Descent Expr
  | .level l => within n (.level l)
  | .nested column l => Descent.nested column (within n (.level l))
  | .rest c left => loop c.accepts (within n (.level c.operand)) left

/-- The cursor before the tokens `ts`, with `depth` levels open. -/
def Setting.cursor (setting : Setting) (depth : Nat) (ts : List Placed) : Cursor :=
  ⟨ts, depth, setting.limit, setting.endColumn⟩

/-- How a function ends for an outcome, with `depth` levels open before it. Of the levels that were
left then, a failure leaves some; the others are open. -/
def Outcome.ending (setting : Setting) (depth : Nat) :
    Outcome → Except ParseError Expr × Cursor
  | .done e rest => (.ok e, setting.cursor depth rest)
  | .failed error rest levels =>
    (.error error, setting.cursor (depth + (setting.limit - depth - levels)) rest)

/-- A failure closes no level that was open before. -/
theorem Run.levels_le {setting : Setting} {k levels : Nat} {goal : Goal} {ts rest : List Placed}
    {error : ParseError} {o : Outcome} (h : Run setting k goal ts o)
    (ho : o = .failed error rest levels) : levels ≤ k := by
  induction h with
  | endOfInput | refused | groupUnclosed | groupRefused | tooDeep => cases ho; exact Nat.le_refl _
  | deeper _ ih => exact Nat.le_succ_of_le (ih ho)
  | groupFailed _ ih | baseFailed _ ih | powerFailed _ _ _ ih | unsigned _ _ ih | signedFailed _ ih
  | first _ _ _ _ ih | firstFailed _ _ ih | next _ _ _ _ ih | nextFailed _ _ ih => exact ih ho
  | integer | float | group | base | power | signed | stop => cases ho

/-! ## One step after another -/

namespace Descent

section

variable {α β : Type} {x : Descent α} {f : α → Descent β} {c c' : Cursor} {a : α} {e : ParseError}

theorem run_bind (x : Descent α) (f : α → Descent β) (c : Cursor) :
    (x >>= f).run c =
      match x.run c with
      | some (.ok a, c') => (f a).run c'
      | some (.error e, c') => some (.error e, c')
      | none => none := rfl

theorem run_bind_ok (h : x.run c = some (.ok a, c')) : (x >>= f).run c = (f a).run c' := by
  rw [run_bind, h]

theorem run_bind_error (h : x.run c = some (.error e, c')) :
    (x >>= f).run c = some (.error e, c') := by
  rw [run_bind, h]

theorem run_bind_none (h : x.run c = none) : (x >>= f).run c = none := by
  rw [run_bind, h]

end

section

variable {setting : Setting} {depth column : Nat} {x : Descent Expr} {ts : List Placed} {left : Expr}

theorem run_enter (h : depth < setting.limit) :
    (enter column).run (setting.cursor depth ts) =
      some (.ok (), setting.cursor (depth + 1) ts) := by
  have hc : (setting.cursor depth ts).enter column = .ok (setting.cursor (depth + 1) ts) :=
    if_neg (Nat.not_le.2 h)
  simp only [Descent.enter, hc]

theorem run_enter_of_le (h : setting.limit ≤ depth) :
    (enter column).run (setting.cursor depth ts) =
      some (.error ⟨.nestingTooDeep setting.limit, column⟩, setting.cursor depth ts) := by
  have hc : (setting.cursor depth ts).enter column =
      .error ⟨.nestingTooDeep setting.limit, column⟩ := if_pos h
  simp only [Descent.enter, hc]

/-- What is nested ends as it does one level deeper. -/
theorem run_nested {o : Outcome} (h : depth < setting.limit)
    (hx : x.run (setting.cursor (depth + 1) ts) = some (o.ending setting (depth + 1)))
    (ho : ∀ error rest levels, o = .failed error rest levels → levels < setting.limit - depth) :
    (Descent.nested column x).run (setting.cursor depth ts) = some (o.ending setting depth) := by
  rw [Descent.nested, run_bind_ok (run_enter h)]
  cases o with
  | done e rest => rw [run_bind_ok hx]; rfl
  | failed error rest levels =>
    have hlt := ho error rest levels rfl
    have hdepth : depth + 1 + (setting.limit - (depth + 1) - levels) =
        depth + (setting.limit - depth - levels) := by omega
    rw [run_bind_error hx, hdepth]
    rfl

/-! ## Loops -/

variable {accepts : BinaryOp → Bool} {op : BinaryOp}

theorem run_loop_stop (h : Avoids accepts ts) :
    (loop accepts x left).run (setting.cursor depth ts) =
      some (.ok left, setting.cursor depth ts) := by
  change loopFrom accepts x left _ = _
  rw [loopFrom]
  split
  · next op column hpeek =>
    obtain ⟨rest, hrest⟩ := List.head?_eq_some_iff.1 hpeek
    rw [h op column rest hrest]
    rfl
  · rfl

/-- A turn of a loop is a call for the operand, and the loop again. -/
theorem run_loop_next (ha : accepts op) :
    (loop accepts x left).run (setting.cursor depth (⟨.operator op, column⟩ :: ts)) =
      (do let right ← x
          loop accepts x (.binary op left right column)).run (setting.cursor depth ts) := by
  change loopFrom accepts x left _ = _
  rw [loopFrom, run_bind]
  split
  · next hpeek =>
    cases hpeek
    rw [if_pos ha]
    have hadvance : (setting.cursor depth (⟨.operator op, column⟩ :: ts)).advance =
        setting.cursor depth ts := rfl
    split
    · next hrun => rw [← hadvance, hrun]; rfl
    · next hrun => rw [← hadvance, hrun]
    · next hrun => rw [← hadvance, hrun]
  · next hpeek => exact absurd rfl (hpeek op column)

end

end Descent

/-! ## Goals -/

section

variable {setting : Setting} {depth column k n : Nat} {ts : List Placed}

/-- A group is its body, one level deeper, and then its end. -/
theorem perform_group (hn : (Goal.level .primary).calls k ≤ n) :
    ∃ m, (Goal.nested column .additive).calls k ≤ m ∧
      ((Goal.level .primary).perform n).run (setting.cursor depth (⟨.leftParen, column⟩ :: ts)) =
        (do let e ← (Goal.nested column .additive).perform m
            close column e).run (setting.cursor depth ts) := by
  obtain ⟨m, rfl, hm⟩ := exists_calls_left hn
  obtain ⟨m', rfl, hm'⟩ := @exists_calls_left k m (.grouping column) hm
  exact ⟨m', hm', rfl⟩

/-- A sign is consumed before its operand, which is one level deeper. -/
theorem perform_signed (sign : Sign) (hn : (Goal.level .unary).calls k ≤ n) :
    ∃ m, (Goal.nested column .unary).calls k ≤ m ∧
      ((Goal.level .unary).perform n).run
          (setting.cursor depth (⟨.operator sign.operator, column⟩ :: ts)) =
        (do let e ← (Goal.nested column .unary).perform m
            return Expr.signed sign e column).run (setting.cursor depth ts) := by
  obtain ⟨m, rfl, hm⟩ := exists_calls_left hn
  refine ⟨m, Nat.le_trans (Nat.le_add_right _ _) hm, ?_⟩
  cases sign <;> rfl

/-- What does not start with a sign is a power. -/
theorem perform_unsigned (ha : Avoids BinaryOp.isSign ts)
    (hn : (Goal.level .unary).calls k ≤ n) :
    ∃ m, (Goal.level .power).calls k ≤ m ∧
      ((Goal.level .unary).perform n).run (setting.cursor depth ts) =
        ((Goal.level .power).perform m).run (setting.cursor depth ts) := by
  obtain ⟨m, rfl, hm⟩ := exists_calls_left hn
  refine ⟨m, hm, ?_⟩
  cases ts with
  | nil => rfl
  | cons t ts =>
    obtain ⟨token, column⟩ := t
    cases token with
    | operator op =>
      cases op with
      | add | sub => cases ha.head
      | _ => rfl
    | _ => rfl

/-- A power is its base, and then its exponent. -/
theorem perform_power (hn : (Goal.level .power).calls k ≤ n) :
    ∃ m, (Goal.level .primary).calls k ≤ m ∧
      (Goal.level .power).perform n =
        (do let base ← (Goal.level .primary).perform m
            raise (within m) base) := by
  obtain ⟨m, rfl, hm⟩ := exists_calls_left hn
  exact ⟨m, hm, rfl⟩

/-- After `**` the exponent is one level deeper. -/
theorem run_raise (base : Expr) :
    (raise (within n) base).run (setting.cursor depth (⟨.operator .pow, column⟩ :: ts)) =
      (do let exponent ← (Goal.nested column .unary).perform n
          return Expr.binary .pow base exponent column).run (setting.cursor depth ts) := rfl

/-- Without `**` there is no exponent. -/
theorem run_raise_of_avoids (ha : Avoids BinaryOp.isPower ts) (base : Expr) :
    (raise (within n) base).run (setting.cursor depth ts) =
      some (.ok base, setting.cursor depth ts) := by
  cases ts with
  | nil => rfl
  | cons t ts =>
    obtain ⟨token, column⟩ := t
    cases token with
    | operator op =>
      cases op with
      | pow => cases ha.head
      | _ => rfl
    | _ => rfl

/-- A chain is its first operand, and then a loop. -/
theorem perform_chain (c : Chain) (hn : (Goal.level c.level).calls k ≤ n) :
    ∃ m, (Goal.level c.operand).calls k ≤ m ∧
      (Goal.level c.level).perform n =
        (do let left ← (Goal.level c.operand).perform m
            (Goal.rest c left).perform m) := by
  obtain ⟨m, rfl, hm⟩ := exists_calls_left hn
  refine ⟨m, ?_, ?_⟩ <;> cases c
  · exact hm
  · exact hm
  · rfl
  · rfl

end

/-- With enough calls a goal ends as its runs do. The induction is on the run: each function passes
on what those that it calls end with. -/
theorem Run.perform {setting : Setting} {k : Nat} {goal : Goal} {ts : List Placed} {o : Outcome}
    (h : Run setting k goal ts o) {n depth : Nat} (hk : setting.limit - depth = k)
    (hn : goal.calls k ≤ n) :
    (goal.perform n).run (setting.cursor depth ts) = some (o.ending setting depth) := by
  induction h generalizing n depth with
  | integer | float =>
    obtain ⟨m, rfl, -⟩ := exists_calls_left hn
    rfl
  | endOfInput =>
    obtain ⟨m, rfl, -⟩ := exists_calls_left hn
    rw [Outcome.ending, hk, Nat.sub_self]
    rfl
  | @refused k t ts ht =>
    obtain ⟨m, rfl, -⟩ := exists_calls_left hn
    rw [Outcome.ending, hk, Nat.sub_self]
    obtain ⟨token, column⟩ := t
    cases token <;> first | rfl | cases ht
  | group _ ih =>
    obtain ⟨m, hm, hgroup⟩ := perform_group hn
    rw [hgroup, run_bind_ok (ih hk hm)]
    rfl
  | groupUnclosed _ ih =>
    obtain ⟨m, hm, hgroup⟩ := perform_group hn
    rw [hgroup, run_bind_ok (ih hk hm), Outcome.ending, hk, Nat.sub_self]
    rfl
  | @groupRefused k column ts e t rest _ ht ih =>
    obtain ⟨m, hm, hgroup⟩ := perform_group hn
    rw [hgroup, run_bind_ok (ih hk hm), Outcome.ending, hk, Nat.sub_self]
    obtain ⟨token, column⟩ := t
    cases token <;> first | rfl | exact absurd rfl ht
  | groupFailed _ ih =>
    obtain ⟨m, hm, hgroup⟩ := perform_group hn
    rw [hgroup, run_bind_error (ih hk hm)]
    rfl
  | tooDeep =>
    rw [Goal.perform, Descent.nested, run_bind_error (run_enter_of_le (by omega)), Outcome.ending,
      hk]
    rfl
  | @deeper k column l ts o h ih =>
    have hcalls := calls_level_le l
    refine run_nested (by omega) (ih (by omega) ?_) fun error rest levels ho => ?_
    · change 6 * (k + 1) ≤ n at hn
      change 6 * k + (Routine.level l).calls ≤ n
      omega
    · have hle := h.levels_le ho
      omega
  | base _ ha ih =>
    obtain ⟨m, hm, hpower⟩ := perform_power hn
    rw [hpower, run_bind_ok (ih hk hm)]
    exact run_raise_of_avoids ha _
  | baseFailed _ ih =>
    obtain ⟨m, hm, hpower⟩ := perform_power hn
    rw [hpower, run_bind_error (ih hk hm)]
    rfl
  | power _ _ ihb ihx =>
    obtain ⟨m, hm, hpower⟩ := perform_power hn
    rw [hpower, run_bind_ok (ihb hk hm), run_raise,
      run_bind_ok (ihx hk (Nat.le_trans (Nat.le_add_right _ _) hm))]
    rfl
  | powerFailed _ _ ihb ihx =>
    obtain ⟨m, hm, hpower⟩ := perform_power hn
    rw [hpower, run_bind_ok (ihb hk hm), run_raise,
      run_bind_error (ihx hk (Nat.le_trans (Nat.le_add_right _ _) hm))]
    rfl
  | unsigned ha _ ih =>
    obtain ⟨m, hm, hunsigned⟩ := perform_unsigned ha hn
    rw [hunsigned, ih hk hm]
  | @signed k sign column ts e rest _ ih =>
    obtain ⟨m, hm, hsigned⟩ := perform_signed sign hn
    rw [hsigned, run_bind_ok (ih hk hm)]
    rfl
  | @signedFailed k sign column ts error rest levels _ ih =>
    obtain ⟨m, hm, hsigned⟩ := perform_signed sign hn
    rw [hsigned, run_bind_error (ih hk hm)]
    rfl
  | first c _ _ iho ihr =>
    obtain ⟨m, hm, hchain⟩ := perform_chain c hn
    rw [hchain, run_bind_ok (iho hk hm)]
    exact ihr hk hm
  | firstFailed c _ ih =>
    obtain ⟨m, hm, hchain⟩ := perform_chain c hn
    rw [hchain, run_bind_error (ih hk hm)]
    rfl
  | stop ha => exact run_loop_stop ha
  | next ha _ _ iho ihr =>
    rw [Goal.perform, run_loop_next ha]
    exact (run_bind_ok (iho hk hn)).trans (ihr hk hn)
  | nextFailed ha _ ih =>
    rw [Goal.perform, run_loop_next ha]
    exact run_bind_error (ih hk hn)

/-! ## Cursors -/

/-- The parser of a level ends as its goal does. -/
theorem parseLevel_eq_ending (c : Cursor) (l : Level) :
    c.parseLevel l =
      (Goal.parse ⟨c.limit, c.endColumn⟩ c.levels (.level l) c.tokens).ending
        ⟨c.limit, c.endColumn⟩ c.depth := by
  have hparse : Goal.parse ⟨c.limit, c.endColumn⟩ c.levels (.level l) c.tokens =
      (parser ⟨c.limit, c.endColumn⟩ c.levels l).run c.tokens := by
    cases c.levels <;> rfl
  rw [hparse, Cursor.parseLevel]
  cases (parser ⟨c.limit, c.endColumn⟩ c.levels l).run c.tokens <;> rfl

/-- With enough calls the function of a level parses as the parser of the level does. -/
theorem run_within_level {c : Cursor} {l : Level} {n : Nat}
    (hn : (Goal.level l).calls c.levels ≤ n) :
    (within n (.level l)).run c = some (c.parseLevel l) := by
  rw [parseLevel_eq_ending]
  exact (run_parse ⟨c.limit, c.endColumn⟩ c.levels (.level l) c.tokens).perform rfl hn

/-- With enough calls an expression is parsed as the parser of expressions parses it. -/
theorem run_within_expression {c : Cursor} {n : Nat}
    (hn : 6 * c.levels + Routine.expression.calls ≤ n) :
    (within n .expression).run c = some c.parseAll := by
  obtain ⟨m, rfl, hm⟩ := exists_calls_left hn
  have hadditive : (within m (.level .additive)).run c = some (c.parseLevel .additive) :=
    run_within_level hm
  rw [within, body, Cursor.parseAll]
  cases hlevel : c.parseLevel .additive with
  | mk result c' =>
    rw [hlevel] at hadditive
    cases result with
    | error e => rw [run_bind_error hadditive]
    | ok e =>
      rw [run_bind_ok hadditive]
      obtain ⟨tokens, depth, limit, endColumn⟩ := c'
      cases tokens <;> rfl

/-! ## One call fewer -/

/-- Groups one in another, one more than there are levels left, need all the calls: the innermost is
refused by the last of them. -/
theorem run_within_groups {setting : Setting} {depth k column : Nat}
    (h : depth + k ≤ setting.limit) :
    (within (6 * k + 5) (.level .additive)).run
      (setting.cursor depth (.replicate (k + 1) ⟨.leftParen, column⟩)) = none := by
  induction k generalizing depth with
  | zero => rfl
  | succ k ih =>
    have hgroup : (within (6 * k + 6) (.grouping column)).run
        (setting.cursor depth (.replicate (k + 1) ⟨.leftParen, column⟩)) = none := by
      refine run_bind_none ?_
      rw [Descent.nested, run_bind_ok (run_enter (by omega))]
      exact run_bind_none (ih (by omega))
    have hprimary : (within (6 * k + 7) (.level .primary)).run
        (setting.cursor depth (.replicate (k + 2) ⟨.leftParen, column⟩)) = none := hgroup
    have hpower : (within (6 * k + 8) (.level .power)).run
        (setting.cursor depth (.replicate (k + 2) ⟨.leftParen, column⟩)) = none :=
      run_bind_none hprimary
    have hunary : (within (6 * k + 9) (.level .unary)).run
        (setting.cursor depth (.replicate (k + 2) ⟨.leftParen, column⟩)) = none := hpower
    exact run_bind_none (run_bind_none hunary)

/-- With one call fewer than `run_within_expression` asks for, some expressions run out of calls. -/
theorem exists_run_within_eq_none (limit : Nat) :
    ∃ ts : List Placed, (within (6 * limit + 6) .expression).run (.start ts 0 limit) = none :=
  ⟨_, run_bind_none (@run_within_groups ⟨limit, 0⟩ 0 limit 1 (Nat.le_of_eq (Nat.zero_add limit)))⟩

end Calculator
