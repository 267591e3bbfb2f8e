import Calculator.Proofs.Evaluation.Depth

/-!
# The limit of an evaluator only cuts

Whatever an evaluator makes of a tree, a higher limit on depth does not change, unless the lower
limit was what ended the evaluation.

* `Evaluator.unlimitedValue`: the value of a tree, however deep it is.
* `Expr.FlatChain`: chains of operations, of any length, whose operands are literals.
* `recurse_withLimit`: what is no refusal for depth stays under a higher limit.
* `recurse_eq_unlimitedValue`, `recurse_of_unlimitedValue`: what becomes of a tree within the limit,
  and of one beyond it that has a value.
* `Evaluator.value_withLimit`: the results of an evaluator by its limit.
-/

namespace Calculator

/-- Chains of binary operations nested to the left, all of whose operands are literals. -/
inductive Expr.FlatChain : Expr → Prop
  | first (v : Number) (column : Nat) : FlatChain (.literal v column)
  | link {left : Expr} (h : FlatChain left) (op : BinaryOp) (v : Number) (column column' : Nat) :
      FlatChain (.binary op left (.literal v column) column')

/-- The length of a chain does not count. -/
theorem Expr.FlatChain.depth_le {e : Expr} (h : e.FlatChain) : e.depth ≤ 2 := by
  induction h with
  | first => exact Nat.le_succ 1
  | link _ _ _ _ _ ih => exact Nat.max_le.2 ⟨ih, Nat.le_refl 2⟩

/-- A sequence stays as it is if both parts do, where a part need not when it ends in the error. -/
theorem bind_eq_of_ne {α β : Type} {err : EvalError} {x x' : Except EvalError α}
    {f f' : α → Except EvalError β} (h : (x >>= f) ≠ .error err)
    (hx : x ≠ .error err → x' = x) (hf : ∀ a, f a ≠ .error err → f' a = f a) :
    (x' >>= f') = x >>= f := by
  cases x with
  | error e =>
    have hne : (Except.error e : Except EvalError α) ≠ .error err := by
      rintro ⟨⟩
      exact h rfl
    rw [hx hne]
    rfl
  | ok a =>
    rw [hx (by rintro ⟨⟩)]
    exact hf a h

namespace Evaluator

/-- The value of a tree by recursion, however deep it is. -/
def unlimitedValue (ev : Evaluator) : Expr → Except EvalError Number
  | .literal v _ => .ok v
  | .signed sign operand column => do
    let x ← ev.unlimitedValue operand
    ev.applySign sign x column
  | .binary op left right column => do
    let x ← ev.unlimitedValue left
    let y ← ev.unlimitedValue right
    ev.applyBinary op x y column

section

variable {ev : Evaluator} {depth m m' : Nat} {e : Expr} {x : Number}

theorem unlimitedValue_withLimit (ev : Evaluator) (m : Nat) (e : Expr) :
    (ev.withLimit m).unlimitedValue e = ev.unlimitedValue e := by
  induction e with
  | literal => rfl
  | signed sign operand column ih => rw [unlimitedValue, ih]; rfl
  | binary op left right column ihl ihr => rw [unlimitedValue, ihl, ihr]; rfl

/-- Beyond the limit there is nothing but the refusal. -/
theorem le_limit_of_recurse_ne (h : ev.recurse depth e ≠ .error (.nestingTooDeep ev.limit)) :
    depth ≤ ev.limit := by
  rcases Nat.lt_or_ge ev.limit depth with hlt | hle
  · exact absurd (recurse_of_lt hlt e) h
  · exact hle

/-- What is no refusal for depth stays under a higher limit. An evaluation that fails in another way
does so before it goes too deep, and takes the same course up to there. -/
theorem recurse_withLimit (hm : m ≤ m')
    (h : (ev.withLimit m).recurse depth e ≠ .error (.nestingTooDeep m)) :
    (ev.withLimit m').recurse depth e = (ev.withLimit m).recurse depth e := by
  have hle : depth ≤ (ev.withLimit m).limit := le_limit_of_recurse_ne h
  have hle' : depth ≤ (ev.withLimit m').limit := Nat.le_trans hle hm
  induction e generalizing depth with
  | literal v column => rw [recurse_literal hle, recurse_literal hle']
  | signed sign operand column ih =>
    rw [recurse_signed hle] at h ⊢
    rw [recurse_signed hle']
    refine bind_eq_of_ne h (fun hx => ?_) fun _ _ => rfl
    have hnext := le_limit_of_recurse_ne hx
    exact ih hx hnext (Nat.le_trans hnext hm)
  | binary op left right column ihl ihr =>
    rw [recurse_binary hle] at h ⊢
    rw [recurse_binary hle']
    refine bind_eq_of_ne h (fun hx => ihl hx hle hle') fun x hx => ?_
    refine bind_eq_of_ne hx (fun hy => ?_) fun _ _ => rfl
    have hnext := le_limit_of_recurse_ne hy
    exact ihr hy hnext (Nat.le_trans hnext hm)

/-- A tree that ends within the limit is evaluated as if there were none. -/
theorem recurse_eq_unlimitedValue (h : depth + e.depth ≤ ev.limit + 1) :
    ev.recurse depth e = ev.unlimitedValue e := by
  have hd : depth ≤ ev.limit := by have := e.depth_pos; omega
  induction e generalizing depth with
  | literal v column => exact recurse_literal hd v column
  | signed sign operand column ih =>
    rw [Expr.depth] at h
    rw [recurse_signed hd, ih (by omega) (by have := operand.depth_pos; omega), unlimitedValue]
  | binary op left right column ihl ihr =>
    rw [Expr.depth] at h
    rw [recurse_binary hd, ihl (by omega) hd,
      ihr (by omega) (by have := right.depth_pos; omega), unlimitedValue]

/-- What has a value has operands with values. -/
theorem exists_of_bind_eq_ok {α β : Type} {y : Except EvalError α} {f : α → Except EvalError β}
    {b : β} (h : (y >>= f) = .ok b) : ∃ a, y = .ok a ∧ f a = .ok b := by
  cases y with
  | error err => cases h
  | ok a => exact ⟨a, rfl, h⟩

/-- A tree that has a value and ends beyond the limit is refused: nothing else can fail before its
deepest node is reached. -/
theorem recurse_of_unlimitedValue (h : ev.unlimitedValue e = .ok x)
    (hd : ev.limit + 1 < depth + e.depth) :
    ev.recurse depth e = .error (.nestingTooDeep ev.limit) := by
  induction e generalizing depth x with
  | literal v column =>
    rw [Expr.depth] at hd
    exact recurse_of_lt (by omega) _
  | signed sign operand column ih =>
    rcases Nat.lt_or_ge ev.limit depth with hlt | hle
    · exact recurse_of_lt hlt _
    obtain ⟨a, ha, -⟩ := exists_of_bind_eq_ok h
    rw [Expr.depth] at hd
    rw [recurse_signed hle, ih ha (by omega)]
    rfl
  | binary op left right column ihl ihr =>
    rcases Nat.lt_or_ge ev.limit depth with hlt | hle
    · exact recurse_of_lt hlt _
    obtain ⟨a, ha, hnext⟩ := exists_of_bind_eq_ok h
    obtain ⟨b, hb, -⟩ := exists_of_bind_eq_ok hnext
    rw [Expr.depth] at hd
    rw [recurse_binary hle]
    rcases Nat.lt_or_ge (ev.limit + 1) (depth + left.depth) with hdeep | hwithin
    · rw [ihl ha hdeep]
      rfl
    · rw [recurse_eq_unlimitedValue hwithin, ha, ihr hb (by omega)]
      rfl

end

/-- **The limit only cuts.** A result that is not the refusal of the tree for its depth is the same
under every higher limit. No tree is refused under a limit of its depth or more, where it is
evaluated as if there were no limit; chains of literals, however long, are not refused under the
limit two. A tree that has a value without a limit is refused under every limit below its depth. -/
theorem value_withLimit (ev : Evaluator) (e : Expr) :
    (∀ m m', m ≤ m' → (ev.withLimit m).value e ≠ .error (.nestingTooDeep m) →
      (ev.withLimit m').value e = (ev.withLimit m).value e) ∧
    (∀ m, e.depth ≤ m → (ev.withLimit m).value e = ev.unlimitedValue e ∧
      ∀ n, (ev.withLimit m).value e ≠ .error (.nestingTooDeep n)) ∧
    (e.FlatChain → ∀ n, (ev.withLimit 2).value e ≠ .error (.nestingTooDeep n)) ∧
    ∀ x, ev.unlimitedValue e = .ok x →
      ∀ m < e.depth, (ev.withLimit m).value e = .error (.nestingTooDeep m) := by
  refine ⟨fun m m' hm h => ?_, fun m hm => ⟨?_, fun n => value_ne_nestingTooDeep hm⟩,
    fun h n => value_ne_nestingTooDeep h.depth_le, fun x hx m hm => ?_⟩
  · simp only [value, valueAt_eq_recurse] at h ⊢
    exact recurse_withLimit hm h
  · have hwithin : 1 + e.depth ≤ (ev.withLimit m).limit + 1 := by
      change 1 + e.depth ≤ m + 1
      omega
    rw [value, valueAt_eq_recurse, recurse_eq_unlimitedValue hwithin, unlimitedValue_withLimit]
  · have hbeyond : (ev.withLimit m).limit + 1 < 1 + e.depth := by
      change m + 1 < 1 + e.depth
      omega
    rw [value, valueAt_eq_recurse]
    exact recurse_of_unlimitedValue (by rw [unlimitedValue_withLimit, hx]) hbeyond

/-- The tree of `1 + 2 * -3` is refused up to the limit three and has its value from there on; that of
`1 - 2 - 3` has its value under the limit two. -/
theorem value_withLimit_signed_product :
    let e : Expr := .binary .add (.literal (.integer 1) 1)
      (.binary .mul (.literal (.integer 2) 5) (.signed .minus (.literal (.integer 3) 10) 9) 7) 3
    let chain : Expr := .binary .sub (.binary .sub (.literal (.integer 1) 1)
      (.literal (.integer 2) 5) 3) (.literal (.integer 3) 9) 7
    (standard.withLimit 3).value e = .error (.nestingTooDeep 3) ∧
      (standard.withLimit 4).value e = .ok (.integer (-5)) ∧
      (standard.withLimit 9).value e = .ok (.integer (-5)) ∧
      ∀ n, (standard.withLimit 2).value chain ≠ .error (.nestingTooDeep n) := by
  intro e chain
  have hx : standard.unlimitedValue e = .ok (.integer (-5)) := rfl
  obtain ⟨hmono, hwithin, -, hbeyond⟩ := value_withLimit standard e
  obtain ⟨heq, hne⟩ := hwithin 4 (by decide)
  have hfour : (standard.withLimit 4).value e = .ok (.integer (-5)) := heq.trans hx
  have hchain : chain.FlatChain := .link (.link (.first _ _) _ _ _ _) _ _ _ _
  refine ⟨hbeyond _ hx 3 (by decide), hfour, ?_, (value_withLimit standard chain).2.2.1 hchain⟩
  exact (hmono 4 9 (by decide) (hne 4)).trans hfour

end Evaluator

end Calculator
