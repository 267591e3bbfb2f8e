import Calculator.Proofs.Evaluation.Depth
import Calculator.Proofs.Number.Integers

/-!
# Integer results are exact

An evaluation that ends in an integer has met integers only, and its result is the value of the tree
over the unbounded integers. A tree of integers has that value unless it divides by zero, raises to
a negative power or meets a power too large to be computed.

* `Expr.subtrees`, `Expr.integerValue?`: the trees within a tree; its value over the unbounded
  integers.
* `Evaluator.recurse_signed_eq_ok_iff`, `recurse_binary_eq_ok_iff`: what a node needs for a value.
* `Evaluator.integer_of_mem_subtrees`: all that an integer comes from has an integer as its value.
* `Evaluator.value_exact`: integer results are exact, and when there is one.
-/

namespace Calculator

namespace Expr

/-- The trees within a tree, the tree itself first. -/
def subtrees : Expr → List Expr
  | .literal v c => [.literal v c]
  | .signed s e c => .signed s e c :: e.subtrees
  | .binary op l r c => .binary op l r c :: (l.subtrees ++ r.subtrees)

/-- The value of a tree over the unbounded integers. There is none where a float or a quotient `/`
is met, a zero divisor or a negative exponent. -/
def integerValue? : Expr → Option Int
  | .literal (.integer n) _ => some n
  | .literal (.float _) _ => none
  | .signed s e _ => e.integerValue?.map s.onInteger
  | .binary op l r _ => do
    let m ← l.integerValue?
    let n ← r.integerValue?
    op.onIntegers? m n

/-- A tree whose literals are integers and that has no `/`. -/
structure OfIntegers (e : Expr) : Prop where
  literals : ∀ x c, .literal x c ∈ e.subtrees → ∃ n, x = .integer n
  no_div : ∀ l r c, .binary .div l r c ∉ e.subtrees

/-- The exact evaluation of a tree meets no zero divisor, no negative exponent and no power too
large to be computed. -/
structure Uneventful (e : Expr) : Prop where
  divisors : ∀ op l r c, .binary op l r c ∈ e.subtrees → op = .floorDiv ∨ op = .mod →
    r.integerValue? ≠ some 0
  exponents : ∀ l r c n, .binary .pow l r c ∈ e.subtrees → r.integerValue? = some n → 0 ≤ n
  powers : ∀ l r c b n, .binary .pow l r c ∈ e.subtrees → l.integerValue? = some b →
    r.integerValue? = some n → 2 ≤ b.natAbs → Number.bitLength b * n.toNat ≤ 1000000

section

variable {e t : Expr}

theorem mem_subtrees_self (e : Expr) : e ∈ e.subtrees := by
  cases e <;> exact List.mem_cons_self

theorem subtrees_operand_subset (s : Sign) (e : Expr) (c : Nat) :
    e.subtrees ⊆ (Expr.signed s e c).subtrees :=
  List.subset_cons_self _ _

theorem subtrees_left_subset (op : BinaryOp) (l r : Expr) (c : Nat) :
    l.subtrees ⊆ (Expr.binary op l r c).subtrees :=
  fun _ ht => .tail _ (List.mem_append_left _ ht)

theorem subtrees_right_subset (op : BinaryOp) (l r : Expr) (c : Nat) :
    r.subtrees ⊆ (Expr.binary op l r c).subtrees :=
  fun _ ht => .tail _ (List.mem_append_right _ ht)

theorem OfIntegers.mono (h : e.OfIntegers) (ht : t.subtrees ⊆ e.subtrees) : t.OfIntegers :=
  ⟨fun x c hx => h.literals x c (ht hx), fun l r c hx => h.no_div l r c (ht hx)⟩

theorem Uneventful.mono (h : e.Uneventful) (ht : t.subtrees ⊆ e.subtrees) : t.Uneventful :=
  ⟨fun op l r c hx => h.divisors op l r c (ht hx), fun l r c n hx => h.exponents l r c n (ht hx),
    fun l r c b n hx => h.powers l r c b n (ht hx)⟩

theorem integerValue?_binary_eq_some_iff {op : BinaryOp} {l r : Expr} {c : Nat} {v : Int} :
    (Expr.binary op l r c).integerValue? = some v ↔
      ∃ m n, l.integerValue? = some m ∧ r.integerValue? = some n ∧ op.onIntegers? m n = some v := by
  simp [integerValue?, Option.bind_eq_some_iff]

/-- A tree of integers whose evaluation meets no fault has an exact value. -/
theorem exists_integerValue (h : e.OfIntegers) (hu : e.Uneventful) :
    ∃ v, e.integerValue? = some v := by
  induction e with
  | literal x c =>
    obtain ⟨n, rfl⟩ := h.literals x c (mem_subtrees_self _)
    exact ⟨n, rfl⟩
  | signed s e c ih =>
    have hs := subtrees_operand_subset s e c
    obtain ⟨n, hn⟩ := ih (h.mono hs) (hu.mono hs)
    exact ⟨s.onInteger n, by rw [integerValue?, hn, Option.map_some]⟩
  | binary op l r c ihl ihr =>
    have hl := subtrees_left_subset op l r c
    have hr := subtrees_right_subset op l r c
    obtain ⟨m, hm⟩ := ihl (h.mono hl) (hu.mono hl)
    obtain ⟨n, hn⟩ := ihr (h.mono hr) (hu.mono hr)
    have hv : ∃ v, op.onIntegers? m n = some v := by
      have hself := mem_subtrees_self (.binary op l r c)
      cases op with
      | add | sub | mul => exact ⟨_, rfl⟩
      | div => exact absurd hself (h.no_div l r c)
      | floorDiv =>
        have h0 : n ≠ 0 := by rintro rfl; exact hu.divisors _ l r c hself (.inl rfl) hn
        exact ⟨_, if_neg h0⟩
      | mod =>
        have h0 : n ≠ 0 := by rintro rfl; exact hu.divisors _ l r c hself (.inr rfl) hn
        exact ⟨_, if_neg h0⟩
      | pow => exact ⟨_, if_neg (Int.not_lt.2 (hu.exponents l r c n hself hn))⟩
    exact hv.imp fun v hv => integerValue?_binary_eq_some_iff.2 ⟨m, n, hm, hn, hv⟩

end

end Expr

namespace Evaluator

section

variable {ev : Evaluator} {depth depth' : Nat} {e t l r : Expr} {x y : Number} {v : Int}

/-! ## What a value needs -/

theorem applySign_eq_ok_iff {s : Sign} {c : Nat} :
    ev.applySign s x c = .ok y ↔ s ∈ ev.permitted.signs ∧ s.apply x = .ok y := by
  unfold applySign Permitted.sign?
  by_cases hs : s ∈ ev.permitted.signs
  · simp only [hs, if_true, true_and]
    cases s.apply x <;> simp [Except.mapError]
  · simp [hs]

theorem applyBinary_eq_ok_iff {op : BinaryOp} {c : Nat} {z : Number} :
    ev.applyBinary op x y c = .ok z ↔ op ∈ ev.permitted.binaryOps ∧ op.apply x y = .ok z := by
  unfold applyBinary Permitted.binary?
  by_cases hs : op ∈ ev.permitted.binaryOps
  · simp only [hs, if_true, true_and]
    cases op.apply x y <;> simp [Except.mapError]
  · simp [hs]

theorem le_limit_of_recurse_eq_ok (h : ev.recurse depth e = .ok x) : depth ≤ ev.limit := by
  refine Nat.not_lt.1 fun hlt => ?_
  rw [recurse_of_lt hlt] at h
  cases h

theorem recurse_signed_eq_ok_iff {s : Sign} {c : Nat} :
    ev.recurse depth (.signed s e c) = .ok y ↔
      depth ≤ ev.limit ∧ ∃ x, ev.recurse (depth + 1) e = .ok x ∧ ev.applySign s x c = .ok y := by
  rcases Nat.lt_or_ge ev.limit depth with h | h
  · simp [recurse_of_lt h, Nat.not_le.2 h]
  · rw [recurse_signed h]
    cases ev.recurse (depth + 1) e <;> simp [h, bind, Except.bind]

theorem recurse_binary_eq_ok_iff {op : BinaryOp} {c : Nat} {z : Number} :
    ev.recurse depth (.binary op l r c) = .ok z ↔
      depth ≤ ev.limit ∧ ∃ x y, ev.recurse depth l = .ok x ∧ ev.recurse (depth + 1) r = .ok y ∧
        ev.applyBinary op x y c = .ok z := by
  rcases Nat.lt_or_ge ev.limit depth with h | h
  · simp [recurse_of_lt h, Nat.not_le.2 h]
  · rw [recurse_binary h]
    cases ev.recurse depth l <;> cases ev.recurse (depth + 1) r <;> simp [h, bind, Except.bind]

/-- A tree that has a value at some depth has it at every smaller depth. -/
theorem recurse_eq_ok_of_le (hd : depth' ≤ depth) (h : ev.recurse depth e = .ok x) :
    ev.recurse depth' e = .ok x := by
  have hl := Nat.le_trans hd (le_limit_of_recurse_eq_ok h)
  induction e generalizing depth depth' x with
  | literal v c => rwa [recurse_literal hl, ← recurse_literal (le_limit_of_recurse_eq_ok h) v c]
  | signed s e c ih =>
    obtain ⟨hle, a, ha, hx⟩ := recurse_signed_eq_ok_iff.1 h
    have hd' := Nat.succ_le_succ hd
    have ha' := ih hd' ha (Nat.le_trans hd' (le_limit_of_recurse_eq_ok ha))
    exact recurse_signed_eq_ok_iff.2 ⟨hl, a, ha', hx⟩
  | binary op l r c ihl ihr =>
    obtain ⟨hle, a, b, ha, hb, hx⟩ := recurse_binary_eq_ok_iff.1 h
    have hd' := Nat.succ_le_succ hd
    have hb' := ihr hd' hb (Nat.le_trans hd' (le_limit_of_recurse_eq_ok hb))
    exact recurse_binary_eq_ok_iff.2 ⟨hl, a, b, ihl hd ha hl, hb', hx⟩

/-! ## Integer results -/

/-- An integer result is the value of the tree over the unbounded integers. -/
theorem integerValue?_of_recurse (h : ev.recurse depth e = .ok (.integer v)) :
    e.integerValue? = some v := by
  induction e generalizing depth v with
  | literal x c =>
    rw [recurse_literal (le_limit_of_recurse_eq_ok h)] at h
    cases h
    rfl
  | signed s e c ih =>
    obtain ⟨-, x, hx, hs⟩ := recurse_signed_eq_ok_iff.1 h
    obtain ⟨n, rfl, rfl⟩ := Sign.apply_eq_integer_iff.1 (applySign_eq_ok_iff.1 hs).2
    rw [Expr.integerValue?, ih hx, Option.map_some]
  | binary op l r c ihl ihr =>
    obtain ⟨-, x, y, hx, hy, hop⟩ := recurse_binary_eq_ok_iff.1 h
    obtain ⟨m, n, rfl, rfl, hv, -⟩ :=
      BinaryOp.apply_eq_integer_iff.1 (applyBinary_eq_ok_iff.1 hop).2
    exact Expr.integerValue?_binary_eq_some_iff.2 ⟨m, n, ihl hx, ihr hy, hv⟩

/-- All that an integer result comes from has an integer as its value. -/
theorem integer_of_mem_subtrees (hd : 1 ≤ depth)
    (h : ev.recurse depth e = .ok (.integer v)) (ht : t ∈ e.subtrees) :
    ∃ n, ev.recurse 1 t = .ok (.integer n) := by
  induction e generalizing depth v with
  | literal x c =>
    obtain rfl := List.mem_singleton.1 ht
    exact ⟨v, recurse_eq_ok_of_le hd h⟩
  | signed s e c ih =>
    rcases List.mem_cons.1 ht with rfl | ht
    · exact ⟨v, recurse_eq_ok_of_le hd h⟩
    obtain ⟨-, x, hx, hs⟩ := recurse_signed_eq_ok_iff.1 h
    obtain ⟨n, rfl, -⟩ := Sign.apply_eq_integer_iff.1 (applySign_eq_ok_iff.1 hs).2
    exact ih (Nat.le_add_left 1 depth) hx ht
  | binary op l r c ihl ihr =>
    rcases List.mem_cons.1 ht with rfl | ht
    · exact ⟨v, recurse_eq_ok_of_le hd h⟩
    obtain ⟨-, x, y, hx, hy, hop⟩ := recurse_binary_eq_ok_iff.1 h
    obtain ⟨m, n, rfl, rfl, -, -⟩ :=
      BinaryOp.apply_eq_integer_iff.1 (applyBinary_eq_ok_iff.1 hop).2
    rcases List.mem_append.1 ht with ht | ht
    · exact ihl hd hx ht
    · exact ihr (Nat.le_add_left 1 depth) hy ht

/-- An integer result comes from integers only, and from no quotient. -/
theorem ofIntegers_of_recurse (h : ev.recurse 1 e = .ok (.integer v)) : e.OfIntegers := by
  constructor
  · intro x c hx
    obtain ⟨n, hn⟩ := integer_of_mem_subtrees (Nat.le_refl 1) h hx
    rw [recurse_literal (le_limit_of_recurse_eq_ok hn)] at hn
    exact ⟨n, Except.ok.inj hn⟩
  · intro l r c hx
    obtain ⟨n, hn⟩ := integer_of_mem_subtrees (Nat.le_refl 1) h hx
    obtain ⟨-, x, y, -, -, hop⟩ := recurse_binary_eq_ok_iff.1 hn
    exact Number.div_ne_integer x y n (applyBinary_eq_ok_iff.1 hop).2

/-- The exponents that an integer result comes from are integers that are not negative. -/
theorem exponent_of_recurse {c : Nat} (h : ev.recurse 1 e = .ok (.integer v))
    (hx : .binary .pow l r c ∈ e.subtrees) : ∃ n : Nat, ev.recurse 1 r = .ok (.integer n) := by
  obtain ⟨m, hm⟩ := integer_of_mem_subtrees (Nat.le_refl 1) h hx
  obtain ⟨-, x, y, -, hy, hop⟩ := recurse_binary_eq_ok_iff.1 hm
  obtain ⟨b, n, -, rfl, -⟩ := Number.pow_eq_integer_iff.1 (applyBinary_eq_ok_iff.1 hop).2
  exact ⟨n, recurse_eq_ok_of_le (Nat.le_add_right 1 1) hy⟩

/-- With every operator, a tree within the limit whose powers are not too large has its exact value
as its result. -/
theorem recurse_of_integerValue (hp : ev.permitted = .all) (hd : depth + e.depth ≤ ev.limit + 1)
    (hu : e.Uneventful) (h : e.integerValue? = some v) :
    ev.recurse depth e = .ok (.integer v) := by
  have hl : depth ≤ ev.limit := by have := e.depth_pos; omega
  induction e generalizing depth v with
  | literal x c =>
    cases x with
    | integer n =>
      obtain rfl : n = v := Option.some.inj h
      exact recurse_literal hl _ c
    | float => cases h
  | signed s e c ih =>
    obtain ⟨n, hn, rfl⟩ := Option.map_eq_some_iff.1 h
    rw [Expr.depth] at hd
    have hx : ev.recurse (depth + 1) e = .ok (.integer n) :=
      ih (by omega) (hu.mono (Expr.subtrees_operand_subset s e c)) hn
        (by have := e.depth_pos; omega)
    have hs : s ∈ ev.permitted.signs := by rw [hp]; cases s <;> decide
    exact recurse_signed_eq_ok_iff.2 ⟨hl, _, hx,
      applySign_eq_ok_iff.2 ⟨hs, Sign.apply_eq_integer_iff.2 ⟨n, rfl, rfl⟩⟩⟩
  | binary op l r c ihl ihr =>
    obtain ⟨m, n, hm, hn, hv⟩ := Expr.integerValue?_binary_eq_some_iff.1 h
    rw [Expr.depth] at hd
    have hx : ev.recurse depth l = .ok (.integer m) :=
      ihl (by omega) (hu.mono (Expr.subtrees_left_subset op l r c)) hm hl
    have hy : ev.recurse (depth + 1) r = .ok (.integer n) :=
      ihr (by omega) (hu.mono (Expr.subtrees_right_subset op l r c)) hn
        (by have := r.depth_pos; omega)
    have hop : op ∈ ev.permitted.binaryOps := by rw [hp]; cases op <;> decide
    have ha : op.Affordable m n := by
      rintro rfl
      exact hu.powers l r c m n (Expr.mem_subtrees_self _) hm hn
    exact recurse_binary_eq_ok_iff.2 ⟨hl, _, _, hx, hy,
      applyBinary_eq_ok_iff.2 ⟨hop, BinaryOp.apply_eq_integer_iff.2 ⟨m, n, rfl, rfl, hv, ha⟩⟩⟩

end

/-- **Integer results are exact.** An evaluation that ends in an integer has met integer literals
only, no `/`, and exponents that are integers and not negative, whatever operators and depth it is
allowed; its result is the value of the tree over the unbounded integers. With every operator and
enough depth, a tree of integers whose exact evaluation meets no zero divisor, no negative exponent
and no power too large to be computed has that value as its result. -/
theorem value_exact :
    (∀ (ev : Evaluator) (e : Expr) (v : Int), ev.value e = .ok (.integer v) →
      e.OfIntegers ∧
      (∀ l r c, .binary .pow l r c ∈ e.subtrees → ∃ n : Nat, ev.value r = .ok (.integer n)) ∧
      e.integerValue? = some v) ∧
    (∀ (e : Expr) (limit : Nat), e.OfIntegers → e.Uneventful → e.depth ≤ limit →
      ∃ v, e.integerValue? = some v ∧
        (standard.withLimit limit).value e = .ok (.integer v)) := by
  simp only [value, valueAt_eq_recurse]
  refine ⟨fun ev e v h => ?_, fun e limit h hu hd => ?_⟩
  · exact ⟨ofIntegers_of_recurse h, fun l r c => exponent_of_recurse h, integerValue?_of_recurse h⟩
  · obtain ⟨v, hv⟩ := Expr.exists_integerValue h hu
    refine ⟨v, hv, recurse_of_integerValue rfl ?_ hu hv⟩
    exact Nat.add_comm 1 e.depth ▸ Nat.succ_le_succ hd

/-- The tree of `-7 // 2 ** 2`. Its quotient is rounded toward negative infinity. -/
theorem value_exact_floored :
    let e : Expr := .binary .floorDiv (.signed .minus (.literal (.integer 7) 2) 1)
      (.binary .pow (.literal (.integer 2) 7) (.literal (.integer 2) 12) 9) 4
    e.integerValue? = some (-2) ∧ (standard.withLimit 3).value e = .ok (.integer (-2)) := by
  intro e
  have hi : e.OfIntegers := by constructor <;> simp only [e, Expr.subtrees] <;> grind
  have hv : e.integerValue? = some (-2) := by decide +kernel
  have hu : e.Uneventful := by
    constructor
    · intro op l r c hx _
      simp [e, Expr.subtrees] at hx
      rcases hx with ⟨-, -, rfl, -⟩ | ⟨-, -, rfl, -⟩ <;> decide +kernel
    · intro l r c n hx hn
      simp [e, Expr.subtrees] at hx
      obtain ⟨-, rfl, -⟩ := hx
      obtain rfl : 2 = n := Option.some.inj hn
      decide
    · intro l r c b n hx hb hn _
      simp [e, Expr.subtrees] at hx
      obtain ⟨rfl, rfl, -⟩ := hx
      obtain rfl : 2 = b := Option.some.inj hb
      obtain rfl : 2 = n := Option.some.inj hn
      decide
  obtain ⟨v, hv', hr⟩ := value_exact.2 e 3 hi hu (by decide)
  obtain rfl : -2 = v := Option.some.inj (hv.symm.trans hv')
  exact ⟨(value_exact.1 _ e (-2) hr).2.2, hr⟩

end Evaluator

end Calculator
