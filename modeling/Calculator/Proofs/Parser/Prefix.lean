import Calculator.Proofs.Parser.Scan

/-!
# Prefixes of sentences

A sentence is what the grammar derives as an expression, however deeply nested. This module says
which tokens begin a sentence and which nesting level the last of them opens, and that a scan knows
both.

* `IsSentence`, `BeginsSentence`, `OpensLevel`: the notions, in terms of derivations.
* `Scan.Reads`: a scan reads tokens from one state to another; the levels that they open.
* `Phrase.reads`: a phrase is read, and its tokens open the levels that the derivation says.
* `isSentence_iff`, `beginsSentence_iff`, `opensLevel_iff`: the notions, in terms of scans.
-/

namespace Calculator

/-- The tokens are derived as an expression. -/
def IsSentence (ts : List Placed) : Prop := ∃ p : Phrase .additive, p.tokens = ts

/-- The tokens can be continued to a sentence. -/
def BeginsSentence (ts : List Placed) : Prop := ∃ us, IsSentence (ts ++ us)

/-- In a sentence that starts with the tokens `before` and `t`, the token `t` opens the nesting
level `level`: it is the parenthesis of a group, a sign or a power operator, and what it opens
stands in so many groups, signs and exponents. -/
def OpensLevel (before : List Placed) (t : Placed) (level : Nat) : Prop :=
  ∃ (p : Phrase .additive) (after : List Placed), p.tokens = before ++ t :: after ∧
    (p.openings 0)[before.length]? = some (some level)

namespace Scan

/-- A scan reads tokens from one state to another; the third argument holds the level that each
token opens, if it opens one. -/
inductive Reads : Scan → List Placed → List (Option Nat) → Scan → Prop where
  | nil {s} : Reads s [] [] s
  | cons {s s' s'' : Scan} {t ts opened os} : s.step t = some (opened, s') →
      Reads s' ts os s'' → Reads s (t :: ts) (opened :: os) s''

namespace Reads

variable {s s' s'' : Scan} {t : Placed} {ts us : List Placed} {os os' : List (Option Nat)}

theorem append (h : Reads s ts os s') (h' : Reads s' us os' s'') :
    Reads s (ts ++ us) (os ++ os') s'' := by
  induction h with
  | nil => exact h'
  | cons hstep _ ih => exact .cons hstep (ih h')

theorem snoc {opened : Option Nat} (h : Reads s ts os s') (hstep : s'.step t = some (opened, s'')) :
    Reads s (ts ++ [t]) (os ++ [opened]) s'' :=
  h.append (.cons hstep .nil)

/-- What is read can be read in two parts. -/
theorem split (h : Reads s (ts ++ us) os s'') :
    ∃ os₁ os₂ s', os = os₁ ++ os₂ ∧ Reads s ts os₁ s' ∧ Reads s' us os₂ s'' := by
  induction ts generalizing s os with
  | nil => exact ⟨[], os, s, rfl, .nil, h⟩
  | cons t ts ih =>
    cases h with
    | cons hstep hrest =>
      obtain ⟨os₁, os₂, s₁, rfl, h₁, h₂⟩ := ih hrest
      exact ⟨_ :: os₁, os₂, s₁, rfl, .cons hstep h₁, h₂⟩

theorem length_eq (h : Reads s ts os s') : os.length = ts.length := by
  induction h with
  | nil => rfl
  | cons _ _ ih => rw [List.length_cons, List.length_cons, ih]

/-- The tokens determine the levels that they open and the state after them. -/
theorem unique (h : Reads s ts os s') (h' : Reads s ts os' s'') : os = os' ∧ s' = s'' := by
  induction h generalizing os' with
  | nil => cases h'; exact ⟨rfl, rfl⟩
  | cons hstep _ ih =>
    cases h' with
    | cons hstep' hrest =>
      obtain ⟨rfl, rfl⟩ := Prod.mk.inj (Option.some.inj (hstep.symm.trans hstep'))
      obtain ⟨rfl, rfl⟩ := ih hrest
      exact ⟨rfl, rfl⟩

/-- While no token opens a level too many, the first fault is still to come. -/
theorem fault?_append {setting : Setting} (h : Reads s ts os s')
    (hos : ∀ m, some m ∈ os → m ≤ setting.limit) :
    s.fault? setting (ts ++ us) = s'.fault? setting us := by
  induction h with
  | nil => rfl
  | @cons s s' s'' t ts opened os hstep _ ih =>
    have ih := ih fun m hm => hos m (List.mem_cons_of_mem _ hm)
    rw [List.cons_append]
    cases opened with
    | none => rw [fault?_of_step hstep, ih]
    | some level =>
      have hl := hos level List.mem_cons_self
      rw [fault?_of_opens hstep, if_neg (Nat.not_lt.2 hl), ih]

end Reads

end Scan

/-! ## Reading a phrase -/

/-- A phrase is read, and its tokens open the levels that the derivation says. -/
theorem Phrase.reads {l : Level} (p : Phrase l) {depth : Nat} {groups : List OpenGroup}
    (hs : l.Stands depth groups) :
    ∃ after, l.Leaves depth after ∧
      Scan.Reads ⟨true, depth, groups⟩ p.tokens (p.openings depth) ⟨false, after, groups⟩ := by
  induction p generalizing depth groups with
  | integer | float => exact ⟨depth, rfl, .cons rfl .nil⟩
  | group opened body closed ih =>
    obtain ⟨_, -, h⟩ := @ih (depth + 1) (⟨opened, depth⟩ :: groups) rfl
    exact ⟨depth, rfl, .cons rfl (h.snoc rfl)⟩
  | atom p ih =>
    obtain ⟨after, -, h⟩ := @ih depth groups trivial
    exact ⟨after, trivial, h⟩
  | power base column exponent ihb ihx =>
    obtain ⟨_, rfl, hb⟩ := @ihb depth groups trivial
    obtain ⟨after, -, hx⟩ := @ihx _ groups trivial
    exact ⟨after, trivial, hb.append (.cons rfl hx)⟩
  | unsigned p ih => exact @ih depth groups trivial
  | signed sign column operand ih =>
    obtain ⟨after, -, h⟩ := @ih (depth + 1) groups trivial
    exact ⟨after, trivial, .cons (Scan.step_sign ..) h⟩
  | factor p ih => exact @ih depth groups trivial
  | product left op accepted column right ihl ihr =>
    obtain ⟨_, -, hl⟩ := ihl hs
    obtain ⟨after, -, hr⟩ := @ihr depth groups trivial
    obtain rfl : depth = Scan.chainDepth groups := hs
    exact ⟨after, trivial, hl.append (.cons (@Scan.step_chain .products _ accepted ..) hr)⟩
  | term p ih => exact ih hs
  | sum left op accepted column right ihl ihr =>
    obtain ⟨_, -, hl⟩ := ihl hs
    obtain ⟨after, -, hr⟩ := ihr hs
    obtain rfl : depth = Scan.chainDepth groups := hs
    exact ⟨after, trivial, hl.append (.cons (@Scan.step_chain .sums _ accepted ..) hr)⟩

/-! ## Sentences and their prefixes -/

/-- The levels that a list of tokens opens are bounded. -/
theorem exists_openings_le (os : List (Option Nat)) : ∃ n, ∀ m, some m ∈ os → m ≤ n := by
  induction os with
  | nil => exact ⟨0, fun m hm => (List.not_mem_nil hm).elim⟩
  | cons o os ih =>
    obtain ⟨n, hn⟩ := ih
    refine ⟨max (o.getD 0) n, fun m hm => ?_⟩
    rcases List.mem_cons.1 hm with rfl | hm
    · exact Nat.le_max_left ..
    · exact Nat.le_trans (hn m hm) (Nat.le_max_right ..)

/-- A sentence is read to its end, with no operand missing and no group open. -/
theorem isSentence_iff {ts : List Placed} :
    IsSentence ts ↔ ∃ os depth, Scan.start.Reads ts os ⟨false, depth, []⟩ := by
  constructor
  · rintro ⟨p, rfl⟩
    obtain ⟨after, -, h⟩ := @Phrase.reads _ p 0 [] rfl
    exact ⟨_, after, h⟩
  · rintro ⟨os, depth, h⟩
    -- Under a limit that no opening exceeds the scan has no fault, so the parser succeeds.
    obtain ⟨limit, hlimit⟩ := exists_openings_le os
    have hf := @Scan.Reads.fault?_append _ _ _ [] _ ⟨limit, 0⟩ h hlimit
    rw [List.append_nil] at hf
    cases hp : (Cursor.start ts 0 limit).parseAll.1 with
    | error err => rw [parseAll_eq_error_iff_fault, hf] at hp; cases hp
    | ok e =>
      obtain ⟨p, hts, -⟩ := exists_phrase_of_parseAll hp
      exact ⟨p, hts⟩

/-- From every state an expression can be completed: an operand, if one has to follow, and the
parentheses that close the groups. -/
theorem Scan.exists_completion (s : Scan) :
    ∃ us os depth, s.Reads us os ⟨false, depth, []⟩ := by
  have close : ∀ groups depth, ∃ us os depth',
      Reads ⟨false, depth, groups⟩ us os ⟨false, depth', []⟩ := by
    intro groups
    induction groups with
    | nil => exact fun depth => ⟨[], [], depth, .nil⟩
    | cons g groups ih =>
      intro depth
      obtain ⟨us, os, depth', h⟩ := ih g.outside
      exact ⟨⟨.rightParen, 0⟩ :: us, none :: os, depth', .cons rfl h⟩
  obtain ⟨expects, depth, groups⟩ := s
  obtain ⟨us, os, depth', h⟩ := close groups depth
  cases expects with
  | false => exact ⟨us, os, depth', h⟩
  | true => exact ⟨⟨.integer 0, 0⟩ :: us, none :: os, depth', .cons rfl h⟩

/-- Tokens begin a sentence as long as they are read. -/
theorem beginsSentence_iff {ts : List Placed} :
    BeginsSentence ts ↔ ∃ os s, Scan.start.Reads ts os s := by
  constructor
  · rintro ⟨us, hs⟩
    obtain ⟨os, depth, h⟩ := isSentence_iff.1 hs
    obtain ⟨os₁, _, s, -, h, -⟩ := h.split
    exact ⟨os₁, s, h⟩
  · rintro ⟨os, s, h⟩
    obtain ⟨us, os', depth, h'⟩ := s.exists_completion
    exact ⟨us, isSentence_iff.2 ⟨os ++ os', depth, h.append h'⟩⟩

/-- A token opens the level that a scan says, after the tokens that it has read. -/
theorem opensLevel_iff {before : List Placed} {t : Placed} {level : Nat} {os : List (Option Nat)}
    {s : Scan} (h : Scan.start.Reads before os s) :
    OpensLevel before t level ↔ ∃ s', s.step t = some (some level, s') := by
  constructor
  · rintro ⟨p, after, hp, hopens⟩
    obtain ⟨_, -, hr⟩ := @Phrase.reads _ p 0 [] rfl
    rw [hp] at hr
    obtain ⟨os₁, os₂, s₁, hos, h₁, h₂⟩ := hr.split
    obtain ⟨rfl, rfl⟩ := h.unique h₁
    cases h₂ with
    | cons hstep _ =>
      rw [hos, ← h.length_eq, List.getElem?_append_right (Nat.le_refl _), Nat.sub_self] at hopens
      obtain rfl := Option.some.inj hopens
      exact ⟨_, hstep⟩
  · rintro ⟨s', hstep⟩
    obtain ⟨after, p, hp⟩ := beginsSentence_iff.2 ⟨_, _, h.snoc hstep⟩
    obtain ⟨_, -, hr⟩ := @Phrase.reads _ p 0 [] rfl
    rw [hp] at hr
    obtain ⟨os₁, os₂, s₁, hos, h₁, -⟩ := hr.split
    obtain ⟨rfl, -⟩ := (h.snoc hstep).unique h₁
    refine ⟨p, after, by rw [hp, List.append_assoc]; rfl, ?_⟩
    rw [hos, ← h.length_eq, List.append_assoc, List.getElem?_append_right (Nat.le_refl _),
      Nat.sub_self]
    rfl

end Calculator
