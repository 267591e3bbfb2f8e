import Calculator.Proofs.Parser.Prefix

/-!
# The first fault

The parser reports the first token that cannot stand where it is or that opens a level beyond the
limit, and says which of the two it is; if there is no such token, it reports what is missing at
the end.

* `Offends`, `Inoffensive`: a token after which no sentence can follow or that nests too deeply;
  tokens without such a token.
* `OperandRequired`, `unclosedColumns`: what is missing at the end.
* `FirstFault`: the error of tokens by their first offending token.
* `parseAll_eq_error_iff`: the parser fails with an error exactly if it is the first fault.
-/

namespace Calculator

/-- After `before` the token `t` either continues no sentence or opens a level beyond the limit. -/
def Offends (limit : Nat) (before : List Placed) (t : Placed) : Prop :=
  ¬BeginsSentence (before ++ [t]) ∨ OpensLevel before t (limit + 1)

/-- No token offends. -/
def Inoffensive (limit : Nat) (ts : List Placed) : Prop :=
  ∀ before t after, ts = before ++ t :: after → ¬Offends limit before t

/-- A token after which an operand has to follow. -/
def Token.awaitsOperand : Token → Bool
  | .operator _ | .leftParen => true
  | _ => false

/-- The tokens end where an operand has to follow: at the start of an expression, after an operator
or sign, or after the parenthesis that opens a group. -/
def OperandRequired (ts : List Placed) : Prop :=
  ∀ t, ts.getLast? = some t → t.token.awaitsOperand = true

/-- One more token and the columns of the parentheses that are not closed. -/
def nextUnclosed (columns : List Nat) (t : Placed) : List Nat :=
  match t.token with
  | .leftParen => t.column :: columns
  | .rightParen => columns.tail
  | _ => columns

/-- The columns of the parentheses that the tokens open and do not close, innermost first. -/
def unclosedColumns (ts : List Placed) : List Nat := ts.foldl nextUnclosed []

/-- The fault of a token that stands in no expression. -/
def Token.forbiddenFault? : Token → Option ParseFault
  | .name text => some (.nameNotAllowed text)
  | .quoted text => some (.stringNotAllowed text)
  | .symbol text => some (.unsupportedOperator text)
  | _ => none

/-- The error of tokens that are no sentence within the limit: that of the first offending token,
or else of the end. -/
inductive FirstFault (setting : Setting) (ts : List Placed) : ParseError → Prop where
  | tooDeep {before t after} : ts = before ++ t :: after → Inoffensive setting.limit before →
      OpensLevel before t (setting.limit + 1) →
      FirstFault setting ts ⟨.nestingTooDeep setting.limit, t.column⟩
  | forbidden {before t after fault} : ts = before ++ t :: after →
      Inoffensive setting.limit before → ¬BeginsSentence (before ++ [t]) →
      t.token.forbiddenFault? = some fault → FirstFault setting ts ⟨fault, t.column⟩
  | trailing {before t after} : ts = before ++ t :: after → Inoffensive setting.limit before →
      ¬BeginsSentence (before ++ [t]) → t.token.forbiddenFault? = none → IsSentence before →
      FirstFault setting ts ⟨.trailingToken t.token, t.column⟩
  | unexpected {before t after} : ts = before ++ t :: after → Inoffensive setting.limit before →
      ¬BeginsSentence (before ++ [t]) → t.token.forbiddenFault? = none → ¬IsSentence before →
      FirstFault setting ts ⟨.unexpectedToken t.token, t.column⟩
  | endOfInput : Inoffensive setting.limit ts → OperandRequired ts →
      FirstFault setting ts ⟨.unexpectedEndOfInput, setting.endColumn⟩
  | unclosed {column columns} : Inoffensive setting.limit ts → ¬OperandRequired ts →
      unclosedColumns ts = column :: columns →
      FirstFault setting ts ⟨.expectedClosingParen, column⟩

namespace Scan

/-! ## What a state tells of the tokens before it -/

section

variable {limit : Nat} {s s' : Scan} {t : Placed} {ts : List Placed} {opened : Option Nat}
  {os : List (Option Nat)}

theorem expectsOperand_of_step (h : s.step t = some (opened, s')) :
    s'.expectsOperand = t.token.awaitsOperand := by
  cases stepped h <;> rfl

theorem groups_of_step (h : s.step t = some (opened, s')) :
    s'.groups.map OpenGroup.column = nextUnclosed (s.groups.map OpenGroup.column) t := by
  cases stepped h <;> rfl

/-- After a token the state awaits an operand if the last token does. -/
theorem Reads.expectsOperand_eq (h : s.Reads ts os s') (t : Placed) (hl : ts.getLast? = some t) :
    s'.expectsOperand = t.token.awaitsOperand := by
  induction h with
  | nil => cases hl
  | cons hstep hrest ih =>
    cases hrest with
    | nil => cases hl; exact expectsOperand_of_step hstep
    | cons => exact ih hl

theorem Reads.operandRequired_iff (h : start.Reads ts os s) :
    OperandRequired ts ↔ s.expectsOperand = true := by
  cases hl : ts.getLast? with
  | none =>
    obtain rfl := List.getLast?_eq_none_iff.1 hl
    cases h
    exact ⟨fun _ => rfl, fun _ t ht => by cases ht⟩
  | some t => rw [h.expectsOperand_eq t hl, OperandRequired]; simp [hl]

/-- The groups that are open in a state are those that the tokens leave open. -/
theorem Reads.groups_eq (h : s.Reads ts os s') :
    s'.groups.map OpenGroup.column = ts.foldl nextUnclosed (s.groups.map OpenGroup.column) := by
  induction h with
  | nil => rfl
  | cons hstep _ ih => rw [ih, groups_of_step hstep]; rfl

/-- All levels open in a state are within the limit. -/
def Within (limit : Nat) (s : Scan) : Prop :=
  s.depth ≤ limit ∧ ∀ g ∈ s.groups, g.outside < limit

theorem within_start : Within limit start :=
  ⟨Nat.zero_le _, fun _ hg => (List.not_mem_nil hg).elim⟩

theorem chainDepth_le {groups : List OpenGroup} (h : ∀ g ∈ groups, g.outside < limit) :
    chainDepth groups ≤ limit := by
  cases groups with
  | nil => exact Nat.zero_le _
  | cons g groups => exact h g List.mem_cons_self

/-- The state after a token is within the limit too, unless the token opens the first level beyond
the limit. -/
theorem Within.step (hs : Within limit s) (h : s.step t = some (opened, s')) :
    Within limit s' ∧ (∀ m, opened = some m → m ≤ limit) ∨ opened = some (limit + 1) := by
  obtain ⟨hd, hg⟩ := hs
  cases stepped h with
  | integer | float => exact .inl ⟨⟨hd, hg⟩, fun m hm => by cases hm⟩
  | @group depth groups column =>
    rcases Nat.lt_or_eq_of_le hd with hlt | rfl
    · refine .inl ⟨⟨hlt, fun g hmem => ?_⟩, fun m hm => by cases hm; exact hlt⟩
      rcases List.mem_cons.1 hmem with rfl | hmem
      · exact hlt
      · exact hg g hmem
    · exact .inr rfl
  | opener =>
    rcases Nat.lt_or_eq_of_le hd with hlt | rfl
    · exact .inl ⟨⟨hlt, hg⟩, fun m hm => by cases hm; exact hlt⟩
    · exact .inr rfl
  | link => exact .inl ⟨⟨chainDepth_le hg, hg⟩, fun m hm => by cases hm⟩
  | @close depth g groups column =>
    exact .inl ⟨⟨Nat.le_of_lt (hg g List.mem_cons_self),
      fun g' hmem => hg g' (List.mem_cons_of_mem _ hmem)⟩, fun m hm => by cases hm⟩

/-- No token read so far has opened a level beyond the limit. -/
def ReadsWithin (limit : Nat) (ts : List Placed) (s : Scan) : Prop :=
  ∃ os, start.Reads ts os s ∧ Within limit s ∧ ∀ m, some m ∈ os → m ≤ limit

theorem ReadsWithin.snoc (h : ReadsWithin limit ts s) (hstep : s.step t = some (opened, s'))
    (ho : opened ≠ some (limit + 1)) : ReadsWithin limit (ts ++ [t]) s' := by
  obtain ⟨os, hr, hs, hos⟩ := h
  obtain ⟨hs', hm⟩ := (hs.step hstep).resolve_right ho
  refine ⟨_, hr.snoc hstep, hs', fun m hmem => ?_⟩
  rcases List.mem_append.1 hmem with hmem | hmem
  · exact hos m hmem
  · exact hm m (List.mem_singleton.1 hmem).symm

end

end Scan

section

variable {limit : Nat} {before ts : List Placed} {t : Placed} {s : Scan} {os : List (Option Nat)}

theorem beginsSentence_snoc_iff (h : Scan.start.Reads before os s) :
    BeginsSentence (before ++ [t]) ↔ ∃ opened s', s.step t = some (opened, s') := by
  rw [beginsSentence_iff]
  constructor
  · rintro ⟨os', s', hr⟩
    obtain ⟨_, _, s₁, -, h₁, h₂⟩ := hr.split
    obtain ⟨-, rfl⟩ := h.unique h₁
    cases h₂ with
    | cons hstep _ => exact ⟨_, _, hstep⟩
  · rintro ⟨opened, s', hstep⟩
    exact ⟨_, s', h.snoc hstep⟩

theorem isSentence_iff_of_reads (h : Scan.start.Reads before os s) :
    IsSentence before ↔ s.expectsOperand = false ∧ s.groups.isEmpty := by
  rw [isSentence_iff]
  constructor
  · rintro ⟨os', depth, h'⟩
    obtain ⟨-, rfl⟩ := h.unique h'
    exact ⟨rfl, rfl⟩
  · obtain ⟨expects, depth, groups⟩ := s
    rintro ⟨he, hg⟩
    obtain rfl := List.isEmpty_iff.1 hg
    obtain rfl : expects = false := he
    exact ⟨os, depth, h⟩

/-- What follows a scan within the limit offends exactly if the scan stops there or a level beyond
the limit is opened. -/
theorem offends_iff (h : Scan.start.Reads before os s) :
    Offends limit before t ↔
      s.step t = none ∨ ∃ s', s.step t = some (some (limit + 1), s') := by
  rw [Offends, beginsSentence_snoc_iff h, opensLevel_iff h]
  refine or_congr_left ?_
  cases hstep : s.step t with
  | none => simp
  | some r =>
    simp only [Option.some.injEq, reduceCtorEq, iff_false, Classical.not_not]
    exact ⟨r.1, r.2, rfl⟩

/-- Tokens are without offence exactly if a scan reads them within the limit. -/
theorem inoffensive_iff : Inoffensive limit ts ↔ ∃ s, Scan.ReadsWithin limit ts s := by
  constructor
  · intro h
    -- The scan goes on from what it has read, `before`, to the end of the tokens `ts` after it.
    have goOn : ∀ ts before s, Scan.ReadsWithin limit before s →
        (∀ b t a, ts = b ++ t :: a → ¬Offends limit (before ++ b) t) →
        ∃ s', Scan.ReadsWithin limit (before ++ ts) s' := by
      intro ts
      induction ts with
      | nil => exact fun before s hs _ => ⟨s, by rwa [List.append_nil]⟩
      | cons t ts ih =>
        intro before s hs ho
        have ⟨_, hr, _⟩ := hs
        have ht := ho [] t ts rfl
        rw [List.append_nil, offends_iff hr] at ht
        obtain ⟨hn, hl⟩ := not_or.1 ht
        obtain ⟨⟨opened, s'⟩, hstep⟩ := Option.ne_none_iff_exists'.1 hn
        have hs' := hs.snoc hstep fun hlevel => hl ⟨s', by rw [hstep, hlevel]⟩
        obtain ⟨s'', h''⟩ := ih (before ++ [t]) s' hs' fun b u a hts => by
          rw [List.append_assoc]
          exact ho (t :: b) u a (by rw [hts]; rfl)
        exact ⟨s'', by rwa [List.append_assoc] at h''⟩
    exact goOn ts [] .start ⟨[], .nil, Scan.within_start, fun _ hm => (List.not_mem_nil hm).elim⟩ h
  · rintro ⟨s, os, hr, -, hos⟩ b t a rfl
    obtain ⟨os₁, os₂, s₁, rfl, h₁, h₂⟩ := hr.split
    rw [offends_iff h₁]
    cases h₂ with
    | cons hstep _ =>
      rintro (hn | ⟨s', hlevel⟩)
      · rw [hn] at hstep; cases hstep
      · rw [hlevel] at hstep
        obtain ⟨rfl, -⟩ := Prod.mk.inj (Option.some.inj hstep)
        have := hos (limit + 1) (by simp)
        omega

/-- A token that cannot stand after the tokens read is faulted by whether they are a sentence. -/
theorem misplaced_eq (h : Scan.start.Reads before os s) (t : Token) [Decidable (IsSentence before)] :
    s.misplaced t = t.forbiddenFault?.getD
      (if IsSentence before then .trailingToken t else .unexpectedToken t) := by
  have hs := isSentence_iff_of_reads h
  unfold Scan.misplaced
  by_cases hc : IsSentence before
  · rw [if_pos (hs.1 hc), if_pos hc]
    cases t <;> rfl
  · rw [if_neg (fun hn => hc (hs.2 hn)), if_neg hc]
    cases t <;> rfl

end

/-! ## The error of the parser -/

section

variable {setting : Setting} {before after ts : List Placed} {t : Placed} {s : Scan}
  {err : ParseError}

/-- The fault of a token at which the scan stops is the first fault. -/
theorem firstFault_of_step_eq_none (h : Scan.ReadsWithin setting.limit before s)
    (hstep : s.step t = none) :
    FirstFault setting (before ++ t :: after) ⟨s.misplaced t.token, t.column⟩ := by
  classical
  have hb : Inoffensive setting.limit before := inoffensive_iff.2 ⟨s, h⟩
  obtain ⟨os, hr, -⟩ := h
  have hn : ¬BeginsSentence (before ++ [t]) := fun hn => by
    obtain ⟨_, _, hsome⟩ := (beginsSentence_snoc_iff hr).1 hn
    rw [hstep] at hsome
    cases hsome
  rw [misplaced_eq hr]
  cases hf : t.token.forbiddenFault? with
  | some fault => exact .forbidden rfl hb hn hf
  | none =>
    by_cases hc : IsSentence before
    · rw [if_pos hc]; exact .trailing rfl hb hn hf hc
    · rw [if_neg hc]; exact .unexpected rfl hb hn hf hc

/-- The fault of the end is the first fault if the scan reads all tokens. -/
theorem firstFault_of_endFault? (h : Scan.ReadsWithin setting.limit ts s)
    (hf : s.endFault? setting = some err) : FirstFault setting ts err := by
  have hb : Inoffensive setting.limit ts := inoffensive_iff.2 ⟨s, h⟩
  obtain ⟨os, hr, -⟩ := h
  have ho := hr.operandRequired_iff
  have hg : s.groups.map OpenGroup.column = unclosedColumns ts := hr.groups_eq
  obtain ⟨expects, depth, groups⟩ := s
  cases expects with
  | true => cases hf; exact .endOfInput hb (ho.2 rfl)
  | false =>
    cases groups with
    | nil => cases hf
    | cons g groups => cases hf; exact .unclosed hb (fun hr => by cases ho.1 hr) hg.symm

/-- What the scan finds in tokens after those that it has read is the first fault of all. -/
theorem firstFault_of_fault? (h : Scan.ReadsWithin setting.limit before s)
    (hf : s.fault? setting ts = some err) : FirstFault setting (before ++ ts) err := by
  induction ts generalizing before s with
  | nil => rw [List.append_nil]; exact firstFault_of_endFault? h hf
  | cons t ts ih =>
    have ⟨_, hr, hs, _⟩ := h
    cases hstep : s.step t with
    | none =>
      rw [Scan.fault?_of_step_eq_none hstep] at hf
      cases hf
      exact firstFault_of_step_eq_none h hstep
    | some r =>
      obtain ⟨opened, s'⟩ := r
      by_cases ho : opened = some (setting.limit + 1)
      · subst ho
        rw [Scan.fault?_of_opens hstep, if_pos (Nat.lt_succ_self _)] at hf
        cases hf
        exact .tooDeep rfl (inoffensive_iff.2 ⟨s, h⟩) ((opensLevel_iff hr).2 ⟨s', hstep⟩)
      · obtain ⟨-, hm⟩ := (hs.step hstep).resolve_right ho
        have hfault : s.fault? setting (t :: ts) = s'.fault? setting ts :=
          (Scan.Reads.cons hstep .nil).fault?_append fun m hmem =>
            hm m (List.mem_singleton.1 hmem).symm
        rw [List.append_cons]
        exact ih (h.snoc hstep ho) (hfault.symm.trans hf)

/-- The scan of inoffensive tokens has its fault in what follows. -/
theorem Inoffensive.exists_reads (h : Inoffensive setting.limit before) :
    ∃ os s, Scan.start.Reads before os s ∧
      ∀ us, Scan.start.fault? setting (before ++ us) = s.fault? setting us := by
  obtain ⟨s, os, hr, -, hos⟩ := inoffensive_iff.1 h
  exact ⟨os, s, hr, fun _ => hr.fault?_append hos⟩

/-- The scan stops at a token after which no sentence can follow. -/
theorem fault?_eq_misplaced (h : Inoffensive setting.limit before)
    (hn : ¬BeginsSentence (before ++ [t])) [Decidable (IsSentence before)] :
    Scan.start.fault? setting (before ++ t :: after) =
      some ⟨t.token.forbiddenFault?.getD
        (if IsSentence before then .trailingToken t.token else .unexpectedToken t.token),
        t.column⟩ := by
  obtain ⟨os, s, hr, hf⟩ := h.exists_reads
  rw [beginsSentence_snoc_iff hr] at hn
  have hstep : s.step t = none := Option.eq_none_iff_forall_ne_some.2 fun r hr' => hn ⟨_, _, hr'⟩
  rw [hf, Scan.fault?_of_step_eq_none hstep, misplaced_eq hr]

/-- The first fault is what the scan finds. -/
theorem FirstFault.fault?_eq (h : FirstFault setting ts err) :
    Scan.start.fault? setting ts = some err := by
  classical
  cases h with
  | tooDeep hts hb ho =>
    obtain ⟨os, s, hr, hf⟩ := hb.exists_reads
    obtain ⟨s', hstep⟩ := (opensLevel_iff hr).1 ho
    rw [hts, hf, Scan.fault?_of_opens hstep, if_pos (Nat.lt_succ_self _)]
  | forbidden hts hb hn ht => rw [hts, fault?_eq_misplaced hb hn, ht, Option.getD_some]
  | trailing hts hb hn ht hc =>
    rw [hts, fault?_eq_misplaced hb hn, ht, Option.getD_none, if_pos hc]
  | unexpected hts hb hn ht hc =>
    rw [hts, fault?_eq_misplaced hb hn, ht, Option.getD_none, if_neg hc]
  | endOfInput hb ho =>
    obtain ⟨os, ⟨expects, depth, groups⟩, hr, hf⟩ := hb.exists_reads
    obtain rfl : expects = true := hr.operandRequired_iff.1 ho
    rw [← List.append_nil ts, hf]
    rfl
  | unclosed hb ho hcolumns =>
    obtain ⟨os, ⟨expects, depth, groups⟩, hr, hf⟩ := hb.exists_reads
    obtain rfl : expects = false := by simpa using mt hr.operandRequired_iff.2 ho
    have hg := hr.groups_eq.trans hcolumns
    rw [← List.append_nil ts, hf]
    cases groups with
    | nil => cases hg
    | cons g groups => cases hg; rfl

/-- **The parser reports the first fault.** Parsing tokens fails with an error exactly if it is that
of the first token after which no sentence can follow or that nests too deeply, or, if there is no
such token, of what is missing at the end. -/
theorem parseAll_eq_error_iff (ts : List Placed) (endColumn limit : Nat) (err : ParseError) :
    (Cursor.start ts endColumn limit).parseAll.1 = .error err ↔
      FirstFault ⟨limit, endColumn⟩ ts err := by
  rw [parseAll_eq_error_iff_fault]
  exact ⟨fun h => @firstFault_of_fault? ⟨limit, endColumn⟩ [] ts .start err
    ⟨[], .nil, Scan.within_start, fun _ hm => (List.not_mem_nil hm).elim⟩ h, FirstFault.fault?_eq⟩

end

end Calculator
