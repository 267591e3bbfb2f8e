import Calculator.Proofs.Parser.FirstFault
import Calculator.Proofs.Token.Cut
import Mathlib.Data.Nat.Find

/-!
# The limit only cuts

A limit on nesting that is high enough does not show in the result of the parser, and a lower one
shows as nothing but a level too many, at the first token that opens it.

* `FirstOpening`: the first token that opens a level.
* `OpensLevel.le_length`: a token opens no level higher than its place.
* `FirstFault.mono`: any other fault stays under a higher limit.
* `parseWithin_limit`: the results of the parser by its limit.
-/

namespace Calculator

/-! ## Higher limits -/

section

variable {n m : Nat} {s s' : Scan} {t : Placed} {ts us : List Placed} {os : List (Option Nat)}
  {opened : Option Nat} {c : Nat} {err : ParseError}

theorem Scan.Within.mono (h : s.Within n) (hn : n ≤ m) : s.Within m :=
  ⟨Nat.le_trans h.1 hn, fun g hg => Nat.lt_of_lt_of_le (h.2 g hg) hn⟩

theorem Scan.ReadsWithin.mono (h : Scan.ReadsWithin n ts s) (hn : n ≤ m) :
    Scan.ReadsWithin m ts s := by
  obtain ⟨os, hreads, hs, hos⟩ := h
  exact ⟨os, hreads, hs.mono hn, fun k hk => Nat.le_trans (hos k hk) hn⟩

theorem Inoffensive.mono (h : Inoffensive n ts) (hn : n ≤ m) : Inoffensive m ts := by
  obtain ⟨s, hs⟩ := inoffensive_iff.1 h
  exact inoffensive_iff.2 ⟨s, hs.mono hn⟩

/-- A fault other than a level too many stays under a higher limit. -/
theorem FirstFault.mono (h : FirstFault ⟨n, c⟩ ts err) (hn : n ≤ m)
    (herr : ∀ k column, err ≠ ⟨.nestingTooDeep k, column⟩) : FirstFault ⟨m, c⟩ ts err := by
  cases h with
  | tooDeep => exact absurd rfl (herr _ _)
  | forbidden hts hb hnot hf => exact .forbidden hts (hb.mono hn) hnot hf
  | trailing hts hb hnot hf hc => exact .trailing hts (hb.mono hn) hnot hf hc
  | unexpected hts hb hnot hf hc => exact .unexpected hts (hb.mono hn) hnot hf hc
  | endOfInput hb ho => exact .endOfInput (hb.mono hn) ho
  | unclosed hb ho hcolumns => exact .unclosed (hb.mono hn) ho hcolumns

end

/-! ## Levels and the tokens that open them -/

section

variable {n level level' : Nat} {s s' : Scan} {t : Placed} {before ts : List Placed}
  {os : List (Option Nat)} {opened : Option Nat}

/-- One token opens at most one level more. -/
theorem Scan.Within.step_succ (hs : s.Within n) (h : s.step t = some (opened, s')) :
    s'.Within (n + 1) ∧ ∀ m, opened = some m → m ≤ n + 1 := by
  rcases (hs.mono (Nat.le_succ n)).step h with hwithin | rfl
  · exact hwithin
  · -- The token would leave a level out.
    rcases hs.step h with ⟨-, hle⟩ | hopened
    · have := hle (n + 1 + 1) rfl
      omega
    · cases hopened

theorem Scan.Reads.within_length (h : s.Reads ts os s') (hs : s.Within n) :
    s'.Within (n + ts.length) := by
  induction h generalizing n with
  | nil => exact hs
  | @cons s s' s'' t ts opened os hstep _ ih =>
    have hwithin := ih (hs.step_succ hstep).1
    rwa [List.length_cons, Nat.add_comm ts.length, ← Nat.add_assoc]

namespace OpensLevel

theorem beginsSentence (h : OpensLevel before t level) : BeginsSentence (before ++ [t]) := by
  obtain ⟨p, after, hp, -⟩ := h
  exact ⟨after, p, by rw [hp, List.append_assoc]; rfl⟩

/-- The tokens before one that opens a level are read, and so is the token. -/
theorem exists_reads (h : OpensLevel before t level) :
    ∃ os s s', Scan.start.Reads before os s ∧ s.step t = some (some level, s') := by
  obtain ⟨os, s, hreads⟩ := beginsSentence_iff.1 h.beginsSentence
  obtain ⟨os₁, -, s₁, -, hbefore, -⟩ := hreads.split
  obtain ⟨s', hstep⟩ := (opensLevel_iff hbefore).1 h
  exact ⟨os₁, s₁, s', hbefore, hstep⟩

/-- A token opens no level higher than its place. -/
theorem le_length (h : OpensLevel before t level) : level ≤ before.length + 1 := by
  obtain ⟨os, s, s', hreads, hstep⟩ := h.exists_reads
  have hwithin : s.Within (0 + before.length) := hreads.within_length Scan.within_start
  rw [Nat.zero_add] at hwithin
  exact (hwithin.step_succ hstep).2 level rfl

theorem unique (h : OpensLevel before t level) (h' : OpensLevel before t level') :
    level = level' := by
  obtain ⟨os, s, s', hreads, hstep⟩ := h.exists_reads
  obtain ⟨s'', hstep'⟩ := (opensLevel_iff hreads).1 h'
  rw [hstep] at hstep'
  exact Option.some.inj (Prod.mk.inj (Option.some.inj hstep')).1

end OpensLevel

end

/-- In the tokens `ts` the first that opens the level is `t`, after the tokens `before`. -/
structure FirstOpening (ts : List Placed) (level : Nat) (before : List Placed) (t : Placed) :
    Prop where
  tokens : ∃ after, ts = before ++ t :: after
  opens : OpensLevel before t level
  first : ∀ b u a, before = b ++ u :: a → ¬OpensLevel b u level

namespace FirstOpening

variable {n m : Nat} {ts before before' : List Placed} {t t' : Placed}

/-- Before the first token that opens a level too many nothing offends. -/
theorem inoffensive (h : FirstOpening ts (n + 1) before t) : Inoffensive n before := by
  rintro b u a rfl (hnot | hopens)
  · obtain ⟨us, hsentence⟩ := h.opens.beginsSentence
    refine hnot ⟨a ++ [t] ++ us, ?_⟩
    simpa using hsentence
  · exact h.first b u a rfl hopens

/-- A higher level is opened later. -/
theorem exists_between (h : FirstOpening ts (n + 1) before t)
    (h' : FirstOpening ts (m + 1) before' t') (hlt : n < m) :
    ∃ between, before' = before ++ t :: between := by
  obtain ⟨after, hafter⟩ := h.tokens
  obtain ⟨after', hafter'⟩ := h'.tokens
  rw [hafter] at hafter'
  rcases List.append_eq_append_iff.1 hafter' with ⟨mid, rfl, hmid⟩ | ⟨mid, rfl, hmid⟩
  · cases mid with
    | nil =>
      -- One token would open both levels.
      obtain ⟨rfl, -⟩ := List.cons.inj hmid
      rw [List.append_nil] at h'
      have := h.opens.unique h'.opens
      omega
    | cons u mid =>
      obtain ⟨rfl, -⟩ := List.cons.inj hmid
      exact ⟨mid, rfl⟩
  · cases mid with
    | nil =>
      obtain ⟨rfl, -⟩ := List.cons.inj hmid
      rw [List.append_nil] at h
      have := h.opens.unique h'.opens
      omega
    | cons u mid =>
      -- The higher level would be opened before the lower one.
      obtain ⟨rfl, -⟩ := List.cons.inj hmid
      have hinoffensive := h.inoffensive.mono (Nat.le_of_lt hlt)
      exact absurd (.inr h'.opens) (hinoffensive before' t' mid rfl)

end FirstOpening

/-- A level too many is reported at the first token that opens it. -/
theorem FirstFault.exists_firstOpening {setting : Setting} {ts : List Placed} {k column : Nat}
    (h : FirstFault setting ts ⟨.nestingTooDeep k, column⟩) :
    ∃ before t, FirstOpening ts (setting.limit + 1) before t ∧ k = setting.limit ∧
      column = t.column := by
  cases h with
  | @tooDeep before t after hts hb hopens =>
    refine ⟨before, t, ⟨⟨after, hts⟩, hopens, fun b u a hbefore hu => ?_⟩, rfl, rfl⟩
    exact hb b u a hbefore (.inr hu)
  | @forbidden before t after fault _ _ _ hf =>
    obtain ⟨token, column⟩ := t
    cases token <;> cases hf

/-! ## Results by the limit -/

section

variable {ts : List Placed} {endColumn n m : Nat}

/-- The error of the parser is the first fault of the tokens. -/
theorem firstFault_of_parseAll {err : ParseError}
    (h : (Cursor.start ts endColumn n).parseAll.1 = .error err) :
    FirstFault ⟨n, endColumn⟩ ts err := by
  have hstart : Scan.ReadsWithin n [] Scan.start :=
    ⟨[], .nil, Scan.within_start, fun _ hm => (List.not_mem_nil hm).elim⟩
  exact firstFault_of_fault? hstart (parseAll_eq_error_iff_fault.1 h)

/-- Under a limit as high as the number of tokens no level is too many. -/
theorem parseAll_length_ne_nestingTooDeep (k column : Nat) :
    (Cursor.start ts endColumn ts.length).parseAll.1 ≠ .error ⟨.nestingTooDeep k, column⟩ := by
  intro h
  obtain ⟨before, t, hfirst, -⟩ := (firstFault_of_parseAll h).exists_firstOpening
  obtain ⟨after, hts⟩ := hfirst.tokens
  have hle := hfirst.opens.le_length
  have hlength := congrArg List.length hts
  simp only [List.length_append, List.length_cons] at hle hlength
  omega

/-- A result that is not a level too many stays under a higher limit. -/
theorem parseAll_eq_of_le (hn : n ≤ m)
    (h : ∀ k column,
      (Cursor.start ts endColumn n).parseAll.1 ≠ .error ⟨.nestingTooDeep k, column⟩) :
    (Cursor.start ts endColumn m).parseAll.1 = (Cursor.start ts endColumn n).parseAll.1 := by
  cases hresult : (Cursor.start ts endColumn n).parseAll.1 with
  | ok e =>
    obtain ⟨p, rfl, hp, rfl⟩ := exists_phrase_of_parseAll hresult
    exact p.parseAll_eq (Nat.le_trans hp hn) endColumn
  | error err =>
    have herr : ∀ k column, err ≠ ⟨.nestingTooDeep k, column⟩ := by
      rintro k column rfl
      exact h k column hresult
    rw [parseAll_eq_error_iff_fault]
    exact ((firstFault_of_parseAll hresult).mono hn herr).fault?_eq

end

/-- **The limit only cuts.** A source that has no tokens fails in the same way under every limit.
For every other source there is a threshold. From there on the result is the same under every limit
and is not a level too many. Under a lower limit the result is the level too many, at the first
token that opens it; the higher the limit, the further to the right this token stands. -/
theorem parseWithin_limit (source : String) :
    (∀ err, tokenize source = .error err → ∀ limit, parseWithin source limit = .error err) ∧
    ∀ ts, tokenize source = .ok ts →
      ∃ threshold,
        (∀ limit, threshold ≤ limit → parseWithin source limit = parseWithin source threshold) ∧
        (∀ n column, parseWithin source threshold ≠ .error ⟨.nestingTooDeep n, column⟩) ∧
        (∀ limit < threshold, ∃ before t, FirstOpening ts (limit + 1) before t ∧
          parseWithin source limit = .error ⟨.nestingTooDeep limit, t.column⟩) ∧
        ∀ limit limit' before before' t t', limit < limit' →
          FirstOpening ts (limit + 1) before t → FirstOpening ts (limit' + 1) before' t' →
          t.column < t'.column := by
  refine ⟨fun err h limit => by rw [parseWithin, h]; rfl, fun ts h => ?_⟩
  have hparse : ∀ limit, parseWithin source limit =
      (Cursor.start ts (source.length + 1) limit).parseAll.1 := by
    intro limit
    rw [parseWithin, h]
    rfl
  classical
  have hexists : ∃ n, ∀ k column, parseWithin source n ≠ .error ⟨.nestingTooDeep k, column⟩ := by
    refine ⟨ts.length, fun k column => ?_⟩
    rw [hparse]
    exact parseAll_length_ne_nestingTooDeep k column
  have hspec := Nat.find_spec hexists
  refine ⟨Nat.find hexists, fun limit hle => ?_, hspec, fun limit hlt => ?_, ?_⟩
  · rw [hparse, hparse]
    refine parseAll_eq_of_le hle fun k column => ?_
    rw [← hparse]
    exact hspec k column
  · have hmin := Nat.find_min hexists hlt
    simp only [not_forall, Classical.not_not] at hmin
    obtain ⟨k, column, hdeep⟩ := hmin
    have hfault := firstFault_of_parseAll ((hparse limit).symm.trans hdeep)
    obtain ⟨before, t, hfirst, rfl, rfl⟩ := hfault.exists_firstOpening
    exact ⟨before, t, hfirst, hdeep⟩
  · intro limit limit' before before' t t' hlt hfirst hfirst'
    obtain ⟨between, rfl⟩ := hfirst.exists_between hfirst' hlt
    obtain ⟨after, rfl⟩ := hfirst'.tokens
    have hpairwise := pairwise_column_tokenize h
    rw [List.append_assoc, List.cons_append] at hpairwise
    have htail := (List.pairwise_append.1 hpairwise).2.1
    exact (List.pairwise_cons.1 htail).1 t' (by simp)

end Calculator
