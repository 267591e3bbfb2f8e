import Calculator.Proofs.Parser.Run

/-!
# The parser recognizes the grammar

The parser accepts exactly the sentences whose nesting the limit allows, and its result is the tree
of their derivation.

* `Run.finds`: what a successful run has consumed is a phrase, and its tree is the result.
* `Phrase.run`: the parser of a level consumes each phrase of the level, up to what follows it.
* `exists_phrase_of_parseWithin`, `Phrase.parseWithin_eq`: what sources parse to.
* `Phrase.tree_eq_of_tokens_eq`: the grammar is unambiguous.
* `parseAll_eq_ok_iff`: the expressions that the parser accepts.
-/

namespace Calculator

/-! ## Successes are phrases -/

/-- Between `ts` and `rest` stands a phrase with the tree `e` that the nesting levels allow. For the
rest of a chain, the phrase includes whatever phrase the left operand came from. -/
def Goal.Finds (k : Nat) (ts : List Placed) (e : Expr) (rest : List Placed) : Goal → Prop
  | .level l => ∃ p : Phrase l, ts = p.tokens ++ rest ∧ p.tree = e ∧ p.nesting ≤ k
  | .nested _ l => ∃ p : Phrase l, ts = p.tokens ++ rest ∧ p.tree = e ∧ p.nesting < k
  | .rest c left => ∀ q : Phrase c.level, q.tree = left → q.nesting ≤ k →
      ∃ p : Phrase c.level, q.tokens ++ ts = p.tokens ++ rest ∧ p.tree = e ∧ p.nesting ≤ k

/-- What a successful run has consumed is a phrase, and its tree is the result. -/
theorem Run.finds {setting : Setting} {k : Nat} {goal : Goal} {ts rest : List Placed} {e : Expr}
    {o : Outcome} (h : Run setting k goal ts o) (ho : o = .done e rest) :
    goal.Finds k ts e rest := by
  induction h generalizing e rest with
  | @integer _ n column => cases ho; exact ⟨.integer n column, rfl, rfl, Nat.zero_le _⟩
  | @float _ x column => cases ho; exact ⟨.float x column, rfl, rfl, Nat.zero_le _⟩
  | @group _ column _ _ closed _ _ ih =>
    cases ho
    obtain ⟨p, rfl, rfl, hp⟩ := ih rfl
    exact ⟨.group column p closed, by simp [Phrase.tokens], rfl, hp⟩
  | deeper _ ih =>
    obtain ⟨p, hts, he, hp⟩ := ih ho
    exact ⟨p, hts, he, Nat.lt_succ_of_le hp⟩
  | base _ _ ih =>
    cases ho
    obtain ⟨p, hts, he, hp⟩ := ih rfl
    exact ⟨.atom p, hts, he, hp⟩
  | @power _ _ _ column _ _ _ _ _ ihb ihx =>
    cases ho
    obtain ⟨p, rfl, rfl, hp⟩ := ihb rfl
    obtain ⟨q, rfl, rfl, hq⟩ := ihx rfl
    exact ⟨.power p column q, by simp [Phrase.tokens], rfl, Nat.max_le.2 ⟨hp, hq⟩⟩
  | unsigned _ _ ih =>
    obtain ⟨p, hts, he, hp⟩ := ih ho
    exact ⟨.unsigned p, hts, he, hp⟩
  | @signed _ sign column _ _ _ _ ih =>
    cases ho
    obtain ⟨p, rfl, rfl, hp⟩ := ih rfl
    exact ⟨.signed sign column p, rfl, rfl, hp⟩
  | first c _ _ iho ihr =>
    obtain ⟨p, rfl, rfl, hp⟩ := iho rfl
    obtain ⟨q, hq⟩ := ihr ho (c.single p) (by simp) (by simpa using hp)
    exact ⟨q, by simpa using hq⟩
  | stop => cases ho; exact fun q hq hk => ⟨q, rfl, hq, hk⟩
  | @next _ c _ op column _ _ _ _ ha _ _ iho ihr =>
    intro q hq hk
    obtain ⟨p, rfl, rfl, hp⟩ := iho rfl
    -- The left operand grows by the operator and the operand just parsed.
    obtain ⟨r, hr⟩ := ihr ho (c.join q op ha column p) (by simp [hq])
      (by rw [Chain.nesting_join]; exact Nat.max_le.2 ⟨hk, hp⟩)
    exact ⟨r, by simpa using hr⟩
  | endOfInput | refused | groupUnclosed | groupRefused | groupFailed | tooDeep | baseFailed
  | powerFailed | signedFailed | firstFailed | nextFailed => cases ho

/-! ## Phrases succeed -/

/-- A number or a group does not start with a sign. -/
theorem Phrase.avoids_sign_primary (p : Phrase .primary) (ts : List Placed) :
    Avoids BinaryOp.isSign (p.tokens ++ ts) := by
  cases p <;> exact .cons fun op h => by cases h

/-- A power does not start with a sign, since its base does not. -/
theorem Phrase.avoids_sign_power (p : Phrase .power) (ts : List Placed) :
    Avoids BinaryOp.isSign (p.tokens ++ ts) := by
  cases p with
  | atom p => exact p.avoids_sign_primary ts
  | power base column exponent =>
    rw [Phrase.tokens, List.append_assoc]
    exact base.avoids_sign_primary _

/-- What the parser of a level makes of the tokens `rest` once it has met a phrase with the tree
`e`: a chain may go on, all else is done. -/
def Level.Resumes (setting : Setting) (k : Nat) (e : Expr) (rest : List Placed) (o : Outcome) :
    Level → Prop
  | .additive => Avoids Level.multiplicative.continues rest ∧ Run setting k (.rest .sums e) rest o
  | .multiplicative => Avoids Level.unary.continues rest ∧ Run setting k (.rest .products e) rest o
  | .unary => Avoids Level.unary.continues rest ∧ o = .done e rest
  | .power => Avoids Level.power.continues rest ∧ o = .done e rest
  | .primary => o = .done e rest

theorem Level.Resumes.done {setting : Setting} {k : Nat} {l : Level} {e : Expr}
    {rest : List Placed} (h : Avoids l.continues rest) :
    l.Resumes setting k e rest (.done e rest) := by
  cases l with
  | additive =>
    exact ⟨h.mono fun _ hop => (nomatch hop), .stop (h.mono fun _ hop => (nomatch hop))⟩
  | multiplicative =>
    exact ⟨h.mono fun _ hop => (Bool.or_eq_false_iff.1 hop).1,
      .stop (h.mono fun _ hop => (Bool.or_eq_false_iff.1 hop).2)⟩
  | unary | power => exact ⟨h, rfl⟩
  | primary => rfl

theorem isPower_of_isMultiplicative {op : BinaryOp} (h : op.isMultiplicative = true) :
    op.isPower = false := by
  cases op <;> first | rfl | cases h

theorem continues_multiplicative_of_isAdditive {op : BinaryOp} (h : op.isAdditive = true) :
    Level.multiplicative.continues op = false := by
  cases op <;> first | rfl | cases h

/-- A phrase inside of what an opening token opens is parsed with the levels that are left there. -/
theorem Run.nested {setting : Setting} {k n column : Nat} {l : Level} {ts : List Placed}
    {o : Outcome} (hn : n + 1 ≤ k) (h : ∀ j, n ≤ j → Run setting j (.level l) ts o) :
    Run setting k (.nested column l) ts o := by
  cases k with
  | zero => cases hn
  | succ k => exact .deeper (h k (Nat.le_of_succ_le_succ hn))

/-- The parser of a level consumes each phrase of the level, up to what follows it. -/
theorem Phrase.run {setting : Setting} {l : Level} (p : Phrase l) {k : Nat} (hk : p.nesting ≤ k)
    {rest : List Placed} {o : Outcome} (h : l.Resumes setting k p.tree rest o) :
    Run setting k (.level l) (p.tokens ++ rest) o := by
  induction p generalizing k rest o with
  | integer => cases h; exact .integer
  | float => cases h; exact .float
  | group opened body closed ih =>
    cases h
    rw [tokens, List.cons_append, List.append_assoc]
    refine .group (.nested hk fun j hj => ih hj (.done (.cons fun _ h => ?_)))
    cases h
  | atom p ih =>
    obtain ⟨ha, rfl⟩ := h
    exact .base (ih hk rfl) ha
  | power base column exponent ihb ihx =>
    obtain ⟨ha, rfl⟩ := h
    obtain ⟨hb, hx⟩ := Nat.max_le.1 hk
    rw [tokens, List.append_assoc]
    exact .power (ihb hb rfl) (.nested hx fun j hj => ihx hj ⟨ha, rfl⟩)
  | unsigned p ih => exact .unsigned (p.avoids_sign_power rest) (ih hk h)
  | signed sign column operand ih =>
    obtain ⟨ha, rfl⟩ := h
    exact .signed (.nested hk fun j hj => ih hj ⟨ha, rfl⟩)
  | factor p ih => exact .first .products (ih hk ⟨h.1, rfl⟩) h.2
  | product left op accepted column right ihl ihr =>
    obtain ⟨hl, hr⟩ := Nat.max_le.1 hk
    rw [tokens, List.append_assoc]
    refine ihl hl ⟨.cons ?_, .next accepted (ihr hr ⟨h.1, rfl⟩) h.2⟩
    rintro _ ⟨⟩
    exact isPower_of_isMultiplicative accepted
  | term p ih => exact .first .sums (ih hk (.done h.1)) h.2
  | sum left op accepted column right ihl ihr =>
    obtain ⟨hl, hr⟩ := Nat.max_le.1 hk
    rw [tokens, List.append_assoc]
    refine ihl hl ⟨.cons ?_, .next accepted (ihr hr (.done h.1)) h.2⟩
    rintro _ ⟨⟩
    exact continues_multiplicative_of_isAdditive accepted

/-! ## Whole expressions -/

/-- What parsing an expression from its first token answers, by the outcome for its tokens. -/
theorem parseAll_start (ts : List Placed) (endColumn limit : Nat) :
    (Cursor.start ts endColumn limit).parseAll.1 =
      match Goal.parse ⟨limit, endColumn⟩ limit (.level .additive) ts with
      | .done e [] => .ok e
      | .done _ (t :: _) => .error ⟨t.token.trailingFault, t.column⟩
      | .failed error _ _ => .error error := by
  unfold Cursor.parseAll Cursor.parseLevel Cursor.start Cursor.levels Goal.parse
  simp only [Nat.sub_zero]
  cases (parser ⟨limit, endColumn⟩ limit .additive).run ts with
  | done e rest => cases rest <;> rfl
  | failed error rest levels => rfl

theorem parseAll_eq_ok_iff_run {ts : List Placed} {endColumn limit : Nat} {e : Expr} :
    (Cursor.start ts endColumn limit).parseAll.1 = .ok e ↔
      Run ⟨limit, endColumn⟩ limit (.level .additive) ts (.done e []) := by
  rw [parseAll_start, run_iff]
  constructor
  · intro h
    split at h
    · next he => cases h; exact he
    · cases h
    · cases h
  · intro h
    rw [h]

/-- What the parser accepts is derived by the grammar, with a nesting that the limit allows. -/
theorem exists_phrase_of_parseAll {ts : List Placed} {endColumn limit : Nat} {e : Expr}
    (h : (Cursor.start ts endColumn limit).parseAll.1 = .ok e) :
    ∃ p : Phrase .additive, p.tokens = ts ∧ p.nesting ≤ limit ∧ p.tree = e := by
  obtain ⟨p, rfl, rfl, hp⟩ := (parseAll_eq_ok_iff_run.1 h).finds rfl
  exact ⟨p, by rw [List.append_nil], hp, rfl⟩

/-- The parser accepts the tokens of a phrase whose nesting the limit allows. -/
theorem Phrase.parseAll_eq (p : Phrase .additive) {limit : Nat} (hp : p.nesting ≤ limit)
    (endColumn : Nat) : (Cursor.start p.tokens endColumn limit).parseAll.1 = .ok p.tree := by
  rw [parseAll_eq_ok_iff_run, ← List.append_nil p.tokens]
  exact p.run hp (.done .nil)

/-- What parses is derived by the grammar. -/
theorem exists_phrase_of_parseWithin {source : String} {limit : Nat} {e : Expr}
    (h : parseWithin source limit = .ok e) :
    ∃ p : Phrase .additive, tokenize source = .ok p.tokens ∧ p.nesting ≤ limit ∧ p.tree = e := by
  unfold parseWithin at h
  cases ht : tokenize source with
  | error err => rw [ht] at h; cases h
  | ok ts =>
    rw [ht] at h
    obtain ⟨p, rfl, hp, rfl⟩ := exists_phrase_of_parseAll h
    exact ⟨p, rfl, hp, rfl⟩

/-- A source parses if its tokens are those of a phrase whose nesting the limit allows. -/
theorem Phrase.parseWithin_eq (p : Phrase .additive) {source : String} {limit : Nat}
    (ht : tokenize source = .ok p.tokens) (hp : p.nesting ≤ limit) :
    parseWithin source limit = .ok p.tree := by
  rw [parseWithin, ht]
  exact p.parseAll_eq hp _

/-- The grammar is unambiguous: the tokens determine the tree. -/
theorem Phrase.tree_eq_of_tokens_eq {p q : Phrase .additive} (h : p.tokens = q.tokens) :
    p.tree = q.tree := by
  have hp := p.parseAll_eq (Nat.le_max_left p.nesting q.nesting) 0
  have hq := q.parseAll_eq (Nat.le_max_right p.nesting q.nesting) 0
  rw [h, hq] at hp
  exact (Except.ok.inj hp).symm

/-- **The parser recognizes the grammar.** An expression is accepted if and only if its tokens are
those of a derivation whose nesting the limit allows, and it is the tree of that derivation. -/
theorem parseAll_eq_ok_iff (ts : List Placed) (endColumn limit : Nat) (e : Expr) :
    (Cursor.start ts endColumn limit).parseAll.1 = .ok e ↔
      ∃ p : Phrase .additive, p.tokens = ts ∧ p.nesting ≤ limit ∧ p.tree = e := by
  constructor
  · exact exists_phrase_of_parseAll
  · rintro ⟨p, rfl, hp, rfl⟩
    exact p.parseAll_eq hp endColumn

end Calculator
