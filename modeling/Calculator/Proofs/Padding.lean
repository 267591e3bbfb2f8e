import Calculator.Proofs.Insertion
import Calculator.Proofs.Token.Exposed

/-!
# White space around a source

Blanks before and after a source move the columns of its errors and change nothing else, whether it
has tokens or not: where its first fault was met, the same fault is met. So does what the last
comment of the source hides. Anything else after the source that is not printed is a fault, which is
met if the source has none.

* `paddedColumn`: the columns of a source with blanks around it.
* `tokenize_padded`, `parseWithin_padded`: tokens and tree of a source with blanks around it.
* `tokenize_padded_of_error`, `tokenize_exposed`: the faults of the source, and the one behind it.
* `Evaluator.calculate_padded`: its value.
-/

namespace Calculator

open Lexeme

/-- The column in a source of `length` characters after `before` blanks have been put before it and
`after` blanks after it. What stands beyond its last character moves by all of them. -/
def paddedColumn (length before after column : Nat) : Nat :=
  if column ≤ length then column + before else column + before + after

/-! ## Columns -/

section

variable {cs : List Char} {column : Nat}

/-- Only the columns of the characters count. -/
theorem mapColumn_placedFrom {σ τ : Nat → Nat}
    (h : ∀ k, column ≤ k → k < column + cs.length → σ k = τ k) :
    ((placedFrom column (cut cs)).map (·.map (·.mapColumn σ))).mapError (·.mapColumn σ) =
      ((placedFrom column (cut cs)).map (·.map (·.mapColumn τ))).mapError (·.mapColumn τ) := by
  fun_induction cut cs generalizing column with
  | case1 => rfl
  | case2 c cs ih =>
    have hhere := h column (Nat.le_refl _) (by simp)
    have hlength : ((c :: cs.take (Lexeme.measure c cs).2).length +
        (cs.drop (Lexeme.measure c cs).2).length) = (c :: cs).length := by
      simp only [List.length_cons, List.length_take, List.length_drop]
      omega
    have ih := @ih (column + (c :: cs.take (Lexeme.measure c cs).2).length)
      fun k hle hlt => h k (by omega) (by omega)
    unfold placedFrom
    split
    · exact ih
    · next token _ =>
      revert ih
      cases placedFrom (column + (c :: cs.take (Lexeme.measure c cs).2).length)
          (cut (cs.drop (Lexeme.measure c cs).2)) with
      | error e => exact id
      | ok ts =>
        intro ih
        have hrest : ts.map (·.mapColumn σ) = ts.map (·.mapColumn τ) := Except.ok.inj ih
        show Except.ok (⟨token, σ column⟩ :: ts.map (·.mapColumn σ)) =
          Except.ok (⟨token, τ column⟩ :: ts.map (·.mapColumn τ))
        rw [hhere, hrest]
    · next fault _ =>
      show Except.error (⟨_, σ column⟩ : ParseError) = Except.error ⟨_, τ column⟩
      rw [hhere]

end

/-! ## Sources with white space around them -/

section

variable {text source : String} {lead trail blanks rest : List Char} {c : Char}

/-- A text with a character first that is neither a blank nor printed has no tokens. -/
theorem tokenize_not_isPrinted (htext : text.toList = blanks ++ c :: rest)
    (hblanks : ∀ d ∈ blanks, isBlank d) (hc : isPrinted c = false) (hblank : isBlank c = false) :
    tokenize text = .error ⟨.unexpectedCharacter c, blanks.length + 1⟩ := by
  rw [tokenize, htext, placedFrom_not_isPrinted hblanks hc hblank, Nat.add_comm]

theorem tokenize_lead (htext : text.toList = lead ++ source.toList ++ trail)
    (hlead : ∀ c ∈ lead, isBlank c) :
    tokenize text = placedFrom (1 + lead.length) (cut (source.toList ++ trail)) := by
  rw [tokenize, htext, List.append_assoc, placedFrom_filler (.of_blanks hlead)]

/-- The tokens, or the first fault, with their columns moved. -/
theorem tokenize_padded (htext : text.toList = lead ++ source.toList ++ trail)
    (hlead : ∀ c ∈ lead, isBlank c) (htrail : ∀ c ∈ trail, isPrinted c = false)
    (hexposed : ∀ c ∈ exposed source.toList trail, isBlank c) :
    let σ := paddedColumn source.length lead.length trail.length
    tokenize text = ((tokenize source).map (·.map (·.mapColumn σ))).mapError (·.mapColumn σ) := by
  intro σ
  have hmoved : ∀ k, 1 ≤ k → k < 1 + source.toList.length → σ k = k + lead.length := by
    intro k _ hk
    rw [String.length_toList] at hk
    exact if_pos (by omega)
  rw [tokenize_lead htext hlead, placedFrom_append_blanks htrail hexposed, tokenize, placedFrom_add,
    mapColumn_placedFrom hmoved]

/-- The first fault of the source, whatever stands behind it. -/
theorem tokenize_padded_of_error (htext : text.toList = lead ++ source.toList ++ trail)
    (hlead : ∀ c ∈ lead, isBlank c) (htrail : ∀ c ∈ trail, isPrinted c = false) {e : ParseError}
    (h : tokenize source = .error e) :
    tokenize text = .error (e.mapColumn (· + lead.length)) := by
  rw [tokenize] at h
  rw [tokenize_lead htext hlead, placedFrom_append_exposed htrail, placedFrom_add, h]
  rfl

/-- The first character behind the source that is neither hidden by a comment nor a blank. -/
theorem tokenize_exposed (htext : text.toList = lead ++ source.toList ++ trail)
    (htrail : ∀ c ∈ trail, isPrinted c = false)
    (hexposed : exposed source.toList trail = blanks ++ c :: rest)
    (hblanks : ∀ d ∈ lead ++ blanks, isBlank d) (hblank : isBlank c = false) {ts : List Placed}
    (h : tokenize source = .ok ts) :
    tokenize text = .error ⟨.unexpectedCharacter c, text.length - rest.length⟩ := by
  obtain ⟨hlead, hblanks⟩ := List.forall_mem_append.1 hblanks
  have hlength := congrArg List.length htext
  simp only [List.length_append, String.length_toList] at hlength
  have hcolumn : 1 + lead.length + (source.toList ++ trail).length - (rest.length + 1) =
      text.length - rest.length := by
    simp only [List.length_append, String.length_toList]
    omega
  have hmoved : placedFrom (1 + lead.length) (cut source.toList) =
      .ok (ts.map (·.mapColumn (· + lead.length))) := by
    rw [tokenize] at h
    rw [placedFrom_add, h]
    rfl
  rw [tokenize_lead htext hlead, placedFrom_append_fault htrail hexposed hblanks hblank hmoved,
    hcolumn]

/-- The tree, or the fault of the parser, with its columns moved. -/
theorem parseWithin_padded (htext : text.toList = lead ++ source.toList ++ trail)
    (hlead : ∀ c ∈ lead, isBlank c) (htrail : ∀ c ∈ trail, isPrinted c = false)
    (hexposed : ∀ c ∈ exposed source.toList trail, isBlank c) (limit : Nat) :
    let σ := paddedColumn source.length lead.length trail.length
    parseWithin text limit =
      ((parseWithin source limit).map (·.mapColumns σ)).mapError (·.mapColumn σ) := by
  intro σ
  have hend : text.length + 1 = σ (source.length + 1) := by
    have hlength := congrArg List.length htext
    simp only [List.length_append, String.length_toList] at hlength
    show _ = paddedColumn _ _ _ _
    rw [paddedColumn, if_neg (by omega)]
    omega
  have htokens := tokenize_padded htext hlead htrail hexposed
  dsimp only at htokens
  rw [parseWithin, parseWithin, htokens, hend]
  cases tokenize source with
  | error e => rfl
  | ok ts => exact parseAll_mapColumns σ ts _ limit

/-- The value, or the error with its column moved. -/
theorem Evaluator.calculate_padded (ev : Evaluator)
    (htext : text.toList = lead ++ source.toList ++ trail) (hlead : ∀ c ∈ lead, isBlank c)
    (htrail : ∀ c ∈ trail, isPrinted c = false)
    (hexposed : ∀ c ∈ exposed source.toList trail, isBlank c) (limit : Nat) :
    ev.calculate limit text = (ev.calculate limit source).mapError
      (·.mapColumn (paddedColumn source.length lead.length trail.length)) :=
  ev.calculate_mapColumns (parseWithin_padded htext hlead htrail hexposed limit)

end

end Calculator
