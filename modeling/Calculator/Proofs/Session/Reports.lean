import Calculator.Proofs.Evaluation.Admission
import Calculator.Proofs.Evaluation.Deepest
import Calculator.Proofs.Session.OneLine
import Calculator.Proofs.Session.Sources

/-!
# What a run reports

A run writes its errors one after another, each on a line of its own. No run reports a tree that is
too deep to evaluate, since the limit of its evaluator follows the limit of its parser.

* `Transcript.Reports`: the errors of a transcript, line by line.
* `Transcript.reports_errorLine_append`: each line says something of its own.
* `reports_answer`, `reports_converse`, `reports_execute`: what answers, sessions and runs report.
* `admits_parsed`: what parses can be evaluated, in all the ways in which a source is evaluated, and
  no smaller limit would do.
-/

namespace Calculator

/-- The line of an error message. -/
def errorLine (message : String) : String := "Error: " ++ message ++ "\n"

/-- The errors of a transcript are lines, each with a message of one line that satisfies `P`. -/
def Transcript.Reports (P : String → Prop) (t : Transcript) : Prop :=
  ∃ messages : List String, t.errors = String.join (messages.map errorLine) ∧
    ∀ m ∈ messages, OneLine m ∧ P m

namespace Transcript

variable {P : String → Prop} {s t : Transcript} {message : String}

namespace Reports

/-- What is written to standard output reports nothing. -/
theorem output (text : String) : Transcript.Reports P { output := text } :=
  ⟨[], rfl, fun _ hm => (List.not_mem_nil hm).elim⟩

theorem append (hs : s.Reports P) (ht : t.Reports P) : (s ++ t).Reports P := by
  obtain ⟨ms, hms, hs⟩ := hs
  obtain ⟨mt, hmt, ht⟩ := ht
  refine ⟨ms ++ mt, ?_, fun m hm => ?_⟩
  · change s.errors ++ t.errors = _
    rw [hms, hmt, List.map_append, String.join_append]
  · rcases List.mem_append.1 hm with hm | hm
    · exact hs m hm
    · exact ht m hm

theorem error (hline : OneLine message) (h : P message) :
    (Transcript.error message).Reports P := by
  refine ⟨[message], ?_, fun m hm => ?_⟩
  · simp [Transcript.error, errorLine]
  · rw [List.mem_singleton.1 hm]
    exact ⟨hline, h⟩

end Reports

/-- Texts without line feeds end at the first line feed. -/
theorem append_lineFeed_inj {as bs x y : List Char} (has : '\n' ∉ as) (hbs : '\n' ∉ bs)
    (h : as ++ '\n' :: x = bs ++ '\n' :: y) : as = bs ∧ x = y := by
  have hrun : ∀ {cs : List Char}, '\n' ∉ cs → ∀ c ∈ cs, decide (c ≠ '\n') :=
    fun hcs c hc => decide_eq_true fun heq => hcs (heq ▸ hc)
  have hend : ∀ {z : List Char}, ∀ c ∈ ('\n' :: z).head?, decide (c ≠ '\n') = false := by
    rintro z _ ⟨⟩
    rfl
  obtain ⟨rfl, hrest⟩ := Lexeme.run_unique (hrun has) hend (hrun hbs) hend h
  exact ⟨rfl, (List.cons.inj hrest).2⟩

theorem toList_errorLine_append (message rest : String) :
    (errorLine message ++ rest).toList =
      "Error: ".toList ++ (message.toList ++ '\n' :: rest.toList) := by
  simp [errorLine, String.toList_append]

/-- The first line of the errors has a message that satisfies `P`, and so have the others. -/
theorem reports_errorLine_append {output rest : String} (hline : OneLine message) :
    Transcript.Reports P ⟨output, errorLine message ++ rest⟩ ↔
      P message ∧ Transcript.Reports P ⟨output, rest⟩ := by
  constructor
  · rintro ⟨messages, herrors, hmessages⟩
    have herrors : errorLine message ++ rest = String.join (messages.map errorLine) := herrors
    have hchars := congrArg String.toList herrors
    rw [toList_errorLine_append] at hchars
    cases messages with
    | nil => simp at hchars
    | cons m messages =>
      obtain ⟨⟨hm, hP⟩, hlater⟩ := List.forall_mem_cons.1 hmessages
      rw [List.map_cons, String.join_cons, toList_errorLine_append] at hchars
      -- Neither message has a line feed, so they end at the same one.
      obtain ⟨hfirst, hrest⟩ := append_lineFeed_inj hline hm (List.append_cancel_left hchars)
      obtain rfl := String.toList_inj.1 hfirst
      exact ⟨hP, messages, String.toList_inj.1 hrest, hlater⟩
  · rintro ⟨hP, messages, herrors, hmessages⟩
    refine ⟨message :: messages, ?_, List.forall_mem_cons.2 ⟨⟨hline, hP⟩, hmessages⟩⟩
    have herrors : rest = String.join (messages.map errorLine) := herrors
    rw [List.map_cons, String.join_cons, ← herrors]

end Transcript

/-- Not the message of a tree that is too deep to evaluate. -/
def OtherThanTooDeep (message : String) : Prop :=
  ∀ n, message ≠ (EvalError.nestingTooDeep n).message

/-- A second line does not hide what the first says. -/
example (n : Nat) (rest : String) : ¬Transcript.Reports OtherThanTooDeep
    ⟨"", errorLine (EvalError.nestingTooDeep n).message ++ rest⟩ := fun h =>
  ((Transcript.reports_errorLine_append (EvalError.message_oneLine _)).1 h).1 n rfl

theorem StaysOpen.otherThanTooDeep {message : String} (h : StaysOpen message) :
    OtherThanTooDeep message :=
  fun n hn => EvalError.message_nestingTooDeep_closes n (hn ▸ h)

theorem Starts.otherThanTooDeep {c : Char} {message : String} (h : Starts c message)
    (hc : c ≠ 'e') : OtherThanTooDeep message := by
  rintro n rfl
  exact hc (Option.some.inj (h.symm.trans (EvalError.message_nestingTooDeep_starts n)))

/-! ## Answers, sessions and runs -/

/-- No answer says that a tree is too deep. -/
theorem reports_answer {settings : Settings} {source : String}
    (hs : source.length ≤ greatestLimit) :
    (answer settings source).1.Reports OtherThanTooDeep := by
  unfold answer
  cases hp : parseWithin source settings.limit with
  | error e =>
    exact .error (parseWithin_message_oneLine hp) e.message_staysOpen.otherThanTooDeep
  | ok tree =>
    cases he : (Evaluator.forNesting settings.limit).value tree with
    | ok x =>
      dsimp only
      rw [he]
      exact (Transcript.Reports.output _).append (.output _)
    | error err =>
      have herr : OtherThanTooDeep err.message := by
        intro n hn
        obtain ⟨m, rfl⟩ := EvalError.eq_nestingTooDeep_of_message hn
        exact Evaluator.value_ne_nestingTooDeep (depth_le_forNesting hp hs) he
      dsimp only
      rw [he]
      exact (Transcript.Reports.output _).append (.error err.message_oneLine herr)

/-- No session says that a tree is too deep. -/
theorem reports_converse {settings : Settings} {lines : List (List UInt8)}
    (h : ∀ line ∈ lines, line.length ≤ greatestLimit) :
    (converse settings lines).Reports OtherThanTooDeep := by
  induction lines with
  | nil => exact .output ""
  | cons line lines ih =>
    have hlines := ih fun l hl => h l (List.mem_cons_of_mem _ hl)
    unfold converse
    split
    · have hc : Starts 'c' unreadableMessage := by decide
      exact .error (by decide) (hc.otherThanTooDeep (by decide))
    · next text htext =>
      split
      · exact .output ""
      · exact hlines
      · next source hsource =>
        have hs : source.length ≤ greatestLimit :=
          Nat.le_trans (length_le_of_ofText_eq hsource)
            (Nat.le_trans (length_decodeLine_le htext) (h line List.mem_cons_self))
        exact (reports_answer hs).append hlines

/-- No run says that a tree is too deep: no line that it writes of what it evaluates does, and
neither does the message about arguments that it cannot follow, which may go over several lines. -/
theorem reports_execute {arguments : List String} {input : List UInt8}
    (hargs : (" ".intercalate arguments).length ≤ greatestLimit)
    (hinput : input.length ≤ greatestLimit) :
    (execute arguments input).transcript.Reports OtherThanTooDeep ∨
      ∃ reason, Request.ofArguments arguments = .misuse reason ∧
        (execute arguments input).transcript = .error reason ∧ OtherThanTooDeep reason := by
  have hf : (Request.ofArguments arguments).Follows arguments :=
    Request.ofRest_follows {} false arguments
  unfold execute
  cases hr : Request.ofArguments arguments with
  | version | usage => exact .inl (.output _)
  | misuse reason =>
    rw [hr] at hf
    have hstarts : Starts '-' reason := hf
    exact .inr ⟨reason, rfl, rfl, hstarts.otherThanTooDeep (by decide)⟩
  | evaluate settings source =>
    exact .inl (reports_answer (Nat.le_trans (length_le_of_ofArguments_eq hr) hargs))
  | session settings =>
    exact .inl (reports_converse fun line hl =>
      Nat.le_trans (length_le_of_mem_inputLines hl) hinput)

/-- Whatever is shorter than `2^63` bytes has fewer characters than the greatest limit. -/
theorem length_le_greatestLimit {text : String} (h : text.utf8ByteSize < 2 ^ 63) :
    text.length ≤ greatestLimit := by
  have := length_le_utf8ByteSize text
  unfold greatestLimit
  omega

/-- **What parses can be evaluated.** A tree that parses under a limit on nesting is not too deep
for an evaluator whose limit is at least twice that limit and three, nor for the evaluator for that
nesting, and calculations never report a tree that is too deep. Neither do runs: each line of their
errors has another message, unless the arguments cannot be followed; then nothing is evaluated, and
the reason why not, which is another message too, is all that is written. With a limit one lower
there would be such trees for every limit on nesting. -/
theorem admits_parsed :
    (∀ source limit tree, source.utf8ByteSize < 2 ^ 63 → parseWithin source limit = .ok tree →
      (∀ ev : Evaluator, 2 * limit + 3 ≤ ev.limit →
        ∀ n, ev.value tree ≠ .error (.nestingTooDeep n)) ∧
      ∀ n, (Evaluator.forNesting limit).value tree ≠ .error (.nestingTooDeep n)) ∧
    (∀ source n, calculate source ≠ .error (.eval (.nestingTooDeep n))) ∧
    (∀ arguments input, (" ".intercalate arguments).utf8ByteSize < 2 ^ 63 →
      input.length < 2 ^ 63 → (execute arguments input).transcript.Reports OtherThanTooDeep ∨
        ∃ reason, Request.ofArguments arguments = .misuse reason ∧
          (execute arguments input).transcript = .error reason ∧ OtherThanTooDeep reason) ∧
    ∀ p, ∃ tree, parseWithin (nestedSums p) p = .ok tree ∧
      ∀ ev : Evaluator, ev.limit = 2 * p + 2 →
        ev.value tree = .error (.nestingTooDeep ev.limit) := by
  refine ⟨fun source limit tree hs hp => ⟨fun ev hev n => ?_, fun n => ?_⟩,
    calculate_ne_nestingTooDeep, fun arguments input hargs hinput => ?_, fun p => ?_⟩
  · exact Evaluator.value_ne_nestingTooDeep (Nat.le_trans (depth_le_of_parseWithin hp) hev)
  · exact Evaluator.value_ne_nestingTooDeep
      (depth_le_forNesting hp (length_le_greatestLimit hs))
  · have hlimit : 2 ^ 63 ≤ greatestLimit := by decide
    exact reports_execute (length_le_greatestLimit hargs)
      (Nat.le_trans (Nat.le_of_lt hinput) hlimit)
  · exact ⟨_, parseWithin_nestedSums p, fun ev hev => value_nestedSums hev⟩

/-- One group is admitted under the limit five, and by the evaluator for one nesting level. -/
theorem admits_one_group :
    (∀ n, (Evaluator.standard.withLimit 5).value (Phrase.nestedSums 1 1).tree ≠
      .error (.nestingTooDeep n)) ∧
    ∀ n, (Evaluator.forNesting 1).value (Phrase.nestedSums 1 1).tree ≠
      .error (.nestingTooDeep n) := by
  obtain ⟨hev, hnesting⟩ := admits_parsed.1 (nestedSums 1) 1 (Phrase.nestedSums 1 1).tree
    (by decide) (parseWithin_nestedSums 1)
  exact ⟨hev (Evaluator.standard.withLimit 5) (by decide), hnesting⟩

end Calculator
