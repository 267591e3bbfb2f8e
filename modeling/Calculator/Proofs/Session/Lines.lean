import Calculator.Proofs.Digits
import Calculator.Session.CommandLine

/-!
# Sessions, line by line

A session over standard input writes what its lines write one by one, up to the first line that ends
it. Lines have no effect on one another, and no line makes the program fail.

* `splitLines`: the lines of input, by the line feeds that separate them.
* `endsSession`, `stopTranscript`: the lines that end a session, and what they write.
* `reply`: what the other lines get.
* `inputLines_eq`, `inputLines_append`: the lines that are read, and those of one input after
  another.
* `converse_eq`, `converse_append`: the transcript of lines, and that of lines after others.
* `execute_session`: what a run over standard input writes.
-/

namespace Calculator

/-! ## Lines of input -/

/-- A line without a carriage return at its end. -/
def withoutReturn (line : List UInt8) : List UInt8 :=
  if line.getLast? = some carriageReturn then line.dropLast else line

/-- The lines of input: line feeds end them, and one carriage return before a line feed belongs to
the end; what stands after the last line feed is a line if it is not empty. -/
def splitLines (bytes : List UInt8) : List (List UInt8) :=
  let pieces := bytes.splitOn lineFeed
  pieces.dropLast.map withoutReturn ++ pieces.getLast?.toList.filter (!·.isEmpty)

section

variable {begun line : List UInt8}

theorem beq_lineFeed (h : lineFeed ∉ line) : ∀ b ∈ line, (b == lineFeed) = false := by
  intro b hb
  refine beq_false_of_ne ?_
  rintro rfl
  exact h hb

theorem splitLines_of_not_mem (h : lineFeed ∉ line) :
    splitLines line = if line.isEmpty then [] else [line] := by
  have hpieces : line.splitOn lineFeed = [line] :=
    List.splitOnP_eq_singleton (beq_lineFeed h)
  rw [splitLines, hpieces]
  cases line <;> rfl

theorem splitLines_append_cons (h : lineFeed ∉ line) (bytes : List UInt8) :
    splitLines (line ++ lineFeed :: bytes) = withoutReturn line :: splitLines bytes := by
  have hpieces : (line ++ lineFeed :: bytes).splitOn lineFeed = line :: bytes.splitOn lineFeed :=
    List.splitOnP_append_cons_of_forall_mem (beq_lineFeed h) _ (beq_self_eq_true _) _
  have hne : bytes.splitOn lineFeed ≠ [] := List.splitOnP_ne_nil _ _
  obtain ⟨piece, pieces, hcons⟩ := List.exists_cons_of_ne_nil hne
  rw [splitLines, splitLines, hpieces, hcons]
  rfl

theorem endedLine_eq (begun : List UInt8) : endedLine begun = withoutReturn begun.reverse := by
  cases begun with
  | nil => rfl
  | cons b bs =>
    rw [endedLine, withoutReturn, List.getLast?_reverse, List.dropLast_reverse]
    simp only [List.head?_cons, Option.some.injEq, List.tail_cons]

theorem inputLinesFrom_eq (h : lineFeed ∉ begun) (bytes : List UInt8) :
    inputLinesFrom begun bytes = splitLines (begun.reverse ++ bytes) := by
  have hreverse : ∀ {begun : List UInt8}, lineFeed ∉ begun → lineFeed ∉ begun.reverse :=
    fun h hmem => h (List.mem_reverse.1 hmem)
  induction bytes generalizing begun with
  | nil =>
    rw [inputLinesFrom, List.append_nil, splitLines_of_not_mem (hreverse h)]
    cases begun <;> simp
  | cons b bytes ih =>
    unfold inputLinesFrom
    split
    · next hb =>
      rw [hb, splitLines_append_cons (hreverse h), endedLine_eq, ih List.not_mem_nil]
      rfl
    · next hb =>
      have hbegun : lineFeed ∉ b :: begun := by
        rintro (_ | ⟨_, hmem⟩)
        · exact hb rfl
        · exact h hmem
      rw [ih hbegun, List.reverse_cons, List.append_assoc]
      rfl

/-- The lines that are read are those that line feeds separate. -/
theorem inputLines_eq (bytes : List UInt8) : inputLines bytes = splitLines bytes :=
  inputLinesFrom_eq List.not_mem_nil bytes

/-- A line that ends with both characters is read as it is. -/
theorem inputLines_line (h : lineFeed ∉ line) :
    inputLines (line ++ [carriageReturn, lineFeed]) = [line] := by
  have hreturn : lineFeed ∉ line ++ [carriageReturn] := by
    simpa [lineFeed, carriageReturn] using h
  have hsplit : line ++ [carriageReturn, lineFeed] = (line ++ [carriageReturn]) ++ [lineFeed] := by
    simp
  rw [inputLines_eq, hsplit, splitLines_append_cons hreturn, withoutReturn,
    List.getLast?_concat, if_pos rfl, List.dropLast_concat]
  rfl

theorem not_mem_of_mem_inputLinesFrom {bytes : List UInt8} (hbegun : lineFeed ∉ begun)
    (h : line ∈ inputLinesFrom begun bytes) : lineFeed ∉ line := by
  induction bytes generalizing begun with
  | nil =>
    unfold inputLinesFrom at h
    split at h
    · cases h
    · rw [List.mem_singleton.1 h, List.mem_reverse]
      exact hbegun
  | cons b bytes ih =>
    unfold inputLinesFrom at h
    split at h
    · rcases List.mem_cons.1 h with rfl | h
      · rw [endedLine_eq, withoutReturn]
        split
        · exact fun hmem => hbegun (List.mem_reverse.1 (List.dropLast_subset _ hmem))
        · rwa [List.mem_reverse]
      · exact ih List.not_mem_nil h
    · next hb =>
      refine ih ?_ h
      rintro (_ | ⟨_, hmem⟩)
      · exact hb rfl
      · exact hbegun hmem

/-- No line holds a line feed. -/
theorem not_mem_of_mem_splitLines {bytes : List UInt8} (h : line ∈ splitLines bytes) :
    lineFeed ∉ line := by
  rw [← inputLines_eq] at h
  exact not_mem_of_mem_inputLinesFrom List.not_mem_nil h

theorem inputLinesFrom_append (begun a b : List UInt8) :
    inputLinesFrom begun (a ++ [lineFeed] ++ b) =
      inputLinesFrom begun (a ++ [lineFeed]) ++ inputLinesFrom [] b := by
  induction a generalizing begun with
  | nil => rfl
  | cons c a ih =>
    simp only [List.cons_append, inputLinesFrom]
    split
    · rw [ih]
      rfl
    · exact ih _

/-- Input that ends with its last line may be read apart from the rest. -/
theorem inputLines_append (a b : List UInt8) :
    inputLines (a ++ [lineFeed] ++ b) = inputLines (a ++ [lineFeed]) ++ inputLines b :=
  inputLinesFrom_append [] a b

end

/-! ## Transcripts of lines -/

namespace Transcript

/-- Transcripts one after another. -/
def join (ts : List Transcript) : Transcript :=
  ⟨String.join (ts.map (·.output)), String.join (ts.map (·.errors))⟩

theorem append_assoc (s t u : Transcript) : s ++ t ++ u = s ++ (t ++ u) := by
  change mk (s.output ++ t.output ++ u.output) (s.errors ++ t.errors ++ u.errors) = _
  rw [String.append_assoc, String.append_assoc]
  rfl

theorem empty_append (t : Transcript) : ({} : Transcript) ++ t = t :=
  congr (congrArg mk String.empty_append) String.empty_append

theorem append_empty (t : Transcript) : t ++ ({} : Transcript) = t :=
  congr (congrArg mk String.append_empty) String.append_empty

theorem join_cons (t : Transcript) (ts : List Transcript) : join (t :: ts) = t ++ join ts :=
  congr (congrArg mk String.join_cons) String.join_cons

end Transcript

/-- A line that ends a session: it is not UTF-8, or it is one of two words, in any case, between
white space. -/
def endsSession (line : List UInt8) : Bool :=
  match decodeLine? line with
  | none => true
  | some text => foldCase (trim text) = "quit" ∨ foldCase (trim text) = "exit"

/-- What a line of text gets: nothing if it is blank, and else the answer to its expression. -/
def reply (settings : Settings) (text : String) : Transcript :=
  if (trim text).isEmpty then {} else (answer settings (trim text)).1

/-- What the line writes that ends a session over lines, if there is one: that it could not be read,
or nothing. -/
def stopTranscript (lines : List (List UInt8)) : Transcript :=
  match lines.find? endsSession with
  | some line => if (decodeLine? line).isNone then .error unreadableMessage else {}
  | none => {}

section

variable {settings : Settings} {line : List UInt8} {lines lines' : List (List UInt8)}

theorem ofText_eq_quit_iff {text : String} :
    Line.ofText text = .quit ↔ foldCase (trim text) = "quit" ∨ foldCase (trim text) = "exit" := by
  unfold Line.ofText
  dsimp only
  split
  · next hempty =>
    rw [String.isEmpty_iff.1 hempty]
    exact iff_of_false nofun (by decide)
  · split
    · next hquit => exact iff_of_true rfl hquit
    · next hquit => exact iff_of_false nofun hquit

/-- Nothing is read after the line that ends a session. -/
theorem converse_cons_of_endsSession (h : endsSession line) :
    converse settings (line :: lines) = stopTranscript (line :: lines) := by
  rw [stopTranscript, List.find?_cons_of_pos h, converse]
  unfold endsSession at h
  dsimp only
  cases hline : decodeLine? line with
  | none => rfl
  | some text =>
    rw [hline] at h
    dsimp only
    rw [ofText_eq_quit_iff.2 (of_decide_eq_true h)]
    rfl

/-- Another line gets its reply, and then come the others. -/
theorem converse_cons_of_decodes {text : String} (hline : decodeLine? line = some text)
    (h : endsSession line = false) :
    converse settings (line :: lines) = reply settings text ++ converse settings lines := by
  have hquit : Line.ofText text ≠ .quit := by
    rw [endsSession, hline] at h
    exact fun hq => of_decide_eq_false h (ofText_eq_quit_iff.1 hq)
  rw [converse, hline]
  dsimp only
  unfold Line.ofText at hquit ⊢
  dsimp only at hquit ⊢
  unfold reply
  by_cases hempty : (trim text).isEmpty
  · rw [if_pos hempty, if_pos hempty]
    exact (Transcript.empty_append _).symm
  · rw [if_neg hempty] at hquit ⊢
    rw [if_neg hempty]
    split at hquit
    · exact absurd rfl hquit
    · next hword => rw [if_neg hword]

/-- Another line writes what it writes alone, and then come the others. -/
theorem converse_cons (h : endsSession line = false) :
    converse settings (line :: lines) = converse settings [line] ++ converse settings lines := by
  obtain ⟨text, hline⟩ : ∃ text, decodeLine? line = some text := by
    cases hline : decodeLine? line with
    | none => rw [endsSession, hline] at h; cases h
    | some text => exact ⟨text, rfl⟩
  have halone : converse settings [line] = reply settings text ++ {} :=
    converse_cons_of_decodes hline h
  rw [converse_cons_of_decodes hline h, halone, Transcript.append_empty]

/-- A session writes what its lines write one by one, up to the first that ends it. -/
theorem converse_eq (settings : Settings) (lines : List (List UInt8)) :
    converse settings lines =
      Transcript.join ((lines.takeWhile (!endsSession ·)).map fun line => converse settings [line]) ++
        stopTranscript lines := by
  induction lines with
  | nil => rfl
  | cons line lines ih =>
    by_cases h : endsSession line
    · rw [converse_cons_of_endsSession h, List.takeWhile_cons_of_neg (by simpa using h)]
      exact (Transcript.empty_append _).symm
    · rw [Bool.not_eq_true] at h
      have hstop : stopTranscript (line :: lines) = stopTranscript lines := by
        rw [stopTranscript, List.find?_cons_of_neg (by simp [h]), stopTranscript]
      rw [converse_cons h, ih, List.takeWhile_cons_of_pos (by simpa using h), List.map_cons,
        Transcript.join_cons, Transcript.append_assoc, hstop]

/-- Lines of which none ends the session have no effect on those after them. -/
theorem converse_append (h : ∀ line ∈ lines, endsSession line = false) :
    converse settings (lines ++ lines') = converse settings lines ++ converse settings lines' := by
  induction lines with
  | nil => exact (Transcript.empty_append _).symm
  | cons line lines ih =>
    have hline := h line List.mem_cons_self
    have hlines := ih fun line hl => h line (List.mem_cons_of_mem _ hl)
    have hfirst : converse settings (line :: lines) =
        converse settings [line] ++ converse settings lines := converse_cons hline
    rw [List.cons_append, converse_cons hline, hlines, hfirst, Transcript.append_assoc]

end

/-! ## Runs -/

/-- The options that ask for a session with the settings. -/
def Settings.options (settings : Settings) : List String :=
  [Request.limitOption, naturalText settings.limit] ++
    if settings.showOutline then ["--debug-parse"] else []

theorem readLimit?_naturalText {n : Nat} (h : n ≤ greatestLimit) :
    readLimit? (naturalText n) = some n := by
  have hall : (decimalDigits n).all (isDigitOf 10) :=
    List.all_eq_true.2 fun c hc => isDigitOf_ten (isDigit_of_mem_decimalDigits hc)
  have hvalue := numeralValue_decimalDigits n
  obtain ⟨c, cs, hcs⟩ := List.exists_cons_of_ne_nil (decimalDigits_ne_nil n)
  have hplus : c ≠ '+' := by
    rintro rfl
    rw [hcs] at hall
    cases hall
  unfold readLimit?
  rw [toList_naturalText]
  rw [hcs] at hall hvalue ⊢
  split
  · next heq => exact absurd (List.cons.inj heq).1 hplus
  · simp [hall, hvalue, h]

/-- Options of more than one letter are no short flags. -/
theorem Request.shortFlag?_limit : Request.shortFlag? "--max-depth" = none := by decide

theorem Request.shortFlag?_outline : Request.shortFlag? "--debug-parse" = none := by decide

theorem ofArguments_options {settings : Settings} (h : settings.limit ≤ greatestLimit) :
    Request.ofArguments settings.options = .session settings := by
  obtain ⟨limit, showOutline⟩ := settings
  have hlimit : Request.withLimit {} false (naturalText limit) = .ok { limit := limit } := by
    rw [Request.withLimit, readLimit?_naturalText h]
    rfl
  cases showOutline <;>
    simp [Settings.options, Request.ofArguments, Request.ofRest, Request.limitOption,
      Request.shortFlag?_limit, Request.shortFlag?_outline, hlimit]

theorem execute_of_session {arguments : List String} {settings : Settings}
    (h : Request.ofArguments arguments = .session settings) (input : List UInt8) :
    execute arguments input = ⟨converse settings (inputLines input), 0⟩ := by
  rw [execute, h]
  rfl

/-- **Sessions go line by line.** Every setting can be asked for. Whatever the settings and the input
are, a run over standard input has the exit status zero, and writes to both streams what each line
would write as the only line of a run, in order, up to the first line that ends the session. That
line adds the message for input that is not UTF-8 if it is not, and nothing otherwise; every other
line alone gets its reply, whether it has a value or fails. So input whose lines are all ended, and
none of which ends the session, has no effect on what comes after it. -/
theorem execute_session :
    (∀ settings : Settings, settings.limit ≤ greatestLimit →
      Request.ofArguments settings.options = .session settings) ∧
    ∀ arguments settings, Request.ofArguments arguments = .session settings →
      (∀ input,
        execute arguments input =
          ⟨Transcript.join (((splitLines input).takeWhile (!endsSession ·)).map fun line =>
              (execute arguments (line ++ [carriageReturn, lineFeed])).transcript) ++
            stopTranscript (splitLines input), 0⟩) ∧
      (∀ line text, lineFeed ∉ line → decodeLine? line = some text → endsSession line = false →
        (execute arguments (line ++ [carriageReturn, lineFeed])).transcript =
          reply settings text) ∧
      ∀ a b, (∀ line ∈ splitLines (a ++ [lineFeed]), endsSession line = false) →
        (execute arguments (a ++ [lineFeed] ++ b)).transcript =
          (execute arguments (a ++ [lineFeed])).transcript ++ (execute arguments b).transcript := by
  refine ⟨fun settings => ofArguments_options, fun arguments settings h => ⟨fun input => ?_,
    fun line text hfeed hline hread => ?_, fun a b hlines => ?_⟩⟩
  · have halone : ∀ line ∈ (splitLines input).takeWhile (!endsSession ·),
        (execute arguments (line ++ [carriageReturn, lineFeed])).transcript =
          converse settings [line] := by
      intro line hl
      rw [execute_of_session h,
        inputLines_line (not_mem_of_mem_splitLines (List.takeWhile_subset _ hl))]
    rw [execute_of_session h, inputLines_eq, converse_eq, List.map_congr_left halone]
  · rw [execute_of_session h, inputLines_line hfeed]
    dsimp only
    rw [converse_cons_of_decodes hline hread]
    exact Transcript.append_empty _
  · simp only [execute_of_session h]
    rw [inputLines_append, converse_append (by rwa [inputLines_eq])]

/-- An expression, an empty line and a division by zero before `Quit`; and an expression before a
line that is not UTF-8. -/
theorem execute_session_two_stops :
    (execute ["--max-depth=3"]
        [49, 43, 50, 13, 10, 10, 50, 47, 48, 10, 32, 81, 117, 105, 116, 10, 52]).transcript =
      ⟨"3\n", "Error: division by zero (at column 2)\n"⟩ ∧
    (execute ["--max-depth=3"] ([55, 13] ++ [lineFeed] ++ [255, 10, 53])).transcript =
      ⟨"7\n", "Error: could not read stdin: stream did not contain valid UTF-8\n"⟩ := by
  have harguments : Request.ofArguments ["--max-depth=3"] = .session { limit := 3 } := by
    decide +kernel
  obtain ⟨hlines, -, happend⟩ := execute_session.2 _ _ harguments
  have hread : ∀ line ∈ splitLines ([55, 13] ++ [lineFeed]), endsSession line = false := by
    decide +kernel
  constructor
  · rw [hlines]
    decide +kernel
  · rw [happend _ _ hread]
    decide +kernel

end Calculator
