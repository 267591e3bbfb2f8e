import Calculator.Proofs.Padding
import Calculator.Proofs.Session.Lines
import Calculator.Proofs.Session.Sources

/-!
# One expression, as an argument or on a line

An expression on a line of standard input gets what it gets as an argument, once the white space
around it is taken off. Blanks could stay: they move the columns of errors and change nothing else.
Other white space could not, unless a comment hides it, since no token starts with it.

* `textBytes`: the bytes of a text, and of a line that holds it.
* `exists_trimChars`: a text is what is left of it between white space.
* `isPrinted_of_isWhiteSpace`: white space is not printed.
* `execute_oneShot`, `execute_piped`: what an expression gets as an argument and on a line.
* `execute_line`: the two ways to give an expression.
-/

namespace Calculator

open Lexeme

/-! ## Bytes of texts -/

/-- The bytes of a text in UTF-8. -/
def textBytes (text : String) : List UInt8 := text.toByteArray.data.toList

section

variable {text : String} {c : Char} {cs : List Char} {b : UInt8}

theorem textBytes_ofList (cs : List Char) :
    textBytes (.ofList cs) = cs.flatMap String.utf8EncodeChar := by
  rw [textBytes, String.toByteArray_ofList, List.utf8Encode, List.data_toByteArray]

theorem decodeLine?_textBytes (text : String) : decodeLine? (textBytes text) = some text := by
  have hbytes : (⟨(textBytes text).toArray⟩ : ByteArray) = text.toByteArray := by
    rw [textBytes, Array.toArray_toList]
  rw [decodeLine?, hbytes, String.fromUTF8?, dif_pos text.isValidUTF8]
  rfl

/-- A byte of ASCII stands for the character with its code only. -/
theorem toNat_eq_of_mem_utf8EncodeChar (hb : b.toNat < 128) (h : b ∈ String.utf8EncodeChar c) :
    c.toNat = b.toNat := by
  have hne : ∀ n, b = UInt8.ofNat n → 128 ≤ n → n < 256 → c.toNat = b.toNat := by
    rintro n rfl hle hlt
    rw [UInt8.toNat_ofNat', Nat.mod_eq_of_lt hlt] at hb
    omega
  rw [String.utf8EncodeChar] at h
  split at h
  · next hle =>
    obtain rfl := List.mem_singleton.1 h
    rw [UInt8.toNat_ofNat', Nat.mod_eq_of_lt (by omega)]
    rfl
  split at h
  · simp only [List.mem_cons, List.not_mem_nil, or_false] at h
    rcases h with h | h <;> exact hne _ h (by omega) (by omega)
  split at h
  · simp only [List.mem_cons, List.not_mem_nil, or_false] at h
    rcases h with h | h | h <;> exact hne _ h (by omega) (by omega)
  · simp only [List.mem_cons, List.not_mem_nil, or_false] at h
    rcases h with h | h | h | h <;> exact hne _ h (by omega) (by omega)

theorem lineFeed_not_mem_textBytes (h : '\n' ∉ text.toList) : lineFeed ∉ textBytes text := by
  rw [← String.ofList_toList (s := text), textBytes_ofList]
  intro hmem
  obtain ⟨c, hc, hb⟩ := List.mem_flatMap.1 hmem
  have hcode := toNat_eq_of_mem_utf8EncodeChar (by decide) hb
  have hfeed : c = '\n' := by rw [← Char.ofNat_toNat c, hcode]; rfl
  exact h (hfeed ▸ hc)

/-! ## Trimmed texts -/

/-- White space at the end is trimmed. -/
theorem trimChars_concat (hc : isWhiteSpace c) : trimChars (cs ++ [c]) = trimChars cs := by
  unfold trimChars
  rw [List.dropWhile_append]
  split
  · next hempty =>
    rw [List.isEmpty_iff.1 hempty]
    simp [hc]
  · rw [List.reverse_append, List.reverse_singleton, List.singleton_append,
      List.dropWhile_cons_of_pos hc]

/-- A text is what is left when it is trimmed, between white space. -/
theorem exists_trimChars (cs : List Char) : ∃ lead trail, cs = lead ++ trimChars cs ++ trail ∧
    ∀ c ∈ lead ++ trail, isWhiteSpace c := by
  have hsplit := List.takeWhile_append_dropWhile (p := isWhiteSpace) (l := cs)
  generalize hrest : cs.dropWhile isWhiteSpace = rest at hsplit
  have hend := List.takeWhile_append_dropWhile (p := isWhiteSpace) (l := rest.reverse)
  refine ⟨cs.takeWhile isWhiteSpace, (rest.reverse.takeWhile isWhiteSpace).reverse, ?_, ?_⟩
  · rw [trimChars, hrest, List.append_assoc, ← List.reverse_append, hend, List.reverse_reverse,
      hsplit]
  · refine List.forall_mem_append.2 ⟨List.all_eq_true.1 List.all_takeWhile, fun c hc => ?_⟩
    exact List.all_eq_true.1 List.all_takeWhile c (List.mem_reverse.1 hc)

/-- The carriage return that a line may lose is trimmed anyway. -/
theorem exists_withoutReturn (text : String) :
    ∃ text', withoutReturn (textBytes text) = textBytes text' ∧ trim text' = trim text := by
  unfold withoutReturn
  split
  · next hreturn =>
    rcases List.eq_nil_or_concat text.toList with hnil | ⟨cs, c, hcs⟩
    · rw [← String.ofList_toList (s := text), hnil] at hreturn
      cases hreturn
    · rw [List.concat_eq_append] at hcs
      obtain rfl : text = .ofList (cs ++ [c]) := by rw [← hcs, String.ofList_toList]
      rw [textBytes_ofList, List.flatMap_append, List.flatMap_singleton] at hreturn ⊢
      have hmem : carriageReturn ∈ String.utf8EncodeChar c := by
        have hne : String.utf8EncodeChar c ≠ [] := by
          rw [← List.length_pos_iff, String.length_utf8EncodeChar]
          exact c.utf8Size_pos
        rw [List.getLast?_append_of_ne_nil _ hne] at hreturn
        exact List.mem_of_getLast? hreturn
      have hcode := toNat_eq_of_mem_utf8EncodeChar (by decide) hmem
      obtain rfl : c = '\r' := by rw [← Char.ofNat_toNat c, hcode]; rfl
      refine ⟨.ofList cs, ?_, ?_⟩
      · rw [textBytes_ofList]
        exact List.dropLast_concat
      · rw [trim, trim, String.toList_ofList, String.toList_ofList, trimChars_concat (by decide)]
  · exact ⟨text, rfl, rfl⟩

/-- White space is not printed. -/
theorem isPrinted_of_isWhiteSpace (h : isWhiteSpace c) : isPrinted c = false := by
  simp [isWhiteSpace, whiteSpaceRanges] at h
  simp [isPrinted]
  omega

end

/-! ## What is written -/

/-- The transcript of a value, or of what is wrong. -/
def Transcript.ofResult : Except CalculationError Number → Transcript
  | .ok x => .value x
  | .error e => .error e.message

/-- Without an outline an expression gets its value or its error. -/
theorem answer_eq (limit : Nat) (source : String) :
    (answer { limit := limit } source).1 =
      .ofResult ((Evaluator.forNesting limit).calculate limit source) := by
  unfold answer Evaluator.calculate
  cases parseWithin source limit with
  | error e => rfl
  | ok tree =>
    show _ = Transcript.ofResult (((Evaluator.forNesting limit).value tree).mapError .eval)
    dsimp only
    cases (Evaluator.forNesting limit).value tree with
    | error e => exact Transcript.empty_append _
    | ok x => exact Transcript.empty_append _

/-- The arguments that ask for the lines of standard input. -/
def pipedArguments (limit : Nat) : List String := [Request.limitOption, naturalText limit]

/-- The arguments that ask for one expression. -/
def oneShotArguments (limit : Nat) (text : String) : List String :=
  pipedArguments limit ++ ["--", text]

section

variable {text source : String} {limit : Nat}

theorem ofArguments_oneShot (h : limit ≤ greatestLimit) (text : String) :
    Request.ofArguments (oneShotArguments limit text) = .evaluate { limit := limit } text := by
  have hlimit : Request.withLimit {} false (naturalText limit) = .ok { limit := limit } := by
    rw [Request.withLimit, readLimit?_naturalText h]
    rfl
  simp [oneShotArguments, pipedArguments, Request.ofArguments, Request.ofRest, Request.limitOption,
    Request.shortFlag?_limit, hlimit, Request.ofWords]

theorem execute_oneShot (h : limit ≤ greatestLimit) (text : String) (input : List UInt8) :
    (execute (oneShotArguments limit text) input).transcript =
      .ofResult ((Evaluator.forNesting limit).calculate limit text) := by
  rw [execute, ofArguments_oneShot h, ← answer_eq]
  rfl

/-- The line of a text without line feeds gets the value of its expression. -/
theorem execute_piped (h : limit ≤ greatestLimit) (hfeed : '\n' ∉ text.toList)
    (hline : Line.ofText text = .expression source) :
    (execute (pipedArguments limit) (textBytes text ++ [lineFeed])).transcript =
      .ofResult ((Evaluator.forNesting limit).calculate limit source) := by
  obtain ⟨text', hreturn, htrim⟩ := exists_withoutReturn text
  have hsession : Request.ofArguments (pipedArguments limit) = .session { limit := limit } :=
    @ofArguments_options { limit := limit } h
  have hlines : inputLines (textBytes text ++ [lineFeed]) = [textBytes text'] := by
    rw [inputLines_eq, splitLines_append_cons (lineFeed_not_mem_textBytes hfeed), hreturn]
    rfl
  have hline' : Line.ofText text' = .expression source := by
    rw [← hline, Line.ofText, Line.ofText, htrim]
  rw [execute_of_session hsession, hlines, converse, decodeLine?_textBytes]
  dsimp only
  rw [hline']
  dsimp only
  rw [answer_eq]
  exact Transcript.append_empty _

theorem execute_oneShot_of_tokenize_eq_error (h : limit ≤ greatestLimit) {e : ParseError}
    (htokens : tokenize text = .error e) (input : List UInt8) :
    (execute (oneShotArguments limit text) input).transcript = .error e.message := by
  rw [execute_oneShot h, Evaluator.calculate, parseWithin, htokens]
  rfl

/-- **A line gets what its expression gets as an argument.** Under every limit, a line without line
feeds that holds an expression is written the value or the error that the trimmed expression gets as
the only one. The whole text is the expression between white space, of which that after it may in
part be hidden by a comment that the expression ends in. Where the white space that is not hidden
consists of blanks, the whole text gets as an argument the same value, or the same error with its
column moved by the white space before the expression, and by that after it if it stands at its end.
Where other white space stands before the expression, the whole text is refused there. Where it
stands only after the expression, the whole text is refused at the first fault of the expression
among its characters and literals, with its column moved; or, if it has none, at the first of the
other white space that is not hidden. -/
theorem execute_line (h : limit ≤ greatestLimit) (hfeed : '\n' ∉ text.toList)
    (hline : Line.ofText text = .expression source) (input : List UInt8) :
    let oneShot := fun text => (execute (oneShotArguments limit text) input).transcript
    let result := (Evaluator.forNesting limit).calculate limit source
    (execute (pipedArguments limit) (textBytes text ++ [lineFeed])).transcript = oneShot source ∧
      oneShot source = .ofResult result ∧
      ∃ lead trail, text.toList = lead ++ source.toList ++ trail ∧
        (∀ c ∈ lead ++ trail, isWhiteSpace c) ∧
        ((∀ c ∈ lead ++ exposed source.toList trail, isBlank c) →
          oneShot text = .ofResult (result.mapError
            (·.mapColumn (paddedColumn source.length lead.length trail.length)))) ∧
        (∀ blanks c rest, lead = blanks ++ c :: rest → (∀ d ∈ blanks, isBlank d) →
          isBlank c = false →
          oneShot text =
            .error (ParseError.message ⟨.unexpectedCharacter c, blanks.length + 1⟩)) ∧
        (∀ e, tokenize source = .error e → (∀ d ∈ lead, isBlank d) →
          oneShot text = .error (e.mapColumn (· + lead.length)).message) ∧
        ∀ ts blanks c rest, tokenize source = .ok ts →
          exposed source.toList trail = blanks ++ c :: rest → (∀ d ∈ lead ++ blanks, isBlank d) →
          isBlank c = false →
          oneShot text =
            .error (ParseError.message ⟨.unexpectedCharacter c, text.length - rest.length⟩) := by
  intro oneShot result
  have hsource : oneShot source = .ofResult result := execute_oneShot h source input
  obtain ⟨lead, trail, htext, hspace⟩ := exists_trimChars text.toList
  obtain rfl := eq_trim_of_ofText_eq hline
  have htext : text.toList = lead ++ (trim text).toList ++ trail := by
    rw [trim, String.toList_ofList]
    exact htext
  have htrail : ∀ c ∈ trail, isPrinted c = false :=
    fun c hc => isPrinted_of_isWhiteSpace (hspace c (List.mem_append_right _ hc))
  refine ⟨by rw [execute_piped h hfeed hline, hsource], hsource, lead, trail, htext, hspace, ?_, ?_,
    ?_, ?_⟩
  · intro hblank
    obtain ⟨hlead, hexposed⟩ := List.forall_mem_append.1 hblank
    show (execute (oneShotArguments limit text) input).transcript = _
    rw [execute_oneShot h, Evaluator.calculate_padded _ htext hlead htrail hexposed]
  · rintro blanks c rest rfl hblanks hblank
    have hstart : text.toList = blanks ++ c :: (rest ++ (trim text).toList ++ trail) := by
      simpa using htext
    have hc : isPrinted c = false := isPrinted_of_isWhiteSpace (hspace c (by simp))
    exact execute_oneShot_of_tokenize_eq_error h
      (tokenize_not_isPrinted hstart hblanks hc hblank) input
  · intro e he hlead
    exact execute_oneShot_of_tokenize_eq_error h
      (tokenize_padded_of_error htext hlead htrail he) input
  · intro ts blanks c rest hts hexposed hblanks hblank
    exact execute_oneShot_of_tokenize_eq_error h
      (tokenize_exposed htext htrail hexposed hblanks hblank hts) input

end

/-- A division by zero after two blanks, and a number before and after a vertical tab. -/
theorem execute_line_blanks_and_tab :
    (execute (pipedArguments 200) (textBytes "  1 / 0" ++ [lineFeed])).transcript =
        (execute (oneShotArguments 200 "1 / 0") []).transcript ∧
      (∃ lead trail : List Char, "  1 / 0".toList = lead ++ "1 / 0".toList ++ trail ∧
        (execute (oneShotArguments 200 "  1 / 0") []).transcript =
          .ofResult (((Evaluator.forNesting 200).calculate 200 "1 / 0").mapError
            (·.mapColumn (paddedColumn 5 lead.length trail.length)))) ∧
      (execute (pipedArguments 0) (textBytes "\x0b7" ++ [lineFeed])).transcript =
        (execute (oneShotArguments 0 "7") []).transcript ∧
      (execute (oneShotArguments 0 "\x0b7") []).transcript =
        .error (ParseError.message ⟨.unexpectedCharacter '\x0b', 1⟩) ∧
      (execute (oneShotArguments 0 "7 \x0b") []).transcript =
        .error (ParseError.message ⟨.unexpectedCharacter '\x0b', 3⟩) := by
  have hlimit : 200 ≤ greatestLimit := by decide
  have hzero : 0 ≤ greatestLimit := by decide
  have hfeed : '\n' ∉ "  1 / 0".toList := by decide
  have hline : Line.ofText "  1 / 0" = .expression "1 / 0" := by decide +kernel
  have hspace : "  1 / 0".toList.all fun c => !isWhiteSpace c || isBlank c := by decide
  have htab : Line.ofText "\x0b7" = .expression "7" := by decide +kernel
  have hbehind : Line.ofText "7 \x0b" = .expression "7" := by decide +kernel
  have hseven : tokenize "7" = .ok [⟨.integer 7, 1⟩] := by decide +kernel
  have hexposed : exposed "7".toList [' ', '\x0b'] = [' '] ++ '\x0b' :: [] := by decide +kernel
  obtain ⟨hpiped, -, lead, trail, htext, hwhite, hblanks, -⟩ :=
    execute_line hlimit hfeed hline []
  obtain ⟨hpiped', -, lead', trail', htext', -, -, hbefore, -⟩ :=
    execute_line hzero (by decide) htab []
  obtain ⟨-, -, lead₂, trail₂, htext₂, hwhite₂, -, -, -, hafter⟩ :=
    execute_line hzero (by decide) hbehind []
  refine ⟨hpiped, ⟨lead, trail, htext, hblanks fun c hc => ?_⟩, hpiped', ?_, ?_⟩
  · have hmem : c ∈ lead ++ trail :=
      (List.mem_append.1 hc).elim (List.mem_append_left _)
        fun h => List.mem_append_right _ ((exposed_suffix _ _).subset h)
    have hmem' : c ∈ "  1 / 0".toList := by
      rw [htext]
      simp only [List.mem_append] at hmem ⊢
      exact hmem.imp_left .inl
    have hc' := List.all_eq_true.1 hspace c hmem'
    rwa [hwhite c hmem] at hc'
  · cases lead' with
    | nil =>
      obtain ⟨hne, -⟩ := List.cons.inj htext'
      exact absurd hne (by decide)
    | cons c rest =>
      obtain ⟨rfl, -⟩ := List.cons.inj htext'
      exact hbefore [] _ rest rfl (by simp) (by decide)
  · cases lead₂ with
    | nil =>
      obtain ⟨-, rfl⟩ := List.cons.inj htext₂
      exact hafter _ [' '] '\x0b' [] hseven hexposed (by simp [isBlank]) (by decide)
    | cons c rest =>
      obtain ⟨rfl, -⟩ := List.cons.inj htext₂
      exact absurd (hwhite₂ _ List.mem_cons_self) (by decide)

/-- The blanks count where the text is an argument as it is. -/
theorem execute_untrimmed_ne :
    Line.ofText "  1 / 0" = .expression "1 / 0" ∧
      (execute (pipedArguments 200) (textBytes "  1 / 0" ++ [lineFeed])).transcript =
        ⟨"", "Error: division by zero (at column 3)\n"⟩ ∧
      (execute (oneShotArguments 200 "  1 / 0") []).transcript =
        ⟨"", "Error: division by zero (at column 5)\n"⟩ := by
  refine ⟨?_, ?_, ?_⟩ <;> decide +kernel

end Calculator
