import Calculator.Proofs.Session.Messages
import Calculator.Proofs.Text
import Calculator.Session.CommandLine

/-!
# Where sources come from

A source is made of arguments or of a line of the input, so it is no longer than they are.

* `length_le_of_mem_inputLines`, `length_decodeLine_le`, `length_le_of_ofText_eq`: from the input to
  its lines, their texts and the expressions on them.
* `eq_trim_of_ofText_eq`: an expression is its line without the white space around it.
* `Request.ofRest_follows`: from the arguments to the expression that they make up.
-/

namespace Calculator

/-! ## Lines -/

theorem length_endedLine_le (begun : List UInt8) : (endedLine begun).length ≤ begun.length := by
  unfold endedLine
  split
  · split <;> simp
  · exact Nat.le_refl 0

theorem length_le_of_mem_inputLinesFrom {begun bytes line : List UInt8}
    (h : line ∈ inputLinesFrom begun bytes) : line.length ≤ begun.length + bytes.length := by
  induction bytes generalizing begun with
  | nil =>
    unfold inputLinesFrom at h
    split at h
    · cases h
    · rw [List.mem_singleton.1 h, List.length_reverse]
      exact Nat.le_add_right ..
  | cons b bytes ih =>
    rw [inputLinesFrom] at h
    split at h
    · rcases List.mem_cons.1 h with rfl | h
      · exact Nat.le_trans (length_endedLine_le begun) (Nat.le_add_right ..)
      · have := ih h
        simp only [List.length_nil, List.length_cons] at this ⊢
        omega
    · have := ih h
      simp only [List.length_cons] at this ⊢
      omega

/-- No line is longer than the input. -/
theorem length_le_of_mem_inputLines {bytes line : List UInt8} (h : line ∈ inputLines bytes) :
    line.length ≤ bytes.length := by
  have := length_le_of_mem_inputLinesFrom h
  rwa [List.length_nil, Nat.zero_add] at this

theorem length_decodeLine_le {line : List UInt8} {text : String}
    (h : decodeLine? line = some text) : text.length ≤ line.length := by
  unfold decodeLine? String.fromUTF8? at h
  split at h
  · cases h
    exact length_le_utf8ByteSize _
  · cases h

theorem length_trim_le (text : String) : (trim text).length ≤ text.length := by
  have hfront := (List.dropWhile_sublist isWhiteSpace (l := text.toList)).length_le
  have hback := (List.dropWhile_sublist isWhiteSpace
    (l := (text.toList.dropWhile isWhiteSpace).reverse)).length_le
  rw [trim, String.length_ofList, trimChars, List.length_reverse, ← String.length_toList]
  rw [List.length_reverse] at hback
  exact Nat.le_trans hback hfront

/-- The expression on a line is the line without the white space at its ends. -/
theorem eq_trim_of_ofText_eq {text source : String} (h : Line.ofText text = .expression source) :
    source = trim text := by
  dsimp only [Line.ofText] at h
  split at h
  · cases h
  · split at h
    · cases h
    · cases h
      rfl

/-- The expression on a line is no longer than the line. -/
theorem length_le_of_ofText_eq {text source : String} (h : Line.ofText text = .expression source) :
    source.length ≤ text.length := by
  rw [eq_trim_of_ofText_eq h]
  exact length_trim_le text

/-! ## Arguments -/

/-- What a request owes to the arguments: a source is made of some of them, and an option that
cannot be followed is named. -/
def Request.Follows (arguments : List String) : Request → Prop
  | .evaluate _ source => ∃ words, words <:+ arguments ∧ source = " ".intercalate words
  | .misuse reason => Starts '-' reason
  | _ => True

theorem Request.Follows.cons {arguments : List String} {request : Request}
    (h : request.Follows arguments) (argument : String) :
    request.Follows (argument :: arguments) := by
  cases request with
  | evaluate settings source =>
    obtain ⟨words, hw, rfl⟩ := h
    exact ⟨words, hw.trans (List.suffix_cons ..), rfl⟩
  | version | usage | misuse | session => exact h

theorem Request.ofWords_follows (settings : Settings) (words : List String) :
    (Request.ofWords settings words).Follows words := by
  unfold ofWords
  split
  · trivial
  · exact ⟨words, List.suffix_rfl, rfl⟩

theorem Request.withLimit_starts {settings : Settings} {given : Bool} {text reason : String}
    (h : withLimit settings given text = .error reason) : Starts '-' reason := by
  have hoption : Starts '-' limitOption := by decide
  unfold withLimit at h
  split at h
  · cases h
    exact hoption.append _
  · split at h
    · cases h
    · cases h
      exact ((hoption.append _).append _).append _

theorem Request.ofRest_follows (settings : Settings) (given : Bool) (arguments : List String) :
    (Request.ofRest settings given arguments).Follows arguments := by
  fun_induction ofRest settings given arguments with
  | case1 | case3 | case4 => trivial
  | case2 settings given words => exact (ofWords_follows settings words).cons "--"
  | case5 =>
    have hoption : Starts '-' "--debug-parse was given twice" := by decide
    exact hoption
  | case6 settings given rest _ _ _ _ ih => exact ih.cons _
  | case7 =>
    have hoption : Starts '-' limitOption := by decide
    exact hoption.append _
  | case8 settings given text rest settings' _ _ _ _ _ ih => exact (ih.cons text).cons _
  | case9 settings given text rest reason h => exact withLimit_starts h
  | case10 settings given argument rest _ _ _ _ _ text _ settings' _ ih => exact ih.cons argument
  | case11 settings given argument rest _ _ _ _ _ text _ reason h => exact withLimit_starts h
  | case12 settings given argument rest _ _ _ _ _ _ flag hflag =>
    have hstarts : ∀ flag ∈ flags, Starts '-' flag := by decide
    exact (hstarts flag (List.mem_of_find?_eq_some hflag)).append _
  | case13 settings given argument rest => exact ofWords_follows settings (argument :: rest)

/-- The expression that arguments make up is no longer than the arguments joined. -/
theorem length_le_of_ofArguments_eq {arguments : List String} {settings : Settings}
    {source : String} (h : Request.ofArguments arguments = .evaluate settings source) :
    source.length ≤ (" ".intercalate arguments).length := by
  have hf := Request.ofRest_follows {} false arguments
  rw [← Request.ofArguments, h] at hf
  obtain ⟨words, hw, rfl⟩ := hf
  exact length_intercalate_le hw

end Calculator
