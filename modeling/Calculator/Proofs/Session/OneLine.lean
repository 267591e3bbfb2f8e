import Calculator.Proofs.Parser.Scan
import Calculator.Proofs.Session.Messages
import Calculator.Proofs.Token.Meaning
import Calculator.Proofs.Token.Separation

/-!
# Messages on one line

No error message has a line feed in it: what it quotes from a source is one token, and no token goes
on over the end of its line. So a message that is written with a line feed after it is one line.

* `OneLine`: a text without line feeds.
* `ParseError.message_oneLine`, `EvalError.message_oneLine`: a message has line feeds only where its
  fault quotes them.
* `Front.lineFeed_not_mem`: no token or fault has a line feed in its text.
* `Lexeme.readOnOneLine`: what a lexeme without line feeds is read as quotes none.
* `parseWithin_message_oneLine`: the message of a source that does not parse.
-/

namespace Calculator

open Lexeme Pattern

/-- A text without line feeds. -/
def OneLine (text : String) : Prop := '\n' ∉ text.toList

instance (text : String) : Decidable (OneLine text) :=
  decidable_of_iff (text.toList.all (· ≠ '\n')) <| by
    simp only [List.all_eq_true, decide_eq_true_iff, OneLine]
    exact ⟨fun h hmem => h _ hmem rfl, fun h c hc heq => h (heq ▸ hc)⟩

namespace OneLine

variable {s t : String} {cs : List Char} {c : Char}

theorem append (hs : OneLine s) (ht : OneLine t) : OneLine (s ++ t) := by
  rw [OneLine, String.toList_append, List.mem_append]
  exact not_or.2 ⟨hs, ht⟩

theorem ofList (h : '\n' ∉ cs) : OneLine (.ofList cs) := by
  rwa [OneLine, String.toList_ofList]

theorem toString (hc : c ≠ '\n') : OneLine c.toString := by
  have hchars : c.toString.toList = [c] := by simp
  rw [OneLine, hchars, List.mem_singleton]
  exact hc.symm

theorem naturalText (n : Nat) : OneLine (naturalText n) := by
  rw [OneLine, toList_naturalText]
  exact fun h => absurd (isDigit_of_mem_decimalDigits h) (by decide)

theorem quote (h : OneLine t) : OneLine (ParseError.quote t) := by
  have hmark : OneLine "'" := by decide
  exact (hmark.append h).append hmark

end OneLine

/-! ## Texts of tokens -/

theorem BinaryOp.symbol_oneLine (op : BinaryOp) : OneLine op.symbol := by
  cases op <;> decide

theorem Sign.symbol_oneLine (s : Sign) : OneLine s.symbol := by
  cases s <;> decide

namespace Layout

variable {layout : Layout} {ds : List Char}

theorem lineFeed_not_mem_decimalDigits (n : Nat) : '\n' ∉ decimalDigits n := fun h =>
  absurd (isDigit_of_mem_decimalDigits h) (by decide)

theorem lineFeed_not_mem_zeros (n : Nat) : '\n' ∉ zeros n := fun h =>
  absurd (List.eq_of_mem_replicate h) (by decide)

theorem lineFeed_not_mem_plain (hds : '\n' ∉ ds) (exponent : Int) :
    '\n' ∉ layout.plain ds exponent := by
  have htake (k : Nat) : '\n' ∉ ds.take k := fun h => hds (List.take_subset k ds h)
  have hdrop (k : Nat) : '\n' ∉ ds.drop k := fun h => hds (List.drop_subset k ds h)
  unfold plain
  split
  · simp [lineFeed_not_mem_zeros, hds]
  dsimp only
  split
  · cases layout.markIntegral <;> simp [lineFeed_not_mem_zeros, hds]
  · simp [htake, hdrop]

theorem lineFeed_not_mem_scientific (hds : '\n' ∉ ds) (exponent : Int) :
    '\n' ∉ layout.scientific ds exponent := by
  have htake : '\n' ∉ ds.take 1 := fun h => hds (List.take_subset 1 ds h)
  have htail : '\n' ∉ ds.tail := fun h => hds (List.mem_of_mem_tail h)
  have hsign : '\n' ∉ if exponent < 0 then ['-'] else if layout.plusSign then ['+'] else [] := by
    split
    · decide
    · split <;> decide
  simp [scientific, htake, htail, hsign, lineFeed_not_mem_zeros, lineFeed_not_mem_decimalDigits]

/-- Numbers are written without line feeds. -/
theorem text_oneLine (hnan : OneLine layout.nan) (x : Double) : OneLine (layout.text x) := by
  have hinf : OneLine "inf" ∧ OneLine "-inf" := by decide
  have hdigits (n : Nat) := lineFeed_not_mem_decimalDigits n
  cases x with
  | nan => exact hnan
  | infinite s =>
    cases s
    · exact hinf.1
    · exact hinf.2
  | finite s m =>
    have hdecimal : '\n' ∉ layout.decimalText (.shortest m.units) := by
      unfold decimalText
      dsimp only
      split
      · exact lineFeed_not_mem_plain (hdigits _) _
      · exact lineFeed_not_mem_scientific (hdigits _) _
    cases s
    · exact .ofList hdecimal
    · exact .ofList (List.not_mem_cons_of_ne_of_not_mem (by decide) hdecimal)

end Layout

/-! ## Faults and tokens -/

section

variable {cs : List Char} {column : Nat}

theorem LiteralFault.message_oneLine {fault : LiteralFault}
    (h : fault.IsOfDigits cs ∨ fault = .notAFloat) (hcs : '\n' ∉ cs) : OneLine fault.message := by
  rcases h with h | rfl
  · cases fault with
    | notAnInteger | notAFloat => cases h
    | invalidDigit c radix =>
      have hinvalid : OneLine "invalid digit '" := by decide
      have hbase : OneLine "' for base " := by decide
      have hc : OneLine c.toString := .toString fun heq => hcs (heq ▸ h)
      exact ((hinvalid.append hc).append hbase).append (.naturalText radix)
    | missingDigits | misplacedSeparator | leadingZeros => decide
  · decide

end

/-- What a fault quotes has no line feeds. -/
def ParseFault.QuotesOneLine : ParseFault → Prop
  | .unexpectedCharacter c => c ≠ '\n'
  | .invalidLiteral literal fault => OneLine literal ∧ OneLine fault.message
  | .unexpectedToken t | .trailingToken t => OneLine t.text
  | .unterminatedString text | .nameNotAllowed text | .stringNotAllowed text
  | .unsupportedOperator text => OneLine text
  | .unexpectedEndOfInput | .expectedClosingParen | .nestingTooDeep _ => True

theorem ParseError.message_oneLine {e : ParseError} (h : e.fault.QuotesOneLine) :
    OneLine e.message := by
  obtain ⟨fault, column⟩ := e
  have hat : OneLine " at column " := by simp [OneLine]
  have hplace : OneLine (" at column " ++ naturalText column) := hat.append (.naturalText column)
  have hquoting {lead text : String} (hlead : OneLine lead) (htext : OneLine text) :
      OneLine (lead ++ quote text ++ (" at column " ++ naturalText column)) :=
    (hlead.append htext.quote).append hplace
  cases fault with
  | unexpectedCharacter c => exact hquoting (by simp [OneLine]) (OneLine.toString h)
  | invalidLiteral literal fault =>
    have hcolon : OneLine ": " := by simp [OneLine]
    exact ((hquoting (by simp [OneLine]) h.1).append hcolon).append h.2
  | unterminatedString text =>
    have hopen : OneLine "unterminated string " := by simp [OneLine]
    exact hquoting (by simp [OneLine]) (hopen.append h)
  | unexpectedToken | trailingToken | nameNotAllowed | unsupportedOperator =>
    exact hquoting (by simp [OneLine]) h
  | unexpectedEndOfInput | expectedClosingParen =>
    exact OneLine.append (by simp [OneLine]) hplace
  | stringNotAllowed text =>
    have hlead : OneLine "only numeric constants are allowed, found string " := by simp [OneLine]
    exact (hlead.append h).append hplace
  | nestingTooDeep limit =>
    have hlead : OneLine "expression nested too deeply (limit " := by simp [OneLine]
    have hclose : OneLine ")" := by simp [OneLine]
    exact ((hlead.append (.naturalText limit)).append hclose).append hplace

theorem ArithmeticFault.message_oneLine (cause : ArithmeticFault) : OneLine cause.message := by
  have hrange : OneLine "numeric result out of range: " := by simp [OneLine]
  cases cause with
  | integerPowerTooLarge | floatPowerOutOfRange | integerQuotientTooLarge =>
    exact hrange.append (by simp [OneLine])
  | _ => simp [OneLine, ArithmeticFault.message]

theorem EvalError.message_oneLine (e : EvalError) : OneLine e.message := by
  have hmark : OneLine "' at column " := by simp [OneLine]
  have hclose : OneLine ")" := by simp [OneLine]
  cases e with
  | unsupportedBinary op column =>
    have hlead : OneLine ("unsupported " ++ "binary" ++ " operator '") := by simp [OneLine]
    exact ((hlead.append op.symbol_oneLine).append hmark).append (.naturalText column)
  | unsupportedSign sign column =>
    have hlead : OneLine ("unsupported " ++ "unary" ++ " operator '") := by simp [OneLine]
    exact ((hlead.append sign.symbol_oneLine).append hmark).append (.naturalText column)
  | arithmetic cause column =>
    have hat : OneLine " (at column " := by simp [OneLine]
    exact ((cause.message_oneLine.append hat).append (.naturalText column)).append hclose
  | nestingTooDeep limit =>
    have hlead : OneLine "expression nested too deeply (limit " := by simp [OneLine]
    exact (hlead.append (.naturalText limit)).append hclose

/-! ## Lexemes -/

section

variable {w rest cs : List Char} {l : Lexeme}

/-- Only blanks match a line feed. -/
theorem Pattern.lineFeed_not_mem {p : Pattern} (hw : w ∈ p.language)
    (hhead : ∀ d ∈ w.head?, isBlank d = false) : '\n' ∉ w := by
  cases w with
  | nil => exact List.not_mem_nil
  | cons c x =>
    have hc := hhead c rfl
    refine List.not_mem_cons_of_ne_of_not_mem ?_ fun hmem => ?_
    · rintro rfl
      cases hc
    · cases separates_of_cons_mem hw hc hmem

/-- No token or fault has a line feed in its text. -/
theorem Front.lineFeed_not_mem {o : Except LexicalFault Token} (h : Front w rest (some o)) :
    '\n' ∉ w := by
  have hhead := h.isBlank_head
  generalize ho : some o = outcome at h
  cases h with
  | @matched p v extra rest outcome _ hchosen htakes =>
    have hv := Pattern.lineFeed_not_mem hchosen.matched (hchosen.isBlank_head hhead)
    cases htakes with
    | plain => rwa [List.append_nil]
    | comment => cases ho
    | unclosed => exact hv
    | closed hp hbody =>
      have hinner : '\n' ∉ _ := fun h => Bool.eq_false_iff.1 (hbody '\n' h).2 rfl
      exact List.not_mem_append hv (List.not_mem_append hinner hv)
  | @stray c =>
    intro hmem
    obtain rfl := List.mem_singleton.1 hmem
    cases hhead '\n' rfl
  | pointBeforeMark hpoint => exact Pattern.lineFeed_not_mem hpoint.mem_language hhead

/-- A lexeme that is read as a token or fault has no line feed. -/
theorem lineFeed_not_mem_of_mem_cut (hl : l ∈ cut cs) (hread : l.read? ≠ none) :
    '\n' ∉ l.chars := by
  fun_induction cut cs with
  | case1 => cases hl
  | case2 c cs ih =>
    rcases List.mem_cons.1 hl with rfl | hl
    · obtain ⟨o, ho⟩ := Option.ne_none_iff_exists'.1 hread
      have hfront := isRead c cs
      rw [IsRead, ho] at hfront
      exact hfront.lineFeed_not_mem
    · exact ih hl

end

/-! ## Readings -/

/-- What a lexeme stands for quotes it on one line. -/
def Lexeme.ReadOnOneLine (l : Lexeme) : Except LexicalFault Token → Prop
  | .ok t => OneLine t.text
  | .error fault => (l.parseFault fault).QuotesOneLine

section

variable {l : Lexeme} {o : Except LexicalFault Token} {α : Type}

theorem readLiteral_onOneLine {token : α → Token} {value : Except LiteralFault α}
    (htoken : ∀ a, OneLine (token a).text)
    (hfault : ∀ fault, value = .error fault → fault.IsOfDigits l.chars ∨ fault = .notAFloat)
    (hl : '\n' ∉ l.chars) : l.ReadOnOneLine (readLiteral token value) := by
  cases value with
  | ok a => exact htoken a
  | error fault => exact ⟨.ofList hl, LiteralFault.message_oneLine (hfault fault rfl) hl⟩

/-- A lexeme without line feeds stands for a token or fault that quotes no line feed. -/
theorem Lexeme.readOnOneLine (hread : l.read? = some o) (hl : '\n' ∉ l.chars) :
    l.ReadOnOneLine o := by
  have hinteger (n : Nat) : OneLine (Token.integer n).text := .naturalText n
  have hfloat (x : Double) : OneLine (Token.float x).text := Layout.text_oneLine (by decide) x
  have htext : OneLine l.text := .ofList hl
  obtain ⟨shape, chars⟩ := l
  cases shape with
  | blank | comment => cases hread
  | decimalInteger | pointBeforeMark =>
    cases hread
    exact readLiteral_onOneLine hinteger
      (fun _ h => .inl (Literal.isOfDigits_of_decimalInteger h)) hl
  | markedInteger =>
    cases hread
    exact readLiteral_onOneLine hinteger
      (fun _ h => .inl (Literal.isOfDigits_of_markedInteger h)) hl
  | float =>
    cases hread
    exact readLiteral_onOneLine hfloat (fun _ h => Literal.isOfDigits_or_eq_of_decimalFloat h) hl
  | operator op =>
    cases hread
    exact op.symbol_oneLine
  | leftParen | rightParen =>
    cases hread
    have hparens : OneLine "(" ∧ OneLine ")" := by decide
    simp [ReadOnOneLine, Token.text, hparens]
  | name | symbol | quoted | openQuote =>
    cases hread
    exact htext
  | stray =>
    cases hread
    cases chars with
    | nil => exact (by decide : default ≠ '\n')
    | cons c chars => exact fun hc => hl (hc ▸ List.mem_cons_self)

end

/-- What is read from a source quotes it on one line. -/
theorem readOnOneLine_of_mem_cut {cs : List Char} {l : Lexeme} {o : Except LexicalFault Token}
    (hl : l ∈ cut cs) (hread : l.read? = some o) : l.ReadOnOneLine o := by
  refine Lexeme.readOnOneLine hread (lineFeed_not_mem_of_mem_cut hl ?_)
  rw [hread]
  exact Option.some_ne_none o

namespace Token

variable {t : Token}

theorem refusal_quotesOneLine (h : OneLine t.text) : t.refusal.QuotesOneLine := by
  cases t <;> exact h

theorem trailingFault_quotesOneLine (h : OneLine t.text) : t.trailingFault.QuotesOneLine := by
  cases t <;> exact h

end Token

/-- A fault of tokens quotes one of them, if anything. -/
theorem Scan.quotesOneLine_of_fault? {setting : Setting} {s : Scan} {ts : List Placed}
    {e : ParseError} (h : s.fault? setting ts = some e) (hts : ∀ t ∈ ts, OneLine t.token.text) :
    e.fault.QuotesOneLine := by
  fun_induction fault? setting s ts with
  | case1 s =>
    unfold endFault? at h
    split at h <;> cases h
    · trivial
    · trivial
  | case2 s t ts =>
    have ht := hts t List.mem_cons_self
    cases h
    unfold misplaced
    split
    · exact Token.trailingFault_quotesOneLine ht
    · exact Token.refusal_quotesOneLine ht
  | case3 s t ts s' _ ih => exact ih h fun u hu => hts u (List.mem_cons_of_mem _ hu)
  | case4 =>
    cases h
    trivial
  | case5 s t ts level s' _ _ ih => exact ih h fun u hu => hts u (List.mem_cons_of_mem _ hu)

/-- **The error of a source is one line.** -/
theorem parseWithin_message_oneLine {source : String} {limit : Nat} {e : ParseError}
    (h : parseWithin source limit = .error e) : OneLine e.message := by
  refine ParseError.message_oneLine ?_
  unfold parseWithin at h
  cases htokens : tokenize source with
  | error err =>
    rw [htokens] at h
    cases h
    obtain ⟨l, hl, fault, hread, hfault⟩ := exists_lexeme_of_placedFrom_eq_error htokens
    rw [hfault]
    exact readOnOneLine_of_mem_cut hl hread
  | ok ts =>
    rw [htokens] at h
    refine Scan.quotesOneLine_of_fault? (parseAll_eq_error_iff_fault.1 h) fun t ht => ?_
    obtain ⟨l, hl, hread⟩ := exists_lexeme_of_mem_placedFrom htokens ht
    exact readOnOneLine_of_mem_cut hl hread

end Calculator
