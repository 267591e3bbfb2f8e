import Calculator.Calculation
import Calculator.Proofs.Digits

/-!
# Telling messages apart

The message of a tree that is too deep to evaluate starts with `e` and ends with a parenthesis. No
other message does both.

* `Starts`, `StaysOpen`: how texts start and end.
* `ParseError.message_staysOpen`: no parse error ends its message with a parenthesis.
* `EvalError.eq_nestingTooDeep_of_message`: the message tells a tree that is too deep from all other
  evaluation errors.
-/

namespace Calculator

/-- A text whose first character is `c`. -/
def Starts (c : Char) (text : String) : Prop := text.toList.head? = some c

instance (c : Char) (text : String) : Decidable (Starts c text) :=
  inferInstanceAs (Decidable (text.toList.head? = some c))

theorem Starts.append {c : Char} {s : String} (h : Starts c s) (t : String) :
    Starts c (s ++ t) := by
  rw [Starts, String.toList_append, List.head?_append, h]
  rfl

/-- A text with a last character other than a closing parenthesis. -/
def StaysOpen (text : String) : Prop := ∃ c, text.toList.getLast? = some c ∧ c ≠ ')'

theorem StaysOpen.append {t : String} (h : StaysOpen t) (s : String) : StaysOpen (s ++ t) := by
  obtain ⟨c, hlast, hc⟩ := h
  exact ⟨c, by rw [String.toList_append, List.getLast?_append, hlast]; rfl, hc⟩

theorem StaysOpen.append_naturalText {s : String} (h : StaysOpen s) (n : Nat) :
    StaysOpen (s ++ naturalText n) := by
  cases hlast : (naturalText n).toList.getLast? with
  | some c =>
    have hmem := List.mem_of_getLast? hlast
    rw [toList_naturalText] at hmem
    refine StaysOpen.append ⟨c, hlast, ?_⟩ s
    rintro rfl
    exact absurd (isDigit_of_mem_decimalDigits hmem) (by decide)
  | none =>
    obtain ⟨c, hc⟩ := h
    exact ⟨c, by rw [String.toList_append, List.getLast?_append, hlast]; exact hc.1, hc.2⟩

theorem LiteralFault.message_invalidDigit_starts (c : Char) (radix : Nat) :
    Starts 'i' (message (.invalidDigit c radix)) := by
  have h : Starts 'i' "invalid digit '" := by decide
  exact ((h.append c.toString).append "' for base ").append (naturalText radix)

theorem LiteralFault.message_staysOpen (fault : LiteralFault) : StaysOpen fault.message := by
  cases fault with
  | missingDigits => exact ⟨'s', by decide, by decide⟩
  | misplacedSeparator => exact ⟨'r', by decide, by decide⟩
  | leadingZeros => exact ⟨'l', by decide, by decide⟩
  | notAnInteger => exact ⟨'r', by decide, by decide⟩
  | notAFloat => exact ⟨'t', by decide, by decide⟩
  | invalidDigit c radix =>
    have hbase : StaysOpen "' for base " := ⟨' ', by decide, by decide⟩
    exact (hbase.append _).append_naturalText radix

theorem ParseError.message_staysOpen (e : ParseError) : StaysOpen e.message := by
  obtain ⟨fault, column⟩ := e
  have hat : StaysOpen " at column " := ⟨' ', by decide, by decide⟩
  cases fault with
  | invalidLiteral literal fault => exact fault.message_staysOpen.append _
  | _ => exact (hat.append_naturalText column).append _

/-- A fault of an operation has a message, and it does not start with an `e`. -/
theorem ArithmeticFault.message_starts (cause : ArithmeticFault) :
    ∃ c, Starts c cause.message ∧ c ≠ 'e' := by
  cases cause with
  | divisionByZero => exact ⟨'d', by decide, by decide⟩
  | floorDivisionByZero => exact ⟨'f', by decide, by decide⟩
  | moduloByZero => exact ⟨'m', by decide, by decide⟩
  | zeroToNegativePower => exact ⟨'0', by decide, by decide⟩
  | integerTooLargeForFloat => exact ⟨'i', by decide, by decide⟩
  | _ => exact ⟨'n', by decide, by decide⟩

namespace EvalError

/-- The message for an operator that is not permitted. -/
theorem unsupportedMessage_starts (arity symbol : String) (column : Nat) :
    Starts 'u' (unsupportedMessage arity symbol column) := by
  have h : Starts 'u' "unsupported " := by decide
  exact ((((h.append arity).append " operator '").append symbol).append "' at column ").append _

theorem message_nestingTooDeep_starts (n : Nat) : Starts 'e' (nestingTooDeep n).message := by
  have h : Starts 'e' "expression nested too deeply (limit " := by decide
  exact (h.append (naturalText n)).append ")"

theorem message_nestingTooDeep_closes (n : Nat) : ¬StaysOpen (nestingTooDeep n).message := by
  rintro ⟨c, hlast, hc⟩
  change ("expression nested too deeply (limit " ++ naturalText n ++ ")").toList.getLast? = _
    at hlast
  rw [String.toList_append, List.getLast?_append] at hlast
  exact hc (Option.some.inj hlast).symm

/-- Only a tree that is too deep has the message of one. -/
theorem eq_nestingTooDeep_of_message {err : EvalError} {n : Nat}
    (h : err.message = (nestingTooDeep n).message) : ∃ m, err = nestingTooDeep m := by
  have he : Starts 'e' err.message := h ▸ message_nestingTooDeep_starts n
  cases err with
  | nestingTooDeep m => exact ⟨m, rfl⟩
  | unsupportedBinary op column =>
    cases he.symm.trans (unsupportedMessage_starts "binary" op.symbol column)
  | unsupportedSign sign column =>
    cases he.symm.trans (unsupportedMessage_starts "unary" sign.symbol column)
  | arithmetic cause column =>
    obtain ⟨c, hc, hne⟩ := cause.message_starts
    have hstarts := ((hc.append " (at column ").append (naturalText column)).append ")"
    exact (hne (Option.some.inj (hstarts.symm.trans he))).elim

end EvalError

end Calculator
