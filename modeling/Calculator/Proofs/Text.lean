/-!
# Texts

How many bytes and characters texts have, and the text between two bytes.

* `length_le_utf8ByteSize`: a text has at least as many bytes as characters.
* `length_intercalate_le`: words joined are no longer than with more words before them.
* `byteCount`: the bytes of a list of characters; they determine a prefix
  (`append_inj_of_byteCount`).
* `textBetween?`: the text between two bytes, if they are on the boundaries of characters.
-/

namespace Calculator

/-! ## Bytes -/

/-- Every character takes at least one byte. -/
theorem length_le_utf8ByteSize (text : String) : text.length ≤ text.utf8ByteSize := by
  have hchars : ∀ cs : List Char, cs.length ≤ (String.ofList cs).utf8ByteSize := by
    intro cs
    induction cs with
    | nil => exact Nat.zero_le _
    | cons c cs ih =>
      have happend : String.ofList (c :: cs) = String.singleton c ++ String.ofList cs := by
        rw [String.singleton_eq_ofList, ← String.ofList_append, List.singleton_append]
      have hc := c.utf8Size_pos
      rw [happend, String.utf8ByteSize_append, String.utf8ByteSize_singleton, List.length_cons]
      omega
  have h := hchars text.toList
  rwa [String.ofList_toList] at h

/-- The number of bytes of characters in UTF-8. -/
def byteCount (cs : List Char) : Nat := (String.ofList cs).utf8ByteSize

section

variable {as bs as' bs' : List Char}

theorem byteCount_append (as bs : List Char) :
    byteCount (as ++ bs) = byteCount as + byteCount bs := by
  rw [byteCount, String.ofList_append, String.utf8ByteSize_append]
  rfl

theorem byteCount_pos (h : as ≠ []) : 0 < byteCount as := by
  apply Nat.pos_of_ne_zero
  intro hzero
  exact h (String.ofList_eq_empty_iff.1 (String.utf8ByteSize_eq_zero_iff.1 hzero))

theorem eq_nil_of_byteCount (h : byteCount as = 0) : as = [] := by
  cases as with
  | nil => rfl
  | cons a as => exact absurd h (Nat.ne_of_gt (byteCount_pos (List.cons_ne_nil a as)))

/-- Of two places in a text, the one with fewer bytes before it stands before the other. -/
theorem exists_append_of_byteCount (h : as ++ bs = as' ++ bs')
    (hbytes : byteCount as ≤ byteCount as') : ∃ cs, as' = as ++ cs ∧ bs = cs ++ bs' := by
  rcases List.append_eq_append_iff.1 h with ⟨cs, has, hbs⟩ | ⟨cs, rfl, rfl⟩
  · exact ⟨cs, has, hbs⟩
  · rw [byteCount_append] at hbytes
    obtain rfl : cs = [] := eq_nil_of_byteCount (by omega)
    exact ⟨[], by simp, rfl⟩

/-- A text is cut in two at a byte in one way only. -/
theorem append_inj_of_byteCount (h : as ++ bs = as' ++ bs')
    (hbytes : byteCount as = byteCount as') : as = as' ∧ bs = bs' := by
  obtain ⟨cs, rfl, rfl⟩ := exists_append_of_byteCount h (Nat.le_of_eq hbytes)
  rw [byteCount_append] at hbytes
  obtain rfl : cs = [] := eq_nil_of_byteCount (by omega)
  simp

end

/-! ## The text between two bytes -/

/-- The text from byte `start` up to byte `stop`. There is none if one of the two lies inside a
character or beyond the end, or if they are not in order. -/
def textBetween? (source : String) (start stop : Nat) : Option String :=
  if h : String.Pos.Raw.IsValid source ⟨start⟩ ∧ String.Pos.Raw.IsValid source ⟨stop⟩ then
    (source.slice? ⟨⟨start⟩, h.1⟩ ⟨⟨stop⟩, h.2⟩).map (·.copy)
  else none

/-- Where characters precede and follow a place, a character starts or the text ends. -/
theorem isValid_of_toList_eq {source : String} {as bs : List Char} (h : source.toList = as ++ bs) :
    String.Pos.Raw.IsValid source ⟨byteCount as⟩ := by
  refine String.Pos.Raw.isValid_iff_exists_append.2 ⟨.ofList as, .ofList bs, ?_, rfl⟩
  rw [← String.ofList_append, ← h, String.ofList_toList]

/-- The text between two bytes is what stands after the characters before the first. -/
theorem textBetween?_eq {source : String} {as cs bs : List Char}
    (h : source.toList = as ++ (cs ++ bs)) {start stop : Nat} (hstart : start = byteCount as)
    (hstop : stop = start + byteCount cs) :
    textBetween? source start stop = some (.ofList cs) := by
  subst hstart hstop
  rw [← byteCount_append]
  have hvalid : String.Pos.Raw.IsValid source ⟨byteCount as⟩ := isValid_of_toList_eq h
  have hvalid' : String.Pos.Raw.IsValid source ⟨byteCount (as ++ cs)⟩ :=
    isValid_of_toList_eq (by rw [h, List.append_assoc])
  have hsource : source = .ofList as ++ (.ofList cs ++ .ofList bs) := by
    rw [← String.ofList_append, ← String.ofList_append, ← h, String.ofList_toList]
  obtain ⟨hle, hcopy⟩ := String.copy_slice_eq_iff_splits.2
    (⟨.ofList as, .ofList bs, ⟨hsource, rfl⟩, ⟨by rw [hsource, String.append_assoc], by
      rw [← String.ofList_append]; rfl⟩⟩ :
      ∃ t₁ t₂, (⟨_, hvalid⟩ : source.Pos).Splits t₁ (.ofList cs ++ t₂) ∧
        (⟨_, hvalid'⟩ : source.Pos).Splits (t₁ ++ .ofList cs) t₂)
  rw [textBetween?, dif_pos ⟨hvalid, hvalid'⟩, String.slice?, dif_pos hle, Option.map_some, hcopy]

/-! ## Words -/

/-- Words joined are no longer than with more words before them. -/
theorem length_intercalate_le {separator : String} {words all : List String}
    (h : words <:+ all) :
    (separator.intercalate words).length ≤ (separator.intercalate all).length := by
  induction all with
  | nil =>
    obtain rfl := List.suffix_nil.1 h
    exact Nat.le_refl _
  | cons word rest ih =>
    rcases List.suffix_cons_iff.1 h with rfl | hrest
    · exact Nat.le_refl _
    · refine Nat.le_trans (ih hrest) ?_
      cases rest with
      | nil => simp
      | cons next rest =>
        rw [String.intercalate_cons_cons, String.length_append]
        exact Nat.le_add_left ..

end Calculator
