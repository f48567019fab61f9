import AblResolve.Proofs.Underlining
/-!
Where lines and columns lead. Whatever the numbers are, a position leads to the place between two
characters of the text, or to one of its ends: what stands before it is a beginning of the text.
Later positions never lead to earlier places, and a range covers at least one character unless it
begins at the end of the text.
-/
namespace AblResolve.Source

variable {source : String} {text before after : List Char} {line line' column column' : Nat}

/-! ### Beginnings of a text -/

theorem utf8ByteSize_eq (s : String) : s.utf8ByteSize = byteLength s.toList := by
  have size : ∀ cs : List Char, (String.ofList cs).utf8ByteSize = byteLength cs := by
    intro cs
    induction cs with
    | nil => rfl
    | cons c rest ih =>
      rw [String.ofList_cons, String.utf8ByteSize_append, String.utf8ByteSize_singleton, ih,
        byteLength]
  rw [← size, String.ofList_toList]

theorem byteLength_le_of_starts (h : before <+: text) : byteLength before ≤ byteLength text := by
  obtain ⟨after, rfl⟩ := h
  rw [byteLength_append]
  exact Nat.le_add_right _ _

theorem byteLength_eq_zero : byteLength text = 0 ↔ text = [] := by
  cases text with
  | nil => simp [byteLength]
  | cons c rest =>
    have := c.utf8Size_pos
    simp only [byteLength, reduceCtorEq, iff_false]
    omega

/-- The bytes of a beginning of the text end between two characters. -/
theorem isValid_of_starts (h : before <+: source.toList) :
    (⟨byteLength before⟩ : String.Pos.Raw).IsValid source := by
  obtain ⟨after, whole⟩ := h
  refine String.Pos.Raw.isValid_iff_exists_append.2 ⟨.ofList before, .ofList after, ?_, ?_⟩
  · rw [← String.ofList_append, whole, String.ofList_toList]
  · rw [String.rawEndPos, utf8ByteSize_eq, String.toList_ofList]

/-- The character that begins where a beginning of the text ends. -/
theorem widthAt_append : widthAt (before ++ after) (byteLength before) =
    byteLength (after.take 1) := by
  cases after with
  | cons c rest => simp [widthAt_byteLength, byteLength]
  | nil =>
    induction before with
    | nil => rfl
    | cons c rest ih =>
      have := c.utf8Size_pos
      rw [List.append_nil] at ih
      rw [List.append_nil, widthAt, byteLength, if_neg (by omega), Nat.add_sub_cancel_left, ih]

/-! ### Offsets -/

theorem content_starts (line : List Char) : content line <+: line := by
  have kept := List.dropWhile_suffix (l := line.reverse) isLineEnd
  rw [content, ← List.reverse_suffix, List.reverse_reverse]
  exact kept

/-- What stands before a position is a beginning of the text. -/
theorem exists_prefix_offsetIn (lines : List (List Char)) (line column : Nat) :
    ∃ before, before <+: lines.flatten ∧ offsetIn lines line column = byteLength before := by
  induction lines generalizing line with
  | nil => exact ⟨[], List.nil_prefix, rfl⟩
  | cons text rest ih =>
    rw [offsetIn, List.flatten_cons]
    split
    · refine ⟨_, ?_, rfl⟩
      exact ((List.take_prefix _ _).trans (content_starts text)).trans (List.prefix_append _ _)
    · obtain ⟨before, starts, bytes⟩ := ih (line - 1)
      refine ⟨text ++ before, (List.prefix_append_right_inj text).2 starts, ?_⟩
      rw [bytes, byteLength_append]

theorem exists_prefix_byteOffset (source : String) (line column : UInt32) :
    ∃ before, before <+: source.toList ∧ byteOffset source line column = byteLength before := by
  have whole := flatten_divide (fun c _ => c == '\n') source.toList
  obtain ⟨before, starts, bytes⟩ :=
    exists_prefix_offsetIn (splitLines source.toList) line.toNat column.toNat
  exact ⟨before, whole ▸ starts, bytes⟩

/-- Within a line, a later column does not lead further back. -/
theorem byteLength_take_mono (h : column ≤ column') (text : List Char) :
    byteLength (text.take column) ≤ byteLength (text.take column') :=
  byteLength_le_of_starts (List.take_prefix_take_left h)

/-- No position on the first line lies behind the line. -/
theorem offsetIn_one_le (text : List Char) (rest : List (List Char)) (column : Nat) :
    offsetIn (text :: rest) 1 column ≤ byteLength text :=
  byteLength_le_of_starts ((List.take_prefix _ _).trans (content_starts text))

/-- Later positions lead no further back. Lines are counted from one; what is called line zero is
none, and stands for the end of the text. -/
theorem offsetIn_mono (lines : List (List Char)) (first : 1 ≤ line)
    (later : line < line' ∨ line = line' ∧ column ≤ column') :
    offsetIn lines line column ≤ offsetIn lines line' column' := by
  induction lines generalizing line line' with
  | nil => exact Nat.le_refl 0
  | cons text rest ih =>
    by_cases here : line = 1
    · subst here
      rcases later with below | ⟨rfl, right⟩
      · calc offsetIn (text :: rest) 1 column
          _ ≤ byteLength text := offsetIn_one_le text rest column
          _ ≤ byteLength text + offsetIn rest (line' - 1) column' := Nat.le_add_right _ _
          _ = offsetIn (text :: rest) line' column' := by rw [offsetIn, if_neg (by omega)]
      · exact byteLength_take_mono (Nat.sub_le_sub_right right 1) _
    · rw [offsetIn, offsetIn, if_neg here, if_neg (by omega)]
      exact Nat.add_le_add_left (ih (by omega) (by omega)) _

/-! ### Ranges -/

/-- A range ends where a beginning of the text ends, that is not shorter than what stands before
the range, and longer unless nothing of the text is left. -/
theorem exists_prefixes_byteRange (source : String) (l : Location) :
    ∃ before covered after, source.toList = before ++ covered ++ after ∧
      byteRange source l = ⟨byteLength before, byteLength (before ++ covered)⟩ ∧
      (covered = [] → after = []) := by
  obtain ⟨before, ⟨rest, whole⟩, start⟩ := exists_prefix_byteOffset source l.line l.column
  obtain ⟨upTo, ⟨rest', whole'⟩, stop⟩ := exists_prefix_byteOffset source l.endLine l.endColumn
  rw [byteRange, start, stop]
  split
  · rename_i longer
    -- Both are beginnings of one text, and the one with more bytes is the longer one.
    have nested : before <+: upTo := by
      refine (List.prefix_or_prefix_of_prefix ⟨rest, whole⟩ ⟨rest', whole'⟩).resolve_right ?_
      exact fun h => absurd (byteLength_le_of_starts h) (Nat.not_le.2 longer)
    obtain ⟨covered, rfl⟩ := nested
    refine ⟨before, covered, rest', whole'.symm, rfl, fun none => ?_⟩
    simp [none] at longer
  · refine ⟨before, rest.take 1, rest.drop 1, ?_, ?_, fun none => ?_⟩
    · rw [List.append_assoc, List.take_append_drop, whole]
    · rw [← whole, widthAt_append, byteLength_append]
    · cases rest with
      | nil => rfl
      | cons => cases none

/-- Every range lies in the text, between two characters at each of its ends, whatever the numbers
of the place are, and positions are in order. -/
theorem byteRange_isValid (source : String) (l : Location) :
    ((byteRange source l).start ≤ (byteRange source l).stop ∧
      (byteRange source l).stop ≤ source.utf8ByteSize ∧
      (⟨(byteRange source l).start⟩ : String.Pos.Raw).IsValid source ∧
      (⟨(byteRange source l).stop⟩ : String.Pos.Raw).IsValid source ∧
      ((byteRange source l).start = (byteRange source l).stop ↔
        (byteRange source l).start = source.utf8ByteSize)) ∧
    ∀ line column line' column' : UInt32, 1 ≤ line →
      line < line' ∨ line = line' ∧ column ≤ column' →
      byteOffset source line column ≤ byteOffset source line' column' := by
  obtain ⟨before, covered, after, whole, range, none⟩ := exists_prefixes_byteRange source l
  have size : source.utf8ByteSize = byteLength before + byteLength covered + byteLength after := by
    rw [utf8ByteSize_eq, whole, byteLength_append, byteLength_append]
  simp only [range]
  refine ⟨⟨?_, ?_, ?_, ?_, ?_⟩, fun line column line' column' first later => ?_⟩
  · exact byteLength_le_of_starts (List.prefix_append _ _)
  · rw [size, byteLength_append]
    exact Nat.le_add_right _ _
  · exact isValid_of_starts ⟨covered ++ after, by rw [whole, List.append_assoc]⟩
  · exact isValid_of_starts ⟨after, whole.symm⟩
  · rw [size, byteLength_append]
    constructor
    · intro same
      have covered_nil : covered = [] := byteLength_eq_zero.1 (by omega)
      simp [covered_nil, none covered_nil, byteLength]
    · intro atEnd
      omega
  · refine offsetIn_mono _ (UInt32.le_iff_toNat_le.1 first) (later.imp UInt32.lt_iff_toNat_lt.1 ?_)
    exact And.imp (congrArg UInt32.toNat) UInt32.le_iff_toNat_le.1

/-- A place behind the end of a line is the carriage return there, which is before the next line. -/
theorem byteRange_isValid_umlaut :
    byteRange "ä\r\nb" ⟨0, 1, 9, 1, 0⟩ = ⟨2, 3⟩ ∧
      (⟨2⟩ : String.Pos.Raw).IsValid "ä\r\nb" ∧ (⟨3⟩ : String.Pos.Raw).IsValid "ä\r\nb" ∧
      byteOffset "ä\r\nb" 1 9 ≤ byteOffset "ä\r\nb" 2 0 := by
  have range : byteRange "ä\r\nb" ⟨0, 1, 9, 1, 0⟩ = ⟨2, 3⟩ := by decide +kernel
  obtain ⟨⟨-, -, start, stop, -⟩, mono⟩ := byteRange_isValid "ä\r\nb" ⟨0, 1, 9, 1, 0⟩
  rw [range] at start stop
  exact ⟨range, start, stop, mono 1 9 2 0 (by decide) (.inl (by decide))⟩

end AblResolve.Source
