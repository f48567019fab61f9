import AblResolve.Source.Offset
import AblResolve.Tree.Token
import Mathlib.Order.MinMax
/-!
What a report underlines. A token ends at the column of its last character, but the bytes of a
place go up to its last column and without it. So a token is underlined from where it begins up to
its last character, and only a token of one character in full, since the bytes of a place that
covers nothing are widened to one character.
-/
namespace AblResolve

open Source

namespace Source

/-! ### Bytes and characters -/

@[simp] theorem byteLength_append (xs ys : List Char) :
    byteLength (xs ++ ys) = byteLength xs + byteLength ys := by
  induction xs with
  | nil => simp [byteLength]
  | cons c rest ih => simp [byteLength, ih, Nat.add_assoc]

/-- Characters have bytes, so fewer characters of a text are fewer bytes. -/
theorem byteLength_take_lt {xs : List Char} {n : Nat} (h : n < xs.length) :
    byteLength (xs.take n) < byteLength xs := by
  have whole := congrArg byteLength (List.take_append_drop n xs)
  obtain ⟨c, rest, hdrop⟩ : ∃ c rest, xs.drop n = c :: rest :=
    List.exists_cons_of_ne_nil (List.drop_eq_nil_iff.not.2 (Nat.not_le.2 h))
  rw [byteLength_append, hdrop, byteLength] at whole
  have := c.utf8Size_pos
  omega

theorem byteLength_take_eq_iff {xs : List Char} {n : Nat} :
    byteLength (xs.take n) = byteLength xs ↔ xs.length ≤ n := by
  constructor
  · intro same
    by_contra short
    exact (byteLength_take_lt (Nat.lt_of_not_le short)).ne same
  · intro all
    rw [List.take_of_length_le all]

theorem widthAt_byteLength (xs rest : List Char) (c : Char) :
    widthAt (xs ++ c :: rest) (byteLength xs) = c.utf8Size := by
  induction xs with
  | nil => simp [widthAt, byteLength]
  | cons x xs ih =>
    have := x.utf8Size_pos
    rw [List.cons_append, widthAt, byteLength, if_neg (by omega), Nat.add_sub_cancel_left, ih]

/-! ### Offsets -/

/-- What ends a line is after the last character that is no line end. -/
theorem content_append {text : List Char} (before after : List Char) (nonempty : text ≠ [])
    (plain : ∀ c ∈ text, isLineEnd c = false) :
    content (before ++ text ++ after) = before ++ text ++ content after := by
  obtain ⟨last, front, htext⟩ := List.exists_cons_of_ne_nil (mt List.reverse_eq_nil_iff.1 nonempty)
  have own : isLineEnd last = false := plain last (List.mem_reverse.1 (by simp [htext]))
  have kept : (text.reverse ++ before.reverse).dropWhile isLineEnd
      = text.reverse ++ before.reverse := by
    simp [htext, own]
  have dropped : (after.reverse ++ (text.reverse ++ before.reverse)).dropWhile isLineEnd
      = after.reverse.dropWhile isLineEnd ++ (text.reverse ++ before.reverse) := by
    rw [List.dropWhile_append, kept]
    split
    · rename_i all
      rw [List.isEmpty_iff.1 all, List.nil_append]
    · rfl
  simp [content, dropped]

theorem offsetIn_append (above : List (List Char)) (line : List Char) (below : List (List Char))
    (column : Nat) :
    offsetIn (above ++ line :: below) (above.length + 1) column
      = byteLength above.flatten + byteLength ((content line).take (column - 1)) := by
  induction above with
  | nil => simp [offsetIn, byteLength]
  | cons first above ih => simp [offsetIn, ih, Nat.add_assoc]

/-! ### Occurrences -/

/-- A place where a text stands in a source, on one line. -/
structure Occurrence (source text : String) where
  above : List (List Char)
  before : List Char
  after : List Char
  below : List (List Char)
  lines : splitLines source.toList = above ++ (before ++ text.toList ++ after) :: below

namespace Occurrence

variable {source text : String}

def start (o : Occurrence source text) : Nat := byteLength o.above.flatten + byteLength o.before

/-- The bytes of the text where it stands. -/
def bytes (o : Occurrence source text) : ByteRange :=
  ⟨o.start, o.start + byteLength text.toList⟩

/-- The occurrence begins at a line and column. -/
structure At (o : Occurrence source text) (line column : UInt32) : Prop where
  line : line.toNat = o.above.length + 1
  column : column.toNat = o.before.length + 1

variable {o : Occurrence source text} {line column : UInt32}

theorem toList_eq (o : Occurrence source text) :
    source.toList
      = o.above.flatten ++ o.before ++ (text.toList ++ (o.after ++ o.below.flatten)) := by
  have whole := flatten_divide (fun c _ => c == '\n') source.toList
  rw [← splitLines, o.lines] at whole
  simpa [List.append_assoc] using whole.symm

/-- The column some characters into the text. -/
theorem byteOffset_add (hat : o.At line column) (nonempty : text.toList ≠ [])
    (plain : ∀ c ∈ text.toList, isLineEnd c = false) {later : UInt32} {steps : Nat}
    (hlater : later.toNat = column.toNat + steps) (inside : steps ≤ text.toList.length) :
    byteOffset source line later = o.start + byteLength (text.toList.take steps) := by
  have cut : (o.before ++ text.toList ++ content o.after).take (later.toNat - 1)
      = o.before ++ text.toList.take steps := by
    have : later.toNat - 1 = o.before.length + steps := by have := hat.column; omega
    rw [this, List.append_assoc, List.take_append, List.take_of_length_le (by omega),
      Nat.add_sub_cancel_left, List.take_append_of_le_length inside]
  rw [byteOffset, o.lines, hat.line, offsetIn_append, content_append _ _ nonempty plain, cut,
    byteLength_append, start, Nat.add_assoc]

end Occurrence

end Source

/-! ### Tokens -/

namespace Token

variable {source text : String} {o : Occurrence source text} {file line column : UInt32}

/-- The characters of a token that a report underlines. -/
def underlined (text : String) : List Char := text.toList.take (max 1 (reach text).toNat)

theorem toNat_reach (text : String) : (reach text).toNat = text.length % UInt32.size - 1 := by
  have : text.length % UInt32.size < UInt32.size := Nat.mod_lt _ (by decide)
  rw [reach, UInt32.toNat_ofNat_of_lt' (by omega)]

theorem reach_lt (nonempty : text ≠ "") : (reach text).toNat < text.length := by
  have : text.length ≠ 0 := fun h => nonempty (by simpa using h)
  have := Nat.mod_le text.length UInt32.size
  rw [toNat_reach]
  omega

theorem underlined_eq_dropLast (short : text.length < UInt32.size) (more : 1 < text.length) :
    underlined text = text.toList.dropLast := by
  rw [underlined, toNat_reach, Nat.mod_eq_of_lt short, max_eq_right (by omega),
    List.dropLast_eq_take, String.length_toList]

theorem byteLength_underlined_iff (nonempty : text ≠ "") :
    byteLength (underlined text) = byteLength text.toList ↔ text.length = 1 := by
  have := reach_lt nonempty
  rw [underlined, byteLength_take_eq_iff, String.length_toList]
  omega

theorem byteRange_location (hat : o.At line column) (nonempty : text ≠ "")
    (plain : ∀ c ∈ text.toList, isLineEnd c = false) {t : Token}
    (hread : read text file line column = .ok t) :
    byteRange source t.location = ⟨o.start, o.start + byteLength (underlined text)⟩ := by
  have chars : text.toList ≠ [] := by simpa using nonempty
  obtain ⟨endColumn, hadvance, ht⟩ : ∃ e, advance column (reach text) = .ok e ∧
      t = { text, file, line, column, endFile := file, endLine := line, endColumn := e } := by
    cases hadvance : advance column (reach text) with
    | error => simp [read, hadvance] at hread
    | ok e => exact ⟨e, rfl, by simpa [read, hadvance] using hread.symm⟩
  have inside : (reach text).toNat ≤ text.toList.length := by
    rw [String.length_toList]
    exact (reach_lt nonempty).le
  have first : byteOffset source line column = o.start := by
    simpa [byteLength] using
      o.byteOffset_add hat chars plain (column.toNat.add_zero).symm (Nat.zero_le _)
  have last := o.byteOffset_add hat chars plain (toNat_of_advance hadvance) inside
  obtain ⟨c, rest, hcons⟩ := List.exists_cons_of_ne_nil chars
  rw [byteRange, ht, location, Location.point, Location.withEnd]
  simp only [first, last]
  by_cases one : (reach text).toNat = 0
  · -- The token's last column is its first, and so the place covers nothing.
    have width : widthAt source.toList o.start = c.utf8Size := by
      rw [o.toList_eq, hcons, Occurrence.start, ← byteLength_append]
      exact widthAt_byteLength _ _ _
    simp [underlined, one, hcons, byteLength, width]
  · have : max 1 (reach text).toNat = (reach text).toNat := by omega
    have pos : 0 < byteLength (text.toList.take (reach text).toNat) := by
      have := c.utf8Size_pos
      obtain ⟨n, hn⟩ := Nat.exists_eq_succ_of_ne_zero one
      rw [hcons, hn, List.take_succ_cons, byteLength]
      omega
    rw [if_pos (by omega), underlined, this]

/-- A report underlines a token from its first character on, but the last character only if it is
the first, too; the token cannot be read if its last column is none. -/
theorem byteRange_of_read (o : Occurrence source text) (file : UInt32) (hat : o.At line column)
    (nonempty : text ≠ "") (plain : ∀ c ∈ text.toList, isLineEnd c = false) :
    (∀ t, read text file line column = .ok t →
      byteRange source t.location = ⟨o.start, o.start + byteLength (underlined text)⟩ ∧
      (byteRange source t.location = o.bytes ↔ text.length = 1)) ∧
    (read text file line column = .error .overflow ↔
      UInt32.size ≤ column.toNat + (reach text).toNat) ∧
    (text.length < UInt32.size →
      underlined text = if text.length = 1 then text.toList else text.toList.dropLast) := by
  refine ⟨fun t hread => ?_, ?_, fun short => ?_⟩
  · have bytes := byteRange_location hat nonempty plain hread
    refine ⟨bytes, ?_⟩
    rw [bytes, Occurrence.bytes, ByteRange.mk.injEq, Nat.add_left_cancel_iff,
      byteLength_underlined_iff nonempty]
    simp
  · by_cases fits : column.toNat + (reach text).toNat < UInt32.size
    · simp [read, advance, fits]
    · simpa [read, advance, fits] using Nat.le_of_not_lt fits
  · have some : text.length ≠ 0 := fun h => nonempty (by simpa using h)
    split
    · rename_i one
      rw [underlined, List.take_of_length_le (by rw [String.length_toList, one]; omega)]
    · exact underlined_eq_dropLast short (by omega)

/-- The name in `FIND customr.` -/
def misspelt : Occurrence "FIND customr.\n" "customr" where
  above := []
  before := "FIND ".toList
  after := ".\n".toList
  below := []
  lines := by decide +kernel

/-- The underline of a misspelt name goes up to its last letter and without it. -/
theorem byteRange_of_read_misspelt :
    ∃ t, read "customr" 0 1 6 = .ok t ∧
      byteRange "FIND customr.\n" t.location = ⟨5, 11⟩ ∧
      misspelt.bytes = ⟨5, 12⟩ ∧ byteRange "FIND customr.\n" t.location ≠ misspelt.bytes := by
  have plain : "customr".toList.all (isLineEnd · = false) = true := by decide +kernel
  have parts := byteRange_of_read misspelt 0
    (⟨by decide +kernel, by decide +kernel⟩ : misspelt.At 1 6) (by decide) (by simpa using plain)
  have fits : ¬ UInt32.size ≤ (6 : UInt32).toNat + (reach "customr").toNat := by decide +kernel
  cases hread : read "customr" 0 1 6 with
  | error fault =>
    cases fault
    exact absurd (parts.2.1.1 hread) fits
  | ok t =>
    obtain ⟨bytes, whole⟩ := parts.1 t hread
    refine ⟨t, rfl, ?_, by decide +kernel, fun same => ?_⟩
    · rw [bytes]
      decide +kernel
    · exact absurd (whole.1 same) (by decide +kernel)

end Token

end AblResolve
