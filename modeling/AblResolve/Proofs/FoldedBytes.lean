import AblResolve.Proofs.Spelling
import AblResolve.Text.Bytes
/-!
Names by their bytes. Only bytes of ASCII capitals change when a name is folded, so folding the
bytes is folding the characters: two spellings of a name have the same folded bytes, and a name
abbreviates another if its folded bytes are the first ones of the other's.
-/
namespace AblResolve.Text

variable {a b name full : String}

/-! ### Bytes and characters -/

theorem bytes_eq (s : String) : bytes s = s.toList.flatMap String.utf8EncodeChar := by
  rw [bytes, ← String.utf8Encode_toList, List.utf8Encode, List.data_toByteArray]

theorem length_bytes (s : String) : (bytes s).length = s.utf8ByteSize := by
  rw [bytes, Array.length_toList, ← String.size_toByteArray]
  rfl

theorem bytes_append (a b : String) : bytes (a ++ b) = bytes a ++ bytes b := by
  rw [bytes_eq, bytes_eq, bytes_eq, String.toList_append, List.flatMap_append]

theorem bytes_inj : bytes a = bytes b ↔ a = b := by
  rw [bytes, bytes, Array.toList_inj, ← String.toByteArray_inj]
  exact ⟨ByteArray.ext, congrArg _⟩

/-- What begins with the bytes of a text begins with its characters, since a text ends where a
character ends. -/
theorem starts_of_bytes (h : bytes a <+: bytes b) : a.toList <+: b.toList := by
  have taken : bytes a = (bytes b).take a.utf8ByteSize := by
    rw [← length_bytes a]
    exact List.prefix_iff_eq_take.1 h
  have first : b.toByteArray.extract 0 a.utf8ByteSize = a.toByteArray :=
    ByteArray.ext (Array.toList_inj.1 (by simpa [bytes] using taken.symm))
  have valid : (⟨a.utf8ByteSize⟩ : String.Pos.Raw).IsValid b := by
    refine String.Pos.Raw.isValid_iff_isValidUTF8_extract_zero.2 ⟨?_, ?_⟩
    · simpa [String.Pos.Raw.le_iff, length_bytes] using h.length_le
    · rw [first]
      exact a.isValidUTF8
  obtain ⟨s, rest, rfl, size⟩ := String.Pos.Raw.isValid_iff_exists_append.1 valid
  have size : a.utf8ByteSize = s.utf8ByteSize := congrArg String.Pos.Raw.byteIdx size
  rw [size, bytes_append, ← length_bytes s, List.take_left] at taken
  rw [bytes_inj.1 taken, String.toList_append]
  exact List.prefix_append _ _

theorem bytes_prefix_iff : bytes a <+: bytes b ↔ a.toList <+: b.toList := by
  refine ⟨starts_of_bytes, ?_⟩
  rintro ⟨rest, whole⟩
  rw [bytes_eq, bytes_eq, ← whole, List.flatMap_append]
  exact List.prefix_append _ _

/-! ### Folding -/

theorem toNat_toLower (c : Char) :
    c.toLower.toNat = if 65 ≤ c.toNat ∧ c.toNat ≤ 90 then c.toNat + 32 else c.toNat := by
  rcases toLower_cases c with same | ⟨least, most, lower⟩
  · rw [same, if_neg]
    rintro ⟨least, most⟩
    have capital : c.val ≥ 'A'.val ∧ c.val ≤ 'Z'.val :=
      ⟨UInt32.le_iff_toNat_le.2 least, UInt32.le_iff_toNat_le.2 most⟩
    have moved : c.toLower.toNat = c.toNat + 32 := by
      unfold Char.toLower
      rw [dif_pos capital]
      show (c.val + _).toNat = c.val.toNat + 32
      rw [UInt32.toNat_add]
      have : c.val.toNat ≤ 90 := most
      simp
      omega
    rw [same] at moved
    omega
  · rw [lower, if_pos ⟨least, most⟩]

theorem lowerByte_ofNat {n : Nat} (h : n < 256) : lowerByte (.ofNat n) =
    .ofNat (if 65 ≤ n ∧ n ≤ 90 then n + 32 else n) := by
  have value : (UInt8.ofNat n).toNat = n := UInt8.toNat_ofNat_of_lt' h
  have capital : 65 ≤ UInt8.ofNat n ∧ UInt8.ofNat n ≤ 90 ↔ 65 ≤ n ∧ n ≤ 90 := by
    rw [UInt8.le_iff_toNat_le, UInt8.le_iff_toNat_le, value]
    rfl
  rw [lowerByte]
  simp only [capital]
  split
  · rw [UInt8.ofNat_add]
    rfl
  · rfl

/-- The bytes of longer characters are no letters. -/
theorem lowerByte_ofNat_high {n : Nat} (least : 128 ≤ n) (most : n < 256) :
    lowerByte (.ofNat n) = .ofNat n := by
  rw [lowerByte_ofNat most, if_neg (by omega)]

theorem map_lowerByte_utf8EncodeChar (c : Char) :
    (String.utf8EncodeChar c).map lowerByte = String.utf8EncodeChar c.toLower := by
  have lower := toNat_toLower c
  unfold Char.toNat at lower
  by_cases ascii : c.val.toNat ≤ 127
  · have still : c.toLower.val.toNat ≤ 127 := by
      rw [lower]
      split <;> omega
    rw [String.utf8EncodeChar, String.utf8EncodeChar]
    simp only [if_pos ascii, if_pos still, List.map_cons, List.map_nil]
    rw [lowerByte_ofNat (by omega), lower]
  · have same : c.toLower = c := by
      refine (toLower_cases c).resolve_right fun letter => ?_
      have : c.val.toNat ≤ 90 := letter.2.1
      omega
    have high : ∀ {n}, 128 ≤ n → n < 256 → lowerByte (.ofNat n) = .ofNat n := lowerByte_ofNat_high
    rw [same, String.utf8EncodeChar]
    simp only [if_neg ascii]
    split
    · simp only [List.map_cons, List.map_nil]
      rw [high (by omega) (by omega), high (by omega) (by omega)]
    · split
      · simp only [List.map_cons, List.map_nil]
        rw [high (by omega) (by omega), high (by omega) (by omega), high (by omega) (by omega)]
      · simp only [List.map_cons, List.map_nil]
        rw [high (by omega) (by omega), high (by omega) (by omega), high (by omega) (by omega),
          high (by omega) (by omega)]

theorem foldedBytes_eq (name : String) : foldedBytes name = bytes (fold name) := by
  rw [foldedBytes, bytes_eq, bytes_eq, fold, String.toList_map, List.map_flatMap, List.flatMap_map]
  simp only [map_lowerByte_utf8EncodeChar]

theorem length_foldedBytes (name : String) : (foldedBytes name).length = name.utf8ByteSize := by
  rw [foldedBytes, List.length_map, length_bytes]

/-! ### Names -/

/-- Names are the same if their folded bytes are. -/
theorem same_iff_foldedBytes : same a b = true ↔ foldedBytes a = foldedBytes b := by
  rw [foldedBytes_eq, foldedBytes_eq, bytes_inj, same_iff]

/-- A name abbreviates one that has more bytes, if those of the name are the first of them. -/
theorem abbreviates_iff_foldedBytes : abbreviates name full = true ↔
    name.utf8ByteSize < full.utf8ByteSize ∧ foldedBytes name <+: foldedBytes full := by
  rw [abbreviates, Bool.and_eq_true, decide_eq_true_eq, List.isPrefixOf_iff_prefix,
    ← bytes_prefix_iff, ← foldedBytes_eq, ← foldedBytes_eq]

end AblResolve.Text
