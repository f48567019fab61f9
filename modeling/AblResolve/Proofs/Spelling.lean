import AblResolve.Catalog.Basic
import AblResolve.ClassInfo.Basic
import AblResolve.Text.Numeral
import Mathlib.Data.List.Induction
import Mathlib.Data.List.TakeDrop
/-!
The spelling of names. Two spellings of a name have as many bytes, the same dots and the same
digits, and stand for the same candidate, the same catalog table and the same class.
-/
namespace AblResolve

namespace Text

/-! ### Characters -/

/-- Only the capitals of ASCII have another character as their lower case. -/
theorem toLower_cases (c : Char) : c.toLower = c ∨
    65 ≤ c.toNat ∧ c.toNat ≤ 90 ∧ c.toLower.toNat = c.toNat + 32 := by
  unfold Char.toLower
  split
  · rename_i h
    have least : 65 ≤ c.toNat := by simpa [UInt32.le_iff_toNat_le] using h.1
    have most : c.toNat ≤ 90 := by simpa [UInt32.le_iff_toNat_le] using h.2
    refine .inr ⟨least, most, ?_⟩
    show (c.val + _).toNat = c.val.toNat + 32
    rw [UInt32.toNat_add]
    simp
    omega
  · exact .inl rfl

theorem toLower_toLower (c : Char) : c.toLower.toLower = c.toLower := by
  rcases toLower_cases c.toLower with h | h
  · exact h
  · rcases toLower_cases c with hc | hc
    · rw [hc, hc]
    · omega

/-- Signs and digits have one spelling. -/
theorem toLower_eq_iff {c d : Char} (hd : d.toNat < 65) : c.toLower = d ↔ c = d := by
  rcases toLower_cases c with h | h
  · rw [h]
  · constructor
    · rintro rfl
      omega
    · rintro rfl
      omega

theorem isDigit_toLower (c : Char) : c.toLower.isDigit = c.isDigit := by
  rcases toLower_cases c with h | h
  · rw [h]
  · have digit : ∀ d : Char, 65 ≤ d.toNat → d.isDigit = false := by
      intro d hd
      refine Bool.eq_false_iff.2 fun hdigit => ?_
      simp only [Char.isDigit, Bool.and_eq_true, decide_eq_true_eq, UInt32.le_iff_toNat_le]
        at hdigit
      have : d.toNat ≤ 57 := hdigit.2
      omega
    rw [digit _ (by omega), digit _ (by omega)]

theorem toLower_of_isDigit {c : Char} (h : c.isDigit = true) : c.toLower = c := by
  simp only [Char.isDigit, Bool.and_eq_true, decide_eq_true_eq, UInt32.le_iff_toNat_le] at h
  have : c.toNat ≤ 57 := h.2
  exact (toLower_eq_iff (by omega)).2 rfl

theorem utf8Size_toLower (c : Char) : c.toLower.utf8Size = c.utf8Size := by
  rcases toLower_cases c with h | h
  · rw [h]
  · have one : ∀ d : Char, d.toNat ≤ 127 → d.utf8Size = 1 := by
      intro d hd
      have : d.val ≤ 127 := by
        rw [UInt32.le_iff_toNat_le]
        exact hd
      exact if_pos this
    rw [one _ (by omega), one _ (by omega)]

/-! ### Folded names -/

theorem fold_fold (a : String) : fold (fold a) = fold a := by
  rw [fold, fold, String.map_map]
  congr
  funext c
  exact toLower_toLower c

theorem fold_eq_empty {a : String} : fold a = "" ↔ a = "" := by
  rw [← String.toList_inj, ← String.toList_inj, fold, String.toList_map]
  exact List.map_eq_nil_iff

theorem utf8ByteSize_fold (a : String) : (fold a).utf8ByteSize = a.utf8ByteSize := by
  have sizes : ∀ cs : List Char,
      (String.ofList (cs.map Char.toLower)).utf8ByteSize = (String.ofList cs).utf8ByteSize := by
    intro cs
    induction cs using List.reverseRecOn with
    | nil => rfl
    | append_singleton cs c ih =>
      have push : ∀ (ds : List Char) (d : Char),
          String.ofList (ds ++ [d]) = (String.ofList ds).push d := by
        intro ds d
        rw [← String.toList_inj]
        simp
      rw [List.map_append, List.map_singleton, push, push, String.utf8ByteSize_push,
        String.utf8ByteSize_push, ih, utf8Size_toLower]
  have hfold : fold a = String.ofList (a.toList.map Char.toLower) := by
    rw [← String.toList_inj, String.toList_ofList, fold, String.toList_map]
  rw [hfold, sizes, String.ofList_toList]

theorem same_fold (a b : String) : same a (fold b) = same a b := by
  simp [same, fold_fold]

theorem same_congr {a a' b b' : String} (ha : fold a = fold a') (hb : fold b = fold b') :
    same a b = same a' b' := by
  rw [same, same, ha, hb]

/-! ### Dots and digits -/

section Map

variable {f : Char → Char} (dot : ∀ c, f c = '.' ↔ c = '.')
include dot

theorem span_map (cs : List Char) : (cs.map f).span (· != '.') =
    ((cs.span (· != '.')).1.map f, (cs.span (· != '.')).2.map f) := by
  have same : ((· != '.') ∘ f) = (· != '.') := by
    funext c
    simp [bne, beq_eq_decide, dot]
  rw [List.span_eq_takeWhile_dropWhile, List.span_eq_takeWhile_dropWhile, List.takeWhile_map,
    List.dropWhile_map, same]

theorem splitFirst?_map (name : String) : splitFirst? (name.map f) =
    (splitFirst? name).map fun p => (p.1.map f, p.2.map f) := by
  unfold splitFirst?
  rw [String.toList_map, span_map dot]
  rcases name.toList.span (· != '.') with ⟨before, _ | ⟨c, after⟩⟩
  · rfl
  · simp [← String.toList_inj]

theorem splitLast?_map (name : String) : splitLast? (name.map f) =
    (splitLast? name).map fun p => (p.1.map f, p.2.map f) := by
  unfold splitLast?
  rw [String.toList_map, ← List.map_reverse, span_map dot]
  rcases name.toList.reverse.span (· != '.') with ⟨after, _ | ⟨c, before⟩⟩
  · rfl
  · simp [← String.toList_inj]

theorem lastSegment_map (name : String) : lastSegment (name.map f) = (lastSegment name).map f := by
  unfold lastSegment
  rw [splitLast?_map dot]
  cases splitLast? name <;> rfl

end Map

theorem toLower_eq_dot (c : Char) : c.toLower = '.' ↔ c = '.' := toLower_eq_iff (by decide)

theorem digitsValue?_map (cs : List Char) :
    digitsValue? (cs.map Char.toLower) = digitsValue? cs := by
  by_cases h : cs.all Char.isDigit = true
  · have same : cs.map Char.toLower = cs := by
      refine (List.map_congr_left fun c hc => ?_).trans (List.map_id cs)
      exact toLower_of_isDigit (List.all_eq_true.1 h c hc)
    rw [same]
  · have h' : ¬ (cs.map Char.toLower).all Char.isDigit = true := by
      simpa [List.all_map, Function.comp_def, isDigit_toLower] using h
    simp [digitsValue?, h, h']

/-- A numeral without a sign. -/
theorem numeralValue?_plain {a : String} (h : ∀ digits, a.toList ≠ '+' :: digits) :
    numeralValue? a = digitsValue? a.toList := by
  unfold numeralValue?
  split
  · rename_i heq
    exact absurd heq (h _)
  · rfl

theorem numeralValue?_fold (a : String) : numeralValue? (fold a) = numeralValue? a := by
  have folded : (fold a).toList = a.toList.map Char.toLower := by rw [fold, String.toList_map]
  by_cases h : ∃ digits, a.toList = '+' :: digits
  · obtain ⟨digits, h⟩ := h
    unfold numeralValue?
    rw [folded, h]
    exact digitsValue?_map digits
  · have plain := not_exists.1 h
    rw [numeralValue?_plain plain, numeralValue?_plain, folded, digitsValue?_map]
    intro digits heq
    rw [folded] at heq
    obtain ⟨c, cs, hcs, hc, -⟩ := List.map_eq_cons_iff.1 heq
    rw [(toLower_eq_iff (by decide)).1 hc] at hcs
    exact plain cs hcs

/-! ### Candidates -/

/-- A list of candidates by their folded names. -/
def foldKeys {α : Type} (candidates : List (String × α)) : List (String × α) :=
  candidates.map fun c => (fold c.1, c.2)

theorem matchName_fold {α : Type} (name : String) (candidates : List (String × α))
    (mayAbbreviate : Bool) :
    matchName (fold name) (foldKeys candidates) mayAbbreviate =
      matchName name candidates mayAbbreviate := by
  have sameFold : ∀ c : String × α, same (fold c.1) (fold name) = same c.1 name := fun c =>
    same_congr (fold_fold _) (fold_fold _)
  have abbreviatesFold : ∀ c : String × α,
      abbreviates (fold name) (fold c.1) = abbreviates name c.1 := by
    intro c
    simp [abbreviates, utf8ByteSize_fold, fold_fold]
  have named : (fold name != "") = (name != "") := by
    simp [bne, beq_eq_decide, fold_eq_empty]
  unfold matchName foldKeys
  rw [List.find?_map, List.filter_map, named]
  simp only [Function.comp_def, sameFold, abbreviatesFold]
  cases candidates.find? fun c => same c.1 name with
  | some c => rfl
  | none =>
    simp only [Option.map_none]
    generalize candidates.filter (fun c => abbreviates name c.1) = found
    rcases found with _ | ⟨c, _ | ⟨d, rest⟩⟩ <;> rfl

theorem matchName_congr {α : Type} {name name' : String}
    {candidates candidates' : List (String × α)} {mayAbbreviate : Bool}
    (hname : fold name = fold name') (h : foldKeys candidates = foldKeys candidates') :
    matchName name candidates mayAbbreviate = matchName name' candidates' mayAbbreviate := by
  rw [← matchName_fold, ← matchName_fold name', hname, h]

end Text

/-! ### Catalogs and classes -/

theorem Catalog.table?_fold (c : Catalog) (name : String) :
    c.table? (Text.fold name) = c.table? name := by
  have database : ∀ name, c.database? (Text.fold name) = c.database? name := by
    intro name
    simp [Catalog.database?, Text.same_fold]
  have entries : c.candidates? (Text.fold name) =
      (c.candidates? name).map fun p => (p.1, Text.fold p.2) := by
    unfold Catalog.candidates?
    rw [Text.fold, Text.splitFirst?_map Text.toLower_eq_dot]
    rcases Text.splitFirst? name with _ | ⟨before, after⟩
    · rfl
    · show (c.database? (Text.fold before)).map _ = ((c.database? before).map _).map _
      rw [database, Option.map_map]
      rfl
  unfold Catalog.table?
  rw [entries]
  rcases c.candidates? name with _ | ⟨entries, tableName⟩
  · rfl
  · show (Text.matchName (Text.fold tableName) entries true).map _ =
      (Text.matchName tableName entries true).map _
    rw [Text.matchName_congr (Text.fold_fold tableName) rfl]

theorem Catalog.table?_congr (c : Catalog) {a b : String} (h : Text.fold a = Text.fold b) :
    c.table? a = c.table? b := by
  rw [← c.table?_fold, h, c.table?_fold]

theorem TypeRegistry.find?_congr (r : TypeRegistry) {a b : String} (h : Text.fold a = Text.fold b) :
    r.find? a = r.find? b := by
  unfold TypeRegistry.find?
  simp only [Text.same_congr rfl h]

end AblResolve
