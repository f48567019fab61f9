import AblResolve.Catalog.Sample
import AblResolve.Proofs.Abbreviations
import AblResolve.Proofs.FoldedBytes
/-!
What names stand for in a list of candidates. A candidate that is spelled like the name comes before
all that begin with it, and among these there has to be a single one. So an abbreviation stays good
when it is made longer: whatever else begins with the longer name, or is spelled like it, begins
with the shorter one, too. Names with a dot divide at it and are not made longer by it.
-/
namespace AblResolve

namespace Text

variable {α : Type} {name longer full : String} {candidates before after : List (String × α)}
  {item : α} {mayAbbreviate : Bool} {found : Option (Match α)}

/-! ### Candidates -/

/-- The two names are spelled alike, up to the case of ASCII letters. -/
def Spells (name full : String) : Prop := foldedBytes full = foldedBytes name

/-- The full name has more bytes than the name and begins with it up to the case of letters. -/
def Begins (name full : String) : Prop :=
  name.utf8ByteSize < full.utf8ByteSize ∧ foldedBytes name <+: foldedBytes full

/-- The candidate is the only entry of the list that begins with the name. -/
def Sole (name full : String) (item : α) (candidates : List (String × α)) : Prop :=
  ∃ before after, candidates = before ++ (full, item) :: after ∧ Begins name full ∧
    ∀ c ∈ before ++ after, ¬ Begins name c.1

/-- What a name stands for: the first candidate spelled like it, or else the only one that begins
with it, if names may be abbreviated and the name is not empty. -/
inductive StandsFor (name : String) (candidates : List (String × α)) (mayAbbreviate : Bool) :
    Option (Match α) → Prop
  | spelled {before after : List (String × α)} {full : String} {item : α}
      (split : candidates = before ++ (full, item) :: after) (spells : Spells name full)
      (first : ∀ c ∈ before, ¬ Spells name c.1) :
      StandsFor name candidates mayAbbreviate (some ⟨item, false⟩)
  | abbreviated {full : String} {item : α} (unspelled : ∀ c ∈ candidates, ¬ Spells name c.1)
      (allowed : mayAbbreviate = true) (nonempty : name ≠ "")
      (sole : Sole name full item candidates) :
      StandsFor name candidates mayAbbreviate (some ⟨item, true⟩)
  | nothing (unspelled : ∀ c ∈ candidates, ¬ Spells name c.1)
      (noSole : mayAbbreviate = true → name ≠ "" → ∀ full item, ¬ Sole name full item candidates) :
      StandsFor name candidates mayAbbreviate none

theorem same_iff_spells : same full name = true ↔ Spells name full := same_iff_foldedBytes

theorem abbreviates_iff_begins : abbreviates name full = true ↔ Begins name full :=
  abbreviates_iff_foldedBytes

instance (name full : String) : Decidable (Spells name full) :=
  decidable_of_iff _ same_iff_spells

instance (name full : String) : Decidable (Begins name full) :=
  decidable_of_iff _ abbreviates_iff_begins

theorem filter_eq_singleton_iff {β : Type} {p : β → Bool} {l : List β} {b : β} :
    l.filter p = [b] ↔ ∃ before after, l = before ++ b :: after ∧ p b = true ∧
      ∀ c ∈ before ++ after, p c = false := by
  rw [List.filter_eq_cons_iff]
  refine exists_congr fun before => exists_congr fun after => and_congr_right fun _ => ?_
  rw [List.filter_eq_nil_iff, List.forall_mem_append]
  simp only [Bool.not_eq_true]
  tauto

theorem find?_unspelled : candidates.find? (fun c => same c.1 name) = none ↔
    ∀ c ∈ candidates, ¬ Spells name c.1 := by
  simp only [List.find?_eq_none, same_iff_spells]

theorem filter_eq_sole : candidates.filter (fun c => abbreviates name c.1) = [(full, item)] ↔
    Sole name full item candidates := by
  rw [filter_eq_singleton_iff, Sole]
  simp only [abbreviates_iff_begins, ← Bool.not_eq_true]

/-- A name stands for what it is matched with. -/
theorem standsFor_matchName (name : String) (candidates : List (String × α))
    (mayAbbreviate : Bool) :
    StandsFor name candidates mayAbbreviate (matchName name candidates mayAbbreviate) := by
  unfold matchName
  cases exact : candidates.find? fun c => same c.1 name with
  | some c =>
    obtain ⟨spells, before, after, split, first⟩ := List.find?_eq_some_iff_append.1 exact
    refine .spelled split (same_iff_spells.1 spells) fun d hd => mt same_iff_spells.2 ?_
    simpa using first d hd
  | none =>
    have unspelled := find?_unspelled.1 exact
    dsimp only
    split
    · rename_i may
      simp only [Bool.and_eq_true, bne_iff_ne] at may
      split
      · rename_i only
        exact .abbreviated unspelled may.1 may.2 (filter_eq_sole.1 only)
      · rename_i other
        exact .nothing unspelled fun _ _ full item sole => other full item (filter_eq_sole.2 sole)
    · rename_i may
      refine .nothing unspelled fun allowed nonempty => absurd ?_ may
      simp [allowed, nonempty]

/-- A name is matched with what it stands for, and so it stands for one thing only. -/
theorem StandsFor.matchName_eq (h : StandsFor name candidates mayAbbreviate found) :
    matchName name candidates mayAbbreviate = found := by
  unfold matchName
  cases h with
  | @spelled before after full item split spells first =>
    have exact : candidates.find? (fun c => same c.1 name) = some (full, item) := by
      refine List.find?_eq_some_iff_append.2 ⟨same_iff_spells.2 spells, before, after, split, ?_⟩
      intro c hc
      simpa using mt same_iff_spells.1 (first c hc)
    rw [exact]
  | abbreviated unspelled allowed nonempty sole =>
    rw [find?_unspelled.2 unspelled, filter_eq_sole.2 sole]
    simp [allowed, nonempty]
  | nothing unspelled noSole =>
    rw [find?_unspelled.2 unspelled]
    dsimp only
    split
    · rename_i may
      simp only [Bool.and_eq_true, bne_iff_ne] at may
      split
      · rename_i only
        exact absurd (filter_eq_sole.1 only) (noSole may.1 may.2 _ _)
      · rfl
    · rfl

theorem matchName_eq_iff : matchName name candidates mayAbbreviate = found ↔
    StandsFor name candidates mayAbbreviate found := by
  refine ⟨fun h => h ▸ standsFor_matchName name candidates mayAbbreviate, fun h => h.matchName_eq⟩

/-! ### Longer abbreviations -/

/-- The longer name goes on from the name towards the full name, and may be the full name. -/
structure Towards (name longer full : String) : Prop where
  begins : Begins name longer
  starts : foldedBytes longer <+: foldedBytes full

theorem Begins.trans_starts (h : Begins name longer)
    (starts : foldedBytes longer <+: foldedBytes full) : Begins name full := by
  refine ⟨Nat.lt_of_lt_of_le h.1 ?_, h.2.trans starts⟩
  simpa only [length_foldedBytes] using starts.length_le

theorem Begins.ne_empty (h : Begins name longer) : longer ≠ "" := by
  rintro rfl
  exact Nat.not_lt_zero _ h.1

/-- What begins with all of another name is spelled like it or goes on. -/
theorem spells_or_begins (h : foldedBytes name <+: foldedBytes full) :
    Spells name full ∨ Begins name full := by
  by_cases shorter : name.utf8ByteSize < full.utf8ByteSize
  · exact .inr ⟨shorter, h⟩
  · refine .inl (h.eq_of_length_le ?_).symm
    rw [length_foldedBytes, length_foldedBytes]
    exact Nat.not_lt.1 shorter

theorem towards_iff : Towards name longer full ↔
    Begins name longer ∧ (Spells longer full ∨ Begins longer full) := by
  refine ⟨fun h => ⟨h.begins, spells_or_begins h.starts⟩, fun h => ⟨h.1, ?_⟩⟩
  rcases h.2 with spells | begins
  · exact spells ▸ List.prefix_refl _
  · exact begins.2

/-- Made longer towards the full name, an abbreviation stands for the same candidate. -/
theorem Sole.towards (sole : Sole name full item candidates) (towards : Towards name longer full) :
    matchName longer candidates true =
      some ⟨item, decide (longer.utf8ByteSize < full.utf8ByteSize)⟩ := by
  obtain ⟨before, after, split, -, others⟩ := sole
  have apart : ∀ c ∈ before ++ after, ¬ foldedBytes longer <+: foldedBytes c.1 :=
    fun c hc starts => others c hc (towards.begins.trans_starts starts)
  rcases spells_or_begins towards.starts with spells | begins
  · have same : longer.utf8ByteSize = full.utf8ByteSize := by
      rw [← length_foldedBytes, ← length_foldedBytes, spells]
    rw [same, decide_eq_false (Nat.lt_irrefl _)]
    refine StandsFor.matchName_eq (.spelled split spells fun c hc alike => ?_)
    exact apart c (List.mem_append_left _ hc) (alike ▸ List.prefix_refl _)
  · rw [decide_eq_true begins.1]
    refine StandsFor.matchName_eq (.abbreviated (fun c hc alike => ?_) rfl towards.begins.ne_empty
      ⟨before, after, split, begins, fun c hc goesOn => apart c hc goesOn.2⟩)
    rw [split] at hc
    rcases List.mem_append.1 hc with hc | hc
    · exact apart c (List.mem_append_left _ hc) (alike ▸ List.prefix_refl _)
    rcases List.mem_cons.1 hc with rfl | hc
    · have : full.utf8ByteSize = longer.utf8ByteSize := by
        rw [← length_foldedBytes, ← length_foldedBytes, alike]
      exact absurd begins.1 (by omega)
    · exact apart c (List.mem_append_right _ hc) (alike ▸ List.prefix_refl _)

/-! ### Names with dots -/

theorem splitFirst?_of_plain (plain : '.' ∉ name.toList) : splitFirst? name = none := by
  rw [splitFirst?, List.span_eq_takeWhile_dropWhile, List.dropWhile_eq_nil_iff.2]
  intro c hc
  have : c ≠ '.' := fun dot => plain (dot ▸ hc)
  simpa using this

theorem splitFirst?_dotted {before : String} (plain : '.' ∉ before.toList) (after : String) :
    splitFirst? (before ++ "." ++ after) = some (before, after) := by
  have own : ∀ c ∈ before.toList, (c != '.') = true := by
    intro c hc
    have : c ≠ '.' := fun dot => plain (dot ▸ hc)
    simpa using this
  have whole : (before ++ "." ++ after).toList = before.toList ++ '.' :: after.toList := by
    rw [String.toList_append, String.toList_append, List.append_assoc]
    rfl
  rw [splitFirst?, whole, List.span_eq_takeWhile_dropWhile, List.takeWhile_append_of_pos own,
    List.dropWhile_append_of_pos own]
  simp

end Text

/-! ### Tables of a catalog -/

namespace Catalog

variable {c : Catalog} {d : Database} {e : Entry} {entries : List (String × Entry)}
  {database name longer : String}

theorem table?_of_plain (plain : '.' ∉ name.toList) : c.table? name =
    (Text.matchName name (c.databases.flatMap Database.entries) true).map (·.item) := by
  rw [table?, candidates?, Text.splitFirst?_of_plain plain]
  rfl

theorem table?_dotted (plain : '.' ∉ database.toList) : c.table? (database ++ "." ++ name) =
    (c.database? database).bind fun d => (Text.matchName name d.entries true).map (·.item) := by
  rw [table?, candidates?, Text.splitFirst?_dotted plain]
  dsimp only
  cases c.database? database <;> rfl

theorem named_of_mem_entries {p : String × Entry} (h : p ∈ d.entries) : p.1 = p.2.table.name := by
  obtain ⟨t, -, rfl⟩ := List.mem_map.1 h
  rfl

/-- A table that is found by an abbreviation is found by the longer ones. -/
theorem item_matchName_towards (named : ∀ p ∈ entries, p.1 = p.2.table.name)
    (h : (Text.matchName name entries true).map (·.item) = some e)
    (unspelled : ¬ Text.Spells name e.table.name)
    (towards : Text.Towards name longer e.table.name) :
    (Text.matchName longer entries true).map (·.item) = some e := by
  obtain ⟨found, hfound, rfl⟩ := Option.map_eq_some_iff.1 h
  cases Text.matchName_eq_iff.1 hfound with
  | spelled split spells first =>
    have := named _ (split ▸ List.mem_append_right _ (List.mem_cons_self ..))
    exact absurd (this ▸ spells) unspelled
  | @abbreviated full item _ _ _ sole =>
    have : full = item.table.name := by
      obtain ⟨before, after, split, -⟩ := sole
      exact named _ (split ▸ List.mem_append_right _ (List.mem_cons_self ..))
    rw [sole.towards (this ▸ towards)]
    rfl

/-- The beginning of a name without dots has none. -/
theorem plain_of_towards {full : String} (plain : '.' ∉ longer.toList)
    (towards : Text.Towards name longer full) : '.' ∉ name.toList :=
  Text.Fits.plain (.inr (Text.abbreviates_iff_begins.2 towards.begins)) plain

theorem table?_towards (h : c.table? name = some e) (unspelled : ¬ Text.Spells name e.table.name)
    (plain : '.' ∉ longer.toList) (towards : Text.Towards name longer e.table.name) :
    c.table? longer = some e := by
  rw [table?_of_plain (plain_of_towards plain towards)] at h
  rw [table?_of_plain plain]
  refine item_matchName_towards (fun p hp => ?_) h unspelled towards
  obtain ⟨d, -, hp⟩ := List.mem_flatMap.1 hp
  exact named_of_mem_entries hp

theorem table?_dotted_towards (plain : '.' ∉ database.toList)
    (h : c.table? (database ++ "." ++ name) = some e)
    (unspelled : ¬ Text.Spells name e.table.name)
    (towards : Text.Towards name longer e.table.name) :
    c.table? (database ++ "." ++ longer) = some e := by
  rw [table?_dotted plain] at h ⊢
  obtain ⟨d, hd, h⟩ := Option.bind_eq_some_iff.1 h
  rw [hd, Option.bind_some]
  exact item_matchName_towards (fun _ => named_of_mem_entries) h unspelled towards

end Catalog

/-! ### Fields -/

namespace UnitIndex

variable {x : UnitIndex} {t : TableId} {f : FieldId} {name : String}

/-- Only fields of catalog tables are found by abbreviations, and longer ones find them, too. -/
theorem fieldNamed?_towards (h : x.fieldNamed? t name = some ⟨f, true⟩) : ∃ full,
    x.fieldName? f = some full ∧ Text.Begins name full ∧
      ∀ longer, Text.Towards name longer full → x.fieldNamed? t longer =
        some ⟨f, decide (longer.utf8ByteSize < full.utf8ByteSize)⟩ := by
  obtain ⟨table, htable, h⟩ := Option.bind_eq_some_iff.1 h
  cases Text.matchName_eq_iff.1 h with
  | @abbreviated full _ _ allowed _ sole =>
    have named : x.fieldName? f = some full := by
      obtain ⟨before, after, split, -⟩ := sole
      have mem : (full, f) ∈ x.fieldCandidates table :=
        split ▸ List.mem_append_right _ (List.mem_cons_self ..)
      obtain ⟨g, -, found⟩ := List.mem_filterMap.1 mem
      obtain ⟨field, hfield, same⟩ := Option.map_eq_some_iff.1 found
      cases same
      rw [fieldName?, hfield]
      rfl
    have ⟨_, _, _, begins, _⟩ := sole
    refine ⟨full, named, begins, fun longer towards => ?_⟩
    rw [fieldNamed?, htable, Option.bind_some, allowed, sole.towards towards]

end UnitIndex

/-- A name is matched with what it stands for. What is found by an abbreviation, among the tables of
a catalog or of one database of it or among the fields of a table, is found by every longer
abbreviation of the same name up to the name itself; a longer name with a dot in it is not looked
for among the tables of all databases, since it begins with the name of a database. -/
theorem abbreviation_stands :
    (∀ (α : Type) (name : String) (candidates : List (String × α)) (mayAbbreviate : Bool)
      (found : Option (Text.Match α)), Text.matchName name candidates mayAbbreviate = found ↔
        Text.StandsFor name candidates mayAbbreviate found) ∧
    (∀ (c : Catalog) (name : String) (e : Catalog.Entry), c.table? name = some e →
      ¬ Text.Spells name e.table.name → ∀ longer : String, '.' ∉ longer.toList →
        Text.Towards name longer e.table.name → c.table? longer = some e) ∧
    (∀ (c : Catalog) (database name : String) (e : Catalog.Entry), '.' ∉ database.toList →
      c.table? (database ++ "." ++ name) = some e → ¬ Text.Spells name e.table.name →
        ∀ longer, Text.Towards name longer e.table.name →
          c.table? (database ++ "." ++ longer) = some e) ∧
    ∀ (x : UnitIndex) (t : TableId) (name : String) (f : FieldId),
      x.fieldNamed? t name = some ⟨f, true⟩ → ∃ full, x.fieldName? f = some full ∧
        Text.Begins name full ∧ ∀ longer, Text.Towards name longer full →
          x.fieldNamed? t longer = some ⟨f, decide (longer.utf8ByteSize < full.utf8ByteSize)⟩ :=
  ⟨fun _ _ _ _ _ => Text.matchName_eq_iff,
    fun _ _ _ h unspelled _ plain towards => Catalog.table?_towards h unspelled plain towards,
    fun _ _ _ _ plain h unspelled _ towards =>
      Catalog.table?_dotted_towards plain h unspelled towards,
    fun _ _ _ _ h => UnitIndex.fieldNamed?_towards h⟩

/-- An index with a table of the catalog. -/
def customerIndex : UnitIndex where
  tables := ⟨#[⟨"Customer", .schema, none, some "sports", [⟨0⟩, ⟨1⟩], [], true⟩]⟩
  fields := ⟨#[{ name := "CustNum" }, { name := "Name" }]⟩

/-- The name leads to the customers of the shop and to a field of theirs, and so do longer ones. -/
theorem abbreviation_stands_customer :
    Catalog.Sample.sports.table? "cust" = some ⟨"sports", Catalog.Sample.customer⟩ ∧
      Catalog.Sample.sports.table? "Custome" = some ⟨"sports", Catalog.Sample.customer⟩ ∧
      Catalog.Sample.sports.table? ("sports" ++ "." ++ "Customer") =
        some ⟨"sports", Catalog.Sample.customer⟩ ∧
      customerIndex.fieldNamed? ⟨0⟩ "na" = some ⟨⟨1⟩, true⟩ ∧
      ∃ full, customerIndex.fieldName? ⟨1⟩ = some full ∧ Text.Begins "na" full ∧
        ∀ longer, Text.Towards "na" longer full → customerIndex.fieldNamed? ⟨0⟩ longer =
          some ⟨⟨1⟩, decide (longer.utf8ByteSize < full.utf8ByteSize)⟩ := by
  have bare : Catalog.Sample.sports.table? "cust" = some ⟨"sports", Catalog.Sample.customer⟩ := by
    decide +kernel
  have oneName : '.' ∉ "sports".toList := by decide +kernel
  have dotted : Catalog.Sample.sports.table? ("sports" ++ "." ++ "cust") =
      some ⟨"sports", Catalog.Sample.customer⟩ := by
    rw [Catalog.table?_dotted oneName]
    decide +kernel
  have short : ¬ Text.Spells "cust" Catalog.Sample.customer.name := by decide +kernel
  have longer : Text.Towards "cust" "Custome" "Customer" :=
    Text.towards_iff.2 ⟨by decide +kernel, .inr (by decide +kernel)⟩
  have whole : Text.Towards "cust" "Customer" "Customer" :=
    Text.towards_iff.2 ⟨by decide +kernel, .inl rfl⟩
  have field : customerIndex.fieldNamed? ⟨0⟩ "na" = some ⟨⟨1⟩, true⟩ := by decide +kernel
  obtain ⟨-, ofCatalog, ofDatabase, ofFields⟩ := abbreviation_stands
  have plain : '.' ∉ "Custome".toList := by decide +kernel
  exact ⟨bare, ofCatalog _ _ _ bare short _ plain longer,
    ofDatabase _ _ _ _ oneName dotted short _ whole, field, ofFields _ _ _ _ field⟩

/-- A table whose name has a dot in it is found by what stands before the dot, but not by its whole
name, which is taken for that of a table in a database. -/
theorem abbreviation_lost_at_dot :
    (⟨[⟨"sports", [⟨"a.b", [], []⟩]⟩]⟩ : Catalog).table? "a" = some ⟨"sports", ⟨"a.b", [], []⟩⟩ ∧
      ¬ Text.Spells "a" "a.b" ∧ Text.Towards "a" "a.b" "a.b" ∧
      (⟨[⟨"sports", [⟨"a.b", [], []⟩]⟩]⟩ : Catalog).table? "a.b" = none := by
  have whole : Text.Towards "a" "a.b" "a.b" := Text.towards_iff.2 ⟨by decide +kernel, .inl rfl⟩
  exact ⟨by decide +kernel, by decide +kernel, whole, by decide +kernel⟩

end AblResolve
