import AblResolve.Proofs.CatalogNames
import AblResolve.Proofs.NameTables
import Mathlib.Data.List.TakeWhile
/-!
Abbreviated names. Whether a name abbreviates that of a catalog table is told by the number of its
bytes. That this is right comes from how the table was found: the name has been divided at its first
dot, but since no table name has a dot in it, what was compared is what stands after the last one.
-/
namespace AblResolve

namespace Text

variable {name full : String}

/-! ### Dots -/

theorem splitLast?_eq_none : splitLast? name = none ↔ '.' ∉ name.toList := by
  have nothing : name.toList.reverse.dropWhile (· != '.') = [] ↔ '.' ∉ name.toList := by
    rw [List.dropWhile_eq_nil_iff]
    constructor
    · intro h dot
      simpa using h '.' (List.mem_reverse.2 dot)
    · intro h c hc
      have : c ≠ '.' := fun dot => h (dot ▸ List.mem_reverse.1 hc)
      simpa using this
  rw [← nothing, splitLast?, List.span_eq_takeWhile_dropWhile]
  cases name.toList.reverse.dropWhile (· != '.') <;> simp

/-- What stands after a dot is what stands after the last one, if there is no dot in it. -/
theorem splitLast?_of_toList {before after : List Char} (h : name.toList = before ++ '.' :: after)
    (plain : '.' ∉ after) : splitLast? name = some (String.ofList before, String.ofList after) := by
  have own : ∀ c ∈ after.reverse, (c != '.') = true := by
    intro c hc
    have : c ≠ '.' := fun dot => plain (dot ▸ List.mem_reverse.1 hc)
    simpa using this
  have divided : name.toList.reverse.span (· != '.') = (after.reverse, '.' :: before.reverse) := by
    rw [h, List.reverse_append, List.reverse_cons, List.append_assoc,
      List.span_eq_takeWhile_dropWhile, List.takeWhile_append_of_pos own,
      List.dropWhile_append_of_pos own]
    simp
  rw [splitLast?, divided]
  simp

theorem toList_of_splitFirst? {before after : String}
    (h : splitFirst? name = some (before, after)) :
    name.toList = before.toList ++ '.' :: after.toList := by
  have whole := List.takeWhile_append_dropWhile (p := (· != '.')) (l := name.toList)
  unfold splitFirst? at h
  rw [List.span_eq_takeWhile_dropWhile] at h
  cases hdrop : name.toList.dropWhile (· != '.') with
  | nil =>
    rw [hdrop] at h
    cases h
  | cons c rest =>
    have dot : c = '.' := by
      have := List.head?_dropWhile_not (· != '.') name.toList
      rw [hdrop] at this
      simpa using this
    rw [hdrop] at h whole
    simp only [Option.some.injEq, Prod.mk.injEq] at h
    obtain ⟨rfl, rfl⟩ := h
    simpa [dot] using whole.symm

theorem splitFirst?_eq_none (h : splitFirst? name = none) : '.' ∉ name.toList := by
  unfold splitFirst? at h
  rw [List.span_eq_takeWhile_dropWhile] at h
  have nothing : name.toList.dropWhile (· != '.') = [] := by
    cases hdrop : name.toList.dropWhile (· != '.') with
    | nil => rfl
    | cons c rest => rw [hdrop] at h; cases h
  intro dot
  simpa using List.dropWhile_eq_nil_iff.1 nothing '.' dot

/-- A table name is divided at its first dot. If there is no other, that is the last one. -/
theorem lastSegment_of_splitFirst? {before after : String}
    (h : splitFirst? name = some (before, after)) (plain : '.' ∉ after.toList) :
    lastSegment name = after := by
  rw [lastSegment, splitLast?_of_toList (toList_of_splitFirst? h) plain]
  exact String.ofList_toList

theorem lastSegment_of_plain (plain : '.' ∉ name.toList) : lastSegment name = name := by
  rw [lastSegment, splitLast?_eq_none.2 plain]

/-! ### Names and what they stand for -/

/-- A name that may stand for what has the full name: another spelling, or an abbreviation. -/
def Fits (name full : String) : Prop := same name full = true ∨ abbreviates name full = true

theorem same_false_of_lt (h : name.utf8ByteSize < full.utf8ByteSize) : same name full = false := by
  refine Bool.eq_false_iff.2 fun spelled => Nat.ne_of_lt h ?_
  rw [← utf8ByteSize_fold name, same_iff.1 spelled, utf8ByteSize_fold]

/-- A name that fits has fewer bytes unless it is spelled out. -/
theorem Fits.lt_iff (h : Fits name full) :
    name.utf8ByteSize < full.utf8ByteSize ↔ same name full = false := by
  refine ⟨same_false_of_lt, fun other => ?_⟩
  rcases h with spelled | short
  · rw [other] at spelled
    cases spelled
  · simp only [abbreviates, Bool.and_eq_true, decide_eq_true_eq] at short
    exact short.1

theorem Fits.congr {full' : String} (h : Fits name full) (folds : fold full = fold full') :
    Fits name full' := by
  rw [Fits, ← same_congr rfl folds, ← abbreviates_congr (same_iff.2 folds)]
  exact h

/-- A name that fits has dots only if the full name has some. -/
theorem Fits.plain (h : Fits name full) (plain : '.' ∉ full.toList) : '.' ∉ name.toList := by
  intro dot
  refine plain (dot_mem_fold.1 ?_)
  rcases h with spelled | short
  · exact same_iff.1 spelled ▸ dot_mem_fold.2 dot
  · simp only [abbreviates, Bool.and_eq_true, List.isPrefixOf_iff_prefix] at short
    exact short.2.subset (dot_mem_fold.2 dot)

/-- What is found fits, and is found by an abbreviation unless its name is spelled out. -/
theorem matchName_fits {α : Type} {candidates : List (String × α)} {mayAbbreviate : Bool}
    {found : Match α} (h : matchName name candidates mayAbbreviate = some found) :
    ∃ full, (full, found.item) ∈ candidates ∧ Fits name full ∧
      (found.abbreviated = true ↔ same name full = false) := by
  unfold matchName at h
  cases exact : candidates.find? fun c => same c.1 name with
  | some c =>
    rw [exact] at h
    cases h
    have spelled : same name c.1 = true := same_symm (by simpa using List.find?_some exact)
    exact ⟨c.1, List.mem_of_find?_eq_some exact, .inl spelled, by simp [spelled]⟩
  | none =>
    rw [exact] at h
    dsimp only at h
    split at h
    · split at h
      · rename_i full item only
        cases h
        have mem : (full, item) ∈ candidates.filter fun c => abbreviates name c.1 := by
          rw [only]
          exact List.mem_singleton_self _
        obtain ⟨mem, short⟩ := List.mem_filter.1 mem
        have fits : Fits name full := .inr short
        simp only [abbreviates, Bool.and_eq_true, decide_eq_true_eq] at short
        exact ⟨full, mem, fits, by simp [same_false_of_lt short.1]⟩
      · cases h
    · cases h

end Text

namespace Catalog

/-- No name of a table has a dot in it. -/
def PlainTables (c : Catalog) : Prop := ∀ d ∈ c.databases, ∀ t ∈ d.tables, '.' ∉ t.name.toList

instance (c : Catalog) : Decidable c.PlainTables := by
  unfold PlainTables
  infer_instance

variable {c : Catalog} {e e' : Entry} {name : String}

theorem PlainTables.entry (plain : c.PlainTables) (h : c.table? name = some e) :
    '.' ∉ e.table.name.toList := by
  obtain ⟨d, hd, hmem⟩ := List.mem_flatMap.1 (List.mem_of_find?_eq_some (find?_of_table? h))
  obtain ⟨t, ht, heq⟩ := List.mem_map.1 hmem
  have table : t = e.table := congrArg (·.2.table) heq
  exact table ▸ plain d hd t ht

/-- The last segment of a name stands for the table that the name leads to. -/
theorem fits_of_table? (plain : c.PlainTables) (h : c.table? name = some e) :
    Text.Fits (Text.lastSegment name) e.table.name := by
  have plainTable := plain.entry h
  obtain ⟨⟨candidates, tableName⟩, hcandidates, h⟩ := Option.bind_eq_some_iff.1 h
  obtain ⟨found, hmatch, hitem⟩ := Option.map_eq_some_iff.1 h
  obtain ⟨full, hmem, fits, -⟩ := Text.matchName_fits hmatch
  rw [hitem] at hmem
  unfold candidates? at hcandidates
  cases hsplit : Text.splitFirst? name with
  | some p =>
    rw [hsplit] at hcandidates
    obtain ⟨d, hd, heq⟩ := Option.map_eq_some_iff.1 hcandidates
    cases heq
    obtain ⟨t, -, heq⟩ := List.mem_map.1 hmem
    cases heq
    rwa [Text.lastSegment_of_splitFirst? hsplit (fits.plain plainTable)]
  | none =>
    rw [hsplit] at hcandidates
    cases hcandidates
    obtain ⟨d, -, hmem⟩ := List.mem_flatMap.1 hmem
    obtain ⟨t, -, heq⟩ := List.mem_map.1 hmem
    cases heq
    rwa [Text.lastSegment_of_plain (Text.splitFirst?_eq_none hsplit)]

/-- The key has the name of the table in it, after its last dot. -/
theorem Entry.lastSegment_key (plain : '.' ∉ e.table.name.toList) :
    Text.lastSegment e.key = Text.fold e.table.name := by
  have keys : e.key.toList =
      (Text.fold e.database).toList ++ '.' :: (Text.fold e.table.name).toList := by
    rw [key, Text.fold_append, Text.fold_append, String.toList_append, String.toList_append,
      List.append_assoc]
    simp [Text.fold, String.toList_map]
  rw [Text.lastSegment, Text.splitLast?_of_toList keys (mt Text.dot_mem_fold.1 plain)]
  exact String.ofList_toList

end Catalog

namespace UnitIndex

variable {x y : UnitIndex} {b : SymbolId} {t : TableId} {name full : String}

/-! ### Default buffers and the names of their tables -/

/-- The name of the catalog table whose default buffer a symbol is. -/
def catalogName? (x : UnitIndex) (b : SymbolId) : Option String :=
  (x.defaultTable? b).bind fun t => (x.tables.get? t).bind fun table =>
    if table.kind = .schema then some table.name else none

theorem catalogName?_eq_some : x.catalogName? b = some full ↔ ∃ t table,
    x.defaultTable? b = some t ∧ x.tables.get? t = some table ∧ table.kind = .schema ∧
      table.name = full := by
  simp only [catalogName?, Option.bind_eq_some_iff, Option.ite_none_right_eq_some,
    Option.some.injEq]
  grind

/-- A name for the default buffer of a catalog table is short for the name of the table. -/
def AbbreviatesTable (x : UnitIndex) (name : String) (b : SymbolId) : Prop :=
  ∃ full, x.catalogName? b = some full ∧ Text.same (Text.lastSegment name) full = false

theorem isAbbreviatedTable_iff : Walk.isAbbreviatedTable x b name = true ↔ ∃ full,
    x.catalogName? b = some full ∧ (Text.lastSegment name).utf8ByteSize < full.utf8ByteSize := by
  unfold Walk.isAbbreviatedTable catalogName? defaultTable? Symbol.defaultTable?
  cases x.symbols.get? b with
  | none => simp
  | some s =>
    unfold Symbol.asTableBuffer?
    rw [Option.bind_some, Option.bind_some]
    cases s.kind with
    | tableBuffer buffer =>
      cases hd : buffer.isDefault <;> cases ht : x.tables.get? buffer.table <;> simp [hd, ht]
    | _ => simp

/-- A symbol goes on being the default buffer of the same table, or none. -/
theorem Extends.defaultTable?_eq (ext : x.Extends y) (hb : b.val < x.symbols.size) :
    y.defaultTable? b = x.defaultTable? b := by
  obtain ⟨s, hs⟩ := Arena.exists_get? hb
  obtain ⟨s', hs', same⟩ := ext.kind_fixed hs
  rw [UnitIndex.defaultTable?, UnitIndex.defaultTable?, hs, hs', Option.bind_some, Option.bind_some]
  unfold Symbol.defaultTable?
  cases hk : s.kind <;> cases hk' : s'.kind <;> simp_all [SymbolKind.fixed]

theorem Extends.catalogName?_eq (ext : x.Extends y) (c : x.Coherent) (hb : b.val < x.symbols.size) :
    y.catalogName? b = x.catalogName? b := by
  rw [catalogName?, catalogName?, ext.defaultTable?_eq hb]
  cases ht : x.defaultTable? b with
  | none => rfl
  | some t =>
    obtain ⟨table, htable⟩ := Arena.exists_get? (c.table_of_defaultTable? ht).2
    obtain ⟨table', htable', same⟩ := ext.tables t table htable
    have kind : table'.kind = table.kind := (congrArg Table.kind same :)
    have name : table'.name = table.name := (congrArg Table.name same :)
    rw [Option.bind_some, Option.bind_some, htable, htable', Option.bind_some, Option.bind_some,
      kind, name]

/-- Names in the root scope lead to the tables of the unit, never to those of the catalog. -/
theorem Tidy.catalogName?_of_findIn? (tidy : x.Tidy)
    (h : x.findIn? rootScope .table name = some b) : x.catalogName? b = none := by
  obtain ⟨scope, hscope, hfind⟩ := Option.bind_eq_some_iff.1 h
  obtain ⟨entry, hmem, hspace, rfl⟩ := NameTable.exists_mem_of_find? hfind
  obtain ⟨s, hs, -, -, -, named⟩ := (tidy.entries _ scope hscope entry hmem).leads
  refine Option.eq_none_iff_forall_ne_some.2 fun full hfull => ?_
  obtain ⟨t, table, ht, htable, hkind, -⟩ := catalogName?_eq_some.1 hfull
  rw [UnitIndex.defaultTable?, hs] at ht
  rw [Unnamed.spaceOf? (.inr ⟨t, table, ht, htable, hkind⟩)] at named
  cases named

/-- Names of namespaces other than that of tables do not lead to default buffers. -/
theorem Names.catalogName? {s : ScopeId} {space : Namespace} (h : x.Names s space b)
    (other : space ≠ .table) : x.catalogName? b = none := by
  obtain ⟨symbol, hs, -, hspace⟩ := h
  have none : x.defaultTable? b = none := by
    rw [UnitIndex.defaultTable?, hs, Option.bind_some, Symbol.defaultTable?]
    unfold SymbolKind.space? at hspace
    cases hk : symbol.kind with
    | tableBuffer buffer =>
      rw [hk] at hspace
      cases hd : buffer.isDefault with
      | false => simp [hd]
      | true =>
        simp only [hd, if_true, Option.some.injEq] at hspace
        exact absurd hspace.symm other
    | _ => rfl
  rw [UnitIndex.catalogName?, none, Option.bind_none]

/-- The last segment of a name fits the table that the name leads to. -/
theorem Copies.fits {catalog : Catalog} {e : Catalog.Entry} (copies : x.Copies catalog)
    (plain : catalog.PlainTables) (he : catalog.table? name = some e) (serves : x.Serves e t b)
    (h : x.catalogName? b = some full) : Text.Fits (Text.lastSegment name) full := by
  obtain ⟨t', table, ht, htable, -, rfl⟩ := catalogName?_eq_some.1 h
  rw [serves.isDefault] at ht
  cases ht
  obtain ⟨name', e', table', he', key, htable', copy⟩ := copies _ serves.listed
  rw [htable] at htable'
  cases htable'
  have key : e.key = e'.key := key
  have names : Text.fold e.table.name = Text.fold e'.table.name := by
    rw [← Catalog.Entry.lastSegment_key (plain.entry he), key,
      Catalog.Entry.lastSegment_key (plain.entry he')]
  rw [copy.name]
  exact (Catalog.fits_of_table? plain he).congr names

/-- Names in the root scope lead to tables of the unit only. -/
def NamesNoCopy (x : UnitIndex) : Prop :=
  ∀ name b, x.findIn? rootScope .table name = some b → x.catalogName? b = none

theorem NamesNoCopy.later (h : x.NamesNoCopy) (c : x.Coherent)
    (ext : x.Extends y)
    (same : ∀ name, y.findIn? rootScope .table name = x.findIn? rootScope .table name) :
    y.NamesNoCopy := by
  intro name b hb
  rw [same] at hb
  rw [ext.catalogName?_eq c (c.attached_of_findIn? hb).lt_size]
  exact h name b hb

/-- The buffer is the one that a name of the catalog leads to, or it has nothing to do with the
catalog. -/
def Answers (x : UnitIndex) (catalog : Catalog) (name : String) (b : SymbolId) : Prop :=
  x.catalogName? b = none ∨ ∃ e t, catalog.table? name = some e ∧ x.Serves e t b

theorem Answers.later {catalog : Catalog} (h : x.Answers catalog name b) (ext : x.Extends y)
    (c : x.Coherent) (hb : b.val < x.symbols.size) (listed : x.schemaTables ⊆ y.schemaTables) :
    y.Answers catalog name b := by
  rcases h with none | ⟨e, t, he, serves⟩
  · exact .inl ((ext.catalogName?_eq c hb).trans none)
  · exact .inr ⟨e, t, he, listed serves.listed, ext.defaultTable? serves.isDefault⟩

/-- The number of bytes tells whether a name that leads to a buffer is short for its table. -/
theorem Answers.isAbbreviatedTable_iff {catalog : Catalog} (h : x.Answers catalog name b)
    (copies : x.Copies catalog) (plain : catalog.PlainTables) :
    Walk.isAbbreviatedTable x b name = true ↔ x.AbbreviatesTable name b := by
  have fits : ∀ full, x.catalogName? b = some full → Text.Fits (Text.lastSegment name) full := by
    intro full hfull
    rcases h with none | ⟨e, t, he, serves⟩
    · rw [none] at hfull
      cases hfull
    · exact copies.fits plain he serves hfull
  rw [UnitIndex.isAbbreviatedTable_iff, AbbreviatesTable]
  exact exists_congr fun full => and_congr_right fun hfull => (fits full hfull).lt_iff

end UnitIndex

namespace Walk

open UnitIndex

variable {env : Env} {n : NodeId} {w w' : Walk} {name : String} {b : SymbolId}

/-! ### Buffers that are found -/

theorem schemaBuffer?_answers (n : NodeId) (hs : Sound w) (ok : w.index.SchemaTablesOk)
    (hok : schemaBuffer? env name w = .ok (some b) w') : w'.index.Answers env.catalog name b := by
  cases schemaBuffer?_end hok with
  | offered listed =>
    obtain ⟨t, b', heq, serves⟩ := schemaBuffer?_ok n hs ok listed hok
    cases heq
    exact .inr ⟨_, t, listed, serves⟩

/-- The name of a record leads to a buffer that answers to it. -/
theorem findBuffer?_answers (n : NodeId) {lookup : RecordLookup} (hs : Sound w)
    (ok : w.index.SchemaTablesOk) (own : w.index.NamesNoCopy)
    (hok : findBuffer? env name lookup w = .ok (some b) w') :
    w'.index.Answers env.catalog name b := by
  cases lookup with
  | buffer =>
    cases findBuffer?_end hs hok with
    | named found =>
      obtain ⟨-, -, o, names⟩ := hs.coherent.resolve? found
      exact .inl (names.catalogName? (by simp))
    | table _ found => exact .inl (own name _ found)
    | schema _ _ find => exact schemaBuffer?_answers n hs ok find
  | tempTable =>
    obtain ⟨htable, rfl⟩ : some b = w.index.findIn? rootScope .table name ∧ w' = w :=
      ((ends_tempTableBuffer? (E := Never) (Q := fun r v => r = _ ∧ v = w) name).2
        ⟨rfl, rfl⟩).ok hok
    exact .inl (own name _ htable.symm)
  | schemaTable => exact schemaBuffer?_answers n hs ok hok

end Walk

end AblResolve
