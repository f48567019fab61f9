import AblResolve.Proofs.IndexCopies
/-!
The indexes of the tables that a unit defines. A table has the indexes of its INDEX clauses, in
order, and after them copies of indexes of the table that it is like. Clauses may come in any order:
all of this is settled when the definition ends, and stays so. The only findings about fields of
indexes are those about fields that an INDEX clause names and the table has not got.
-/
namespace AblResolve

/-- The table of the LIKE clause that was completed last. -/
def TableClauses.source? (c : TableClauses) : Option TableId := c.sources.getLast?.map (·.2)

namespace ParseTree

/-- The fields that an INDEX clause names, as far as the table has them. -/
def indexFields (tree : ParseTree) (x : UnitIndex) (t : TableId) (m : NodeId) : List FieldId :=
  (tree.childrenOfKind m .indexField).filterMap fun f => x.firstField? t (tree.text f)

/-- The findings about fields that an INDEX clause names and the table has not got. -/
def skippedBy (tree : ParseTree) (x : UnitIndex) (t : TableId) (m : NodeId) : List Diagnostic :=
  ((tree.childrenOfKind m .indexField).filter fun f =>
    (x.firstField? t (tree.text f)).isNone).map fun f =>
      .skippedIndexField (tree.text f) (tree.definedName m) (tree.location f)

end ParseTree

namespace UnitIndex

variable {tree : ParseTree} {x y z : UnitIndex} {t s : TableId} {c : TableClauses}
  {copies : List IndexId}

/-! ### What the indexes of a table are -/

/-- Index `j` of table `t` is inherited from index `i` of table `s`: it has its name and its flags,
and for each of its fields, in order, the first field of `t` with the same name. A table may be like
itself; then its own indexes have no fields yet when they are copied. -/
def Inherits (x : UnitIndex) (t s : TableId) (i j : IndexId) : Prop :=
  ∃ v v', x.indexes.get? i = some v ∧ v.table = s ∧ x.indexes.get? j = some v' ∧
    v' = { v with table := t, fields := v'.fields } ∧
    (s ≠ t → List.Forall₂ (fun f g => x.counterpart? t f = some g) v.fields v'.fields) ∧
    (s = t → v'.fields = [])

/-- A table has its own indexes, one for each INDEX clause, and inherits others from the table that
it is like. -/
structure IndexesOk (tree : ParseTree) (x : UnitIndex) (t : TableId) (clauses : List NodeId)
    (names : List String) (source : Option TableId) (own inherited : List IndexId) : Prop where
  listed : x.indexesOf t = own ++ inherited
  explicit : List.Forall₂ (fun m i =>
    x.indexes.get? i = some (tree.indexOf m t (tree.indexFields x t m))) clauses own
  inherits : List.Forall₂ (fun i j => ∃ s, source = some s ∧ x.Inherits t s i j)
    (x.chosenIndexes (!clauses.isEmpty) names source) inherited
  alone : source = some t → clauses = [] → inherited = []

/-! ### The end of a definition -/

/-- The definition of table `t` has been brought to an end: from `x`, the state after its clauses,
indexes have been copied, up to `y`, and fields looked up, up to `z`. -/
structure Ended (tree : ParseTree) (t : TableId) (c : TableClauses) (copies : List IndexId)
    (x y z : UnitIndex) : Prop where
  found : ∃ table, x.tables.get? t = some table
  own : x.indexesOf t = c.indexes.map (·.1)
  made : ∀ p ∈ c.indexes, x.indexes.get? p.1 = some (tree.indexOf p.2 t [])
  copied : Copied t (x.chosenIndexes (!c.indexes.isEmpty) (c.useIndex.map (·.1)) c.source?) copies
    x y
  filled : Filled tree t (c.indexes.flatMap fun p => tree.awaitedFields p.1 p.2) y z
  nodup : ((z.frozen t).indexesOf t).Nodup
  apart : ∀ s, ∀ i ∈ x.indexesOf s, ∃ v, x.indexes.get? i = some v ∧ v.table = s

/-! ### What indexes are waiting for -/

theorem foundFields_append (i : IndexId) (ps ps' : List PendingIndexField) :
    x.foundFields t i (ps ++ ps') = x.foundFields t i ps ++ x.foundFields t i ps' := by
  simp [foundFields]

theorem foundFields_awaited (i j : IndexId) (m : NodeId) :
    x.foundFields t i (tree.awaitedFields j m) = if j = i then tree.indexFields x t m else [] := by
  rw [foundFields, ParseTree.awaitedFields, List.filter_map, List.filterMap_map]
  split
  · rename_i same
    simp [ParseTree.indexFields, same, Function.comp_def]
  · rename_i other
    simp [other, Function.comp_def]

section Awaited

variable {L : List (IndexId × NodeId)} {i : IndexId}

theorem foundFields_of_notMem (h : i ∉ L.map (·.1)) :
    x.foundFields t i (L.flatMap fun p => tree.awaitedFields p.1 p.2) = [] := by
  induction L with
  | nil => rfl
  | cons p L ih =>
    simp only [List.map_cons, List.mem_cons, not_or] at h
    rw [List.flatMap_cons, foundFields_append, foundFields_awaited, if_neg (Ne.symm h.1), ih h.2]
    rfl

theorem foundFields_of_mem {m : NodeId} (nodup : (L.map (·.1)).Nodup) (h : (i, m) ∈ L) :
    x.foundFields t i (L.flatMap fun p => tree.awaitedFields p.1 p.2) =
      tree.indexFields x t m := by
  induction L with
  | nil => cases h
  | cons p L ih =>
    rw [List.map_cons, List.nodup_cons] at nodup
    rw [List.flatMap_cons, foundFields_append, foundFields_awaited]
    rcases List.mem_cons.1 h with rfl | h
    · rw [if_pos rfl, foundFields_of_notMem nodup.1, List.append_nil]
    · have other : p.1 ≠ i := fun same => nodup.1 (same ▸ List.mem_map.2 ⟨_, h, rfl⟩)
      rw [if_neg other, ih nodup.2 h, List.nil_append]

/-- What is missing is reported clause by clause. -/
theorem missedFields_flatMap
    (made : ∀ p ∈ L, ∃ fields, x.indexes.get? p.1 = some (tree.indexOf p.2 t fields)) :
    missedFields tree x t (L.flatMap fun p => tree.awaitedFields p.1 p.2) =
      (L.map (·.2)).flatMap (tree.skippedBy x t) := by
  rw [missedFields, List.filterMap_flatMap, List.flatMap_map]
  refine List.flatMap_congr fun p hp => ?_
  obtain ⟨fields, found⟩ := made p hp
  rw [ParseTree.awaitedFields, List.filterMap_map, ParseTree.skippedBy,
    ← List.filterMap_eq_map, List.filterMap_filter]
  refine List.filterMap_congr fun f _ => ?_
  simp only [Function.comp_apply, found, Option.map_some, Option.isNone_iff_eq_none]
  rfl

end Awaited

namespace Ended

variable (h : Ended tree t c copies x y z)
include h

theorem indexesOf (s : TableId) : (z.frozen t).indexesOf s = y.indexesOf s := by
  have lists : (z.frozen t).indexesOf s = z.indexesOf s := by
    refine lists_update_of_eq ?_ s
    exact fun _ => rfl
  rw [lists, UnitIndex.indexesOf, h.filled.tables, UnitIndex.indexesOf]

theorem listed : (z.frozen t).indexesOf t = c.indexes.map (·.1) ++ copies := by
  obtain ⟨table, found⟩ := h.found
  rw [h.indexesOf, h.copied.indexesOf found, h.own]

theorem distinct : (c.indexes.map (·.1) ++ copies).Nodup := h.listed ▸ h.nodup

theorem firstField? : (z.frozen t).firstField? t = x.firstField? t := by
  rw [← h.copied.firstField?, ← h.filled.firstField?]
  funext name
  unfold UnitIndex.firstField?
  have lists : (z.frozen t).fieldsOf t = z.fieldsOf t := by
    refine lists_update_of_eq ?_ t
    exact fun _ => rfl
  rw [lists]
  rfl

theorem fieldName? : (z.frozen t).fieldName? = x.fieldName? := by
  funext f
  show (z.fields.get? f).map _ = _
  rw [h.filled.fields, h.copied.fields]
  rfl

theorem counterpart? : (z.frozen t).counterpart? t = y.counterpart? t := by
  funext f
  rw [UnitIndex.counterpart?, h.fieldName?, h.firstField?, h.copied.counterpart?,
    UnitIndex.counterpart?]

theorem indexFields : tree.indexFields (z.frozen t) t = tree.indexFields x t := by
  funext m
  rw [ParseTree.indexFields, h.firstField?, ParseTree.indexFields]

/-- An index that no INDEX clause has made. -/
theorem get?_other {i : IndexId} {v : TableIndex} (hv : y.indexes.get? i = some v)
    (other : i ∉ c.indexes.map (·.1)) : (z.frozen t).indexes.get? i = some v := by
  show z.indexes.get? i = _
  rw [h.filled.indexes, hv, foundFields_of_notMem other]
  simp

/-- An index that an INDEX clause has made. -/
theorem get?_own {p : IndexId × NodeId} (hp : p ∈ c.indexes) :
    (z.frozen t).indexes.get? p.1 =
      some (tree.indexOf p.2 t (tree.indexFields (z.frozen t) t p.2)) := by
  have nodup := (List.nodup_append.1 h.distinct).1
  have fields : tree.indexFields y t p.2 = tree.indexFields x t p.2 := by
    rw [ParseTree.indexFields, h.copied.firstField?, ParseTree.indexFields]
  show z.indexes.get? p.1 = _
  rw [h.filled.indexes, h.copied.get?_index (h.made p hp), foundFields_of_mem nodup hp,
    h.indexFields, fields]
  rfl

theorem indexHasName {i : IndexId} {v : TableIndex} (hv : y.indexes.get? i = some v)
    (name : String) : (z.frozen t).indexHasName name i = y.indexHasName name i := by
  have later : (z.frozen t).indexes.get? i = (some v).map fun v =>
      { v with fields := v.fields ++
          y.foundFields t i (c.indexes.flatMap fun p => tree.awaitedFields p.1 p.2) } := by
    rw [← hv]
    exact h.filled.indexes i
  rw [indexHasName_of_get? hv, indexHasName_of_get? later]

/-- What a name of an index of the source leads to is settled before indexes are copied. -/
theorem indexNamed? {s : TableId} (source : c.source? = some s) :
    (z.frozen t).indexNamed? s = x.indexNamed? s := by
  funext name
  have old : ∀ i ∈ x.indexesOf s, i.val < x.indexes.size := fun i hi => by
    obtain ⟨v, hv, -⟩ := h.apart s i hi
    exact Arena.lt_size_of_get? hv
  have copied : y.indexNamed? s name = x.indexNamed? s name := by
    refine h.copied.indexNamed? ?_ old name
    rintro rfl i hi
    rw [source] at hi
    exact mem_indexesOf_of_chosen hi
  rw [← copied, indexNamed?_eq, indexNamed?_eq, h.indexesOf]
  refine List.find?_congr fun i hi => ?_
  obtain ⟨v, hv⟩ := Arena.exists_get? (h.copied.there old i hi)
  exact h.indexHasName hv name

/-- A table without indexes that is like itself has none to copy. -/
theorem copies_eq_nil (source : c.source? = some t) (alone : c.indexes = []) : copies = [] := by
  have none : x.chosenIndexes (!c.indexes.isEmpty) (c.useIndex.map (·.1)) c.source? = [] := by
    refine List.eq_nil_iff_forall_not_mem.2 fun i hi => ?_
    rw [source] at hi
    have listed := mem_indexesOf_of_chosen hi
    rw [h.own, alone] at listed
    cases listed
  have copies := h.copied.copies
  rw [none] at copies
  exact List.forall₂_nil_left_iff.1 copies

/-- What is chosen is settled before indexes are copied. -/
theorem chosenIndexes : (z.frozen t).chosenIndexes (!c.indexes.isEmpty) (c.useIndex.map (·.1))
    c.source? = x.chosenIndexes (!c.indexes.isEmpty) (c.useIndex.map (·.1)) c.source? := by
  cases source : c.source? with
  | none => rfl
  | some s =>
    rw [UnitIndex.chosenIndexes, UnitIndex.chosenIndexes, h.indexNamed? source]
    by_cases same : s = t
    · cases alone : c.indexes with
      | cons p ps => rfl
      | nil =>
        subst same
        rw [h.listed, h.own, alone, h.copies_eq_nil source alone]
        rfl
    · rw [h.indexesOf, UnitIndex.indexesOf, UnitIndex.indexesOf, h.copied.tables, if_neg same]

/-- A copy of an index is inherited from it. -/
theorem inherits {i j : IndexId}
    (chosen : i ∈ x.chosenIndexes (!c.indexes.isEmpty) (c.useIndex.map (·.1)) c.source?)
    (copy : j ∈ copies) (of : y.CopyOf t i j) :
    ∃ s, c.source? = some s ∧ (z.frozen t).Inherits t s i j := by
  obtain ⟨v, v', hv, hv', same, counterparts⟩ := of
  have later := h.get?_other hv' fun own =>
    (List.nodup_append.1 h.distinct).2.2 j own j copy rfl
  cases source : c.source? with
  | none =>
    rw [source] at chosen
    cases chosen
  | some s =>
    rw [source] at chosen
    obtain ⟨v₀, hv₀, rfl⟩ := h.apart s i (mem_indexesOf_of_chosen chosen)
    refine ⟨_, rfl, ?_⟩
    obtain rfl := Option.some.inj ((h.copied.get?_index hv₀).symm.trans hv)
    by_cases itself : v₀.table = t
    · -- the index has been made by an INDEX clause, and has got its fields afterwards
      have own := mem_indexesOf_of_chosen chosen
      rw [itself, h.own] at own
      obtain ⟨p, hp, rfl⟩ := List.mem_map.1 own
      obtain rfl := Option.some.inj (hv₀.symm.trans (h.made p hp))
      refine ⟨_, v', h.get?_own hp, rfl, later, same, absurd itself, fun _ => ?_⟩
      exact List.forall₂_nil_left_iff.1 counterparts
    · have other : i ∉ c.indexes.map (·.1) := by
        rintro own
        obtain ⟨p, hp, rfl⟩ := List.mem_map.1 own
        obtain rfl := Option.some.inj (hv₀.symm.trans (h.made p hp))
        exact itself rfl
      refine ⟨v₀, v', h.get?_other hv other, rfl, later, same, fun _ => ?_,
        fun h => absurd h itself⟩
      rw [h.counterpart?]
      exact counterparts

theorem indexesOk : IndexesOk tree (z.frozen t) t (c.indexes.map (·.2)) (c.useIndex.map (·.1))
    c.source? (c.indexes.map (·.1)) copies where
  listed := h.listed
  explicit := by
    rw [List.forall₂_map_left_iff, List.forall₂_map_right_iff, List.forall₂_same]
    exact fun p hp => h.get?_own hp
  inherits := by
    rw [List.isEmpty_map, h.chosenIndexes]
    obtain ⟨length, pairs⟩ := List.forall₂_iff_zip.1 h.copied.copies
    refine List.forall₂_iff_zip.2 ⟨length, fun {i j} hij => ?_⟩
    obtain ⟨chosen, copy⟩ := List.of_mem_zip hij
    exact h.inherits chosen copy (pairs hij)
  alone source none := h.copies_eq_nil source (List.map_eq_nil_iff.1 none)

/-- The findings about fields of indexes are about those that INDEX clauses name. -/
theorem findings : (z.frozen t).skippedFields = x.skippedFields ++
    (c.indexes.map (·.2)).flatMap (tree.skippedBy (z.frozen t) t) := by
  have same : tree.skippedBy (z.frozen t) t = tree.skippedBy y t := by
    funext m
    rw [ParseTree.skippedBy, h.firstField?, ← h.copied.firstField?, ParseTree.skippedBy]
  have made : ∀ p ∈ c.indexes, ∃ fields, y.indexes.get? p.1 = some (tree.indexOf p.2 t fields) :=
    fun p hp => ⟨[], h.copied.get?_index (h.made p hp)⟩
  rw [same, ← missedFields_flatMap made, ← h.copied.findings]
  exact h.filled.findings

end Ended

/-! ### Tables that take nothing more -/

section Later

variable {opened : List SymbolId} (kept : x.KeepsTables y) (ok : x.TablesOk opened none)
include kept ok

theorem TablesOk.get?_table {table : Table} (found : x.tables.get? s = some table) :
    y.tables.get? s = some table := by
  refine kept.tables s table found ?_
  by_contra unfrozen
  cases ok.unfrozen s ⟨table, found, Bool.eq_false_iff.2 unfrozen⟩

theorem TablesOk.get?_index {i : IndexId} {v : TableIndex} (found : x.indexes.get? i = some v) :
    y.indexes.get? i = some v := by
  have listed := (ok.indexes.listed v.table i).2 (by rw [indexOwner, found]; rfl)
  cases htable : x.tables.get? v.table with
  | none => simp [indexesOf, htable] at listed
  | some table =>
    refine kept.indexes i v table found htable ?_
    by_contra unfrozen
    cases ok.unfrozen v.table ⟨table, htable, Bool.eq_false_iff.2 unfrozen⟩

theorem TablesOk.fieldName? {f : FieldId} (listed : f ∈ x.fieldsOf s) :
    y.fieldName? f = x.fieldName? f := by
  obtain ⟨v, hv, owned⟩ := Option.bind_eq_some_iff.1 ((ok.fields.listed s f).1 listed)
  rw [UnitIndex.fieldName?, UnitIndex.fieldName?, kept.fields f v hv (by rw [owned]; rfl), hv]

section Table

variable (there : s.val < x.tables.size)
include there

theorem TablesOk.indexesOf : y.indexesOf s = x.indexesOf s := by
  obtain ⟨table, found⟩ := Arena.exists_get? there
  rw [UnitIndex.indexesOf, UnitIndex.indexesOf, ok.get?_table kept found, found]

theorem TablesOk.firstField? : y.firstField? s = x.firstField? s := by
  obtain ⟨table, found⟩ := Arena.exists_get? there
  funext name
  have lists : y.fieldsOf s = x.fieldsOf s := by
    rw [fieldsOf, fieldsOf, ok.get?_table kept found, found]
  rw [UnitIndex.firstField?, UnitIndex.firstField?, lists]
  exact List.find?_congr fun f hf => by rw [ok.fieldName? kept hf]

theorem TablesOk.indexNamed? : y.indexNamed? s = x.indexNamed? s := by
  funext name
  rw [indexNamed?_eq, indexNamed?_eq, ok.indexesOf kept there]
  refine List.find?_congr fun i hi => ?_
  obtain ⟨v, hv, -⟩ := Option.bind_eq_some_iff.1 ((ok.indexes.listed s i).1 hi)
  rw [indexHasName_of_get? hv, indexHasName_of_get? (ok.get?_index kept hv)]

theorem TablesOk.skippedBy : tree.skippedBy y s = tree.skippedBy x s := by
  funext m
  rw [ParseTree.skippedBy, ok.firstField? kept there, ParseTree.skippedBy]

theorem Inherits.later {r : TableId} {i j : IndexId} (h : x.Inherits s r i j) :
    y.Inherits s r i j := by
  obtain ⟨v, v', hv, hr, hv', same, counterparts, itself⟩ := h
  refine ⟨v, v', ok.get?_index kept hv, hr, ok.get?_index kept hv', same, fun other => ?_, itself⟩
  have owned := (List.forall₂_and_left v.fields v'.fields).2
    ⟨ok.indexFields i v hv, counterparts other⟩
  refine owned.imp fun f g ⟨listed, counterpart⟩ => ?_
  rw [UnitIndex.counterpart?, ok.fieldName? kept (hasField_iff.1 listed), ok.firstField? kept there]
  exact counterpart

end Table

/-- What is true of the indexes of a table when its definition ends stays true. -/
theorem IndexesOk.later {clauses : List NodeId} {names : List String} {source : Option TableId}
    {own inherited : List IndexId} (h : IndexesOk tree x t clauses names source own inherited)
    (there : t.val < x.tables.size) (known : ∀ s, source = some s → s.val < x.tables.size) :
    IndexesOk tree y t clauses names source own inherited where
  listed := (ok.indexesOf kept there).trans h.listed
  explicit := by
    refine h.explicit.imp fun m i hi => ?_
    rw [ParseTree.indexFields, ok.firstField? kept there]
    exact ok.get?_index kept hi
  inherits := by
    have chosen : y.chosenIndexes (!clauses.isEmpty) names source =
        x.chosenIndexes (!clauses.isEmpty) names source := by
      cases hsource : source with
      | none => rfl
      | some s =>
        rw [chosenIndexes, chosenIndexes, ok.indexesOf kept (known s hsource),
          ok.indexNamed? kept (known s hsource)]
    rw [chosen]
    refine h.inherits.imp fun i j hij => ?_
    obtain ⟨s, like, hij⟩ := hij
    exact ⟨s, like, hij.later kept ok there⟩
  alone := h.alone

end Later

end UnitIndex

end AblResolve
