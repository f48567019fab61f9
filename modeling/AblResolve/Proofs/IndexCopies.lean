import AblResolve.Proofs.CatalogNames
import AblResolve.Proofs.TableClauses
import Mathlib.Data.List.Find
/-!
The end of a table definition. First indexes are copied from the table that it is like; their fields
are found again by name among the fields of the new table, and if they are all there, nothing is
reported. Then the fields that its own INDEX clauses name are looked up in the same way.
-/
namespace AblResolve

namespace UnitIndex

variable {x y z : UnitIndex} {t s : TableId} {name : String}

/-! ### First by name -/

/-- The first field of a table with a name, in any case of letters. -/
def firstField? (x : UnitIndex) (t : TableId) (name : String) : Option FieldId :=
  (x.fieldsOf t).find? fun f =>
    match x.fieldName? f with
    | some full => Text.same full name
    | none => false

/-- Names of the fields of the unit's own tables are not abbreviated. -/
theorem fieldNamed?_own {table : Table} (found : x.tables.get? t = some table)
    (own : table.kind ≠ .schema) : (x.fieldNamed? t name).map (·.item) = x.firstField? t name := by
  have candidates : ∀ fs : List FieldId,
      ((fs.filterMap fun f => (x.fields.get? f).map fun field => (field.name, f)).find?
        fun c => Text.same c.1 name).map (·.2) = fs.find? fun f =>
          match x.fieldName? f with
          | some full => Text.same full name
          | none => false := by
    intro fs
    induction fs with
    | nil => rfl
    | cons f fs ih =>
      rw [List.find?_cons, fieldName?, List.filterMap_cons]
      cases hf : x.fields.get? f with
      | none => simpa using ih
      | some field =>
        simp only [Option.map_some, List.find?_cons]
        cases Text.same field.name name with
        | true => rfl
        | false => exact ih
  have plain : decide (table.kind = .schema) = false := decide_eq_false own
  rw [fieldNamed?, found, Option.bind_some, firstField?, fieldsOf, found, Option.map_some,
    Option.getD_some, ← candidates, plain, Text.matchName, fieldCandidates]
  cases (table.fields.filterMap fun f => (x.fields.get? f).map fun field => (field.name, f)).find?
    fun c => Text.same c.1 name <;> simp

/-- A table that has a field of the name has a first one. -/
theorem exists_firstField? {g : FieldId} (listed : x.HasField t g)
    (named : x.fieldName? g = some name) : ∃ f, x.firstField? t name = some f := by
  refine Option.isSome_iff_exists.1 (List.find?_isSome.2 ⟨g, hasField_iff.1 listed, ?_⟩)
  simp [named, Text.same]

/-- Whether an index has a name, in any case of letters. -/
def indexHasName (x : UnitIndex) (name : String) (i : IndexId) : Bool :=
  match x.indexes.get? i with
  | some v => Text.same v.name name
  | none => false

theorem indexHasName_of_get? {i : IndexId} {v : TableIndex} (h : x.indexes.get? i = some v) :
    x.indexHasName name i = Text.same v.name name := by
  rw [indexHasName, h]

theorem indexNamed?_eq (x : UnitIndex) (t : TableId) (name : String) :
    x.indexNamed? t name = (x.indexesOf t).find? (x.indexHasName name) := by
  rw [indexNamed?, indexesOf]
  cases x.tables.get? t <;> rfl

theorem mem_indexesOf_of_indexNamed? {i : IndexId} (h : x.indexNamed? t name = some i) :
    i ∈ x.indexesOf t := by
  rw [indexNamed?_eq] at h
  exact List.mem_of_find?_eq_some h

/-- The field of a table that stands for a field of another one: the first of the same name. -/
def counterpart? (x : UnitIndex) (t : TableId) (f : FieldId) : Option FieldId :=
  (x.fieldName? f).bind (x.firstField? t)

/-! ### Indexes that are copied -/

/-- All fields of the index have counterparts in the table. -/
def Copyable (x : UnitIndex) (t : TableId) (i : IndexId) : Prop :=
  ∃ v, x.indexes.get? i = some v ∧ ∀ f ∈ v.fields, ∃ g, x.counterpart? t f = some g

/-- Index `j` of the table is a copy of index `i`. -/
def CopyOf (x : UnitIndex) (t : TableId) (i j : IndexId) : Prop :=
  ∃ v v', x.indexes.get? i = some v ∧ x.indexes.get? j = some v' ∧
    v' = { v with table := t, fields := v'.fields } ∧
    List.Forall₂ (fun f g => x.counterpart? t f = some g) v.fields v'.fields

/-- In `y`, table `t` lists copies of the chosen indexes after those that it lists in `x`. There is
nothing else to tell between the two. -/
structure Copied (t : TableId) (chosen copies : List IndexId) (x y : UnitIndex) : Prop where
  tables : ∀ s, y.tables.get? s =
    if s = t then (x.tables.get? s).map fun v => { v with indexes := v.indexes ++ copies }
    else x.tables.get? s
  fields : y.fields = x.fields
  kept : x.indexes.Keeps id y.indexes
  copies : List.Forall₂ (y.CopyOf t) chosen copies
  findings : y.skippedFields = x.skippedFields

namespace Copied

variable {chosen chosen' copies copies' : List IndexId} (h : Copied t chosen copies x y)
include h

theorem fieldsOf (s : TableId) : y.fieldsOf s = x.fieldsOf s := by
  rw [UnitIndex.fieldsOf, UnitIndex.fieldsOf, h.tables]
  split
  · cases x.tables.get? s <;> rfl
  · rfl

theorem fieldName? : y.fieldName? = x.fieldName? := by
  funext f
  rw [UnitIndex.fieldName?, h.fields, UnitIndex.fieldName?]

theorem firstField? (s : TableId) : y.firstField? s = x.firstField? s := by
  funext name
  rw [UnitIndex.firstField?, h.fieldsOf, h.fieldName?, UnitIndex.firstField?]

theorem counterpart? (s : TableId) : y.counterpart? s = x.counterpart? s := by
  funext f
  rw [UnitIndex.counterpart?, h.fieldName?, h.firstField?, UnitIndex.counterpart?]

theorem get?_index {i : IndexId} {v : TableIndex} (hv : x.indexes.get? i = some v) :
    y.indexes.get? i = some v := by
  obtain ⟨v', hv', rfl⟩ := h.kept i v hv
  exact hv'

theorem indexesOf {table : Table} (found : x.tables.get? t = some table) :
    y.indexesOf t = x.indexesOf t ++ copies := by
  simp [UnitIndex.indexesOf, h.tables, found]

theorem copyable {i : IndexId} (hi : x.Copyable s i) : y.Copyable s i := by
  obtain ⟨v, hv, all⟩ := hi
  exact ⟨v, h.get?_index hv, fun f hf => by rw [h.counterpart?]; exact all f hf⟩

theorem copyOf {i j : IndexId} (hi : x.CopyOf s i j) : y.CopyOf s i j := by
  obtain ⟨v, v', hv, hv', same, all⟩ := hi
  refine ⟨v, v', h.get?_index hv, h.get?_index hv', same, ?_⟩
  rw [h.counterpart?]
  exact all

theorem trans (k : Copied t chosen' copies' y z) :
    Copied t (chosen ++ chosen') (copies ++ copies') x z where
  tables s := by
    rw [k.tables, h.tables]
    split
    · simp [Function.comp_def]
    · rfl
  fields := k.fields.trans h.fields
  kept := h.kept.trans k.kept
  copies := List.rel_append (h.copies.imp fun _ _ => k.copyOf) k.copies
  findings := k.findings.trans h.findings

/-- What is listed stays there. -/
theorem there (old : ∀ i ∈ x.indexesOf s, i.val < x.indexes.size) :
    ∀ i ∈ y.indexesOf s, i.val < y.indexes.size := by
  intro i hi
  rw [UnitIndex.indexesOf, h.tables] at hi
  by_cases same : s = t
  · rw [if_pos same] at hi
    cases hs : x.tables.get? s with
    | none => simp [hs] at hi
    | some table =>
      have listed : i ∈ x.indexesOf s ∨ i ∈ copies := by
        simpa [hs, UnitIndex.indexesOf] using hi
      rcases listed with listed | copied
      · exact h.kept.lt_size (old i listed)
      · obtain ⟨k, hk, rfl⟩ := List.getElem_of_mem copied
        obtain ⟨v, v', -, hv', -⟩ := h.copies.get (h.copies.length_eq ▸ hk) hk
        exact Arena.lt_size_of_get? hv'
  · rw [if_neg same] at hi
    exact h.kept.lt_size (old i hi)

/-- Names of indexes lead where they did before, since copies have the names of what is there. -/
theorem indexNamed? (listed : s = t → ∀ i ∈ chosen, i ∈ x.indexesOf t)
    (there : ∀ i ∈ x.indexesOf s, i.val < x.indexes.size) (name : String) :
    y.indexNamed? s name = x.indexNamed? s name := by
  have old : (x.indexesOf s).find? (y.indexHasName name) =
      (x.indexesOf s).find? (x.indexHasName name) := by
    refine List.find?_congr fun i hi => ?_
    obtain ⟨v, hv⟩ := Arena.exists_get? (there i hi)
    rw [indexHasName_of_get? hv, indexHasName_of_get? (h.get?_index hv)]
  rw [indexNamed?_eq, indexNamed?_eq]
  by_cases same : s = t
  · subst same
    cases hs : x.tables.get? s with
    | none =>
      have none : y.indexesOf s = x.indexesOf s := by simp [UnitIndex.indexesOf, h.tables, hs]
      rw [none, old]
    | some table =>
      rw [h.indexesOf hs, List.find?_append, old]
      cases hfirst : (x.indexesOf s).find? (x.indexHasName name) with
      | some i => rfl
      | none =>
        -- what a copy is of has not got the name either
        refine List.find?_eq_none.2 fun j hj => ?_
        obtain ⟨k, hk, rfl⟩ := List.getElem_of_mem hj
        have lt : k < chosen.length := h.copies.length_eq ▸ hk
        obtain ⟨v, v', hv, hv', copied, -⟩ := h.copies.get lt hk
        have sameName : v'.name = v.name := by rw [copied]
        have other := List.find?_eq_none.1 (old.trans hfirst) _ (listed rfl _ (List.getElem_mem lt))
        simp only [List.get_eq_getElem] at hv hv'
        rw [indexHasName_of_get? hv] at other
        rwa [← sameName, ← indexHasName_of_get? hv'] at other
  · have kept : y.indexesOf s = x.indexesOf s := by
      rw [UnitIndex.indexesOf, h.tables, if_neg same, UnitIndex.indexesOf]
    rw [kept, old]

end Copied

theorem copied_refl (t : TableId) (x : UnitIndex) : Copied t [] [] x x where
  tables s := by
    split
    · cases x.tables.get? s <;> simp
    · rfl
  fields := rfl
  kept := .refl _ _
  copies := .nil
  findings := rfl

/-- What is reported about copying is no finding about a field of an index. -/
theorem copied_report {d : Diagnostic} (other : d.code ≠ .skippedIndexField) :
    Copied t [] [] x { x with diagnostics := x.diagnostics.add d } :=
  { copied_refl t x with
    findings := by simp [skippedFields, Diagnostics.withCode, Diagnostics.add, other]
    copies := .nil }

/-- One more index, which is a copy. -/
theorem copied_withIndex {i : IndexId} {v : TableIndex} {fields : List FieldId}
    (hv : x.indexes.get? i = some v)
    (all : List.Forall₂ (fun f g => x.counterpart? t f = some g) v.fields fields) :
    Copied t [i] [x.indexes.next] x (x.withIndex { v with table := t, fields }) where
  tables s := by
    rw [withIndex, Arena.get?_update]
    by_cases same : t = s
    · rw [if_pos same, if_pos same.symm]
    · rw [if_neg same, if_neg (Ne.symm same)]
  fields := rfl
  kept := Arena.keeps_push _ _ _
  copies := by
    have old : (x.withIndex { v with table := t, fields }).counterpart? t = x.counterpart? t := by
      funext f
      unfold counterpart? firstField?
      have lists : (x.withIndex { v with table := t, fields }).fieldsOf t = x.fieldsOf t := by
        refine lists_update_of_eq ?_ t
        exact fun _ => rfl
      rw [lists]
      rfl
    refine .cons ⟨v, _, Arena.get?_push_of_get? hv, Arena.get?_push_next _ _, rfl, ?_⟩ .nil
    rw [old]
    exact all
  findings := rfl

/-! ### Fields that are looked up -/

/-- The fields of a table that an index is waiting for, as far as they are there. -/
def foundFields (x : UnitIndex) (t : TableId) (i : IndexId) (ps : List PendingIndexField) :
    List FieldId :=
  (ps.filter fun p => p.index = i).filterMap fun p => x.firstField? t p.name

/-- The findings about fields that indexes are waiting for and that are not there. -/
def missedFields (tree : ParseTree) (x : UnitIndex) (t : TableId) (ps : List PendingIndexField) :
    List Diagnostic :=
  ps.filterMap fun p =>
    if x.firstField? t p.name = none then
      (x.indexes.get? p.index).map fun v =>
        .skippedIndexField p.name v.name (tree.location p.node)
    else none

/-- In `y`, indexes have got the fields of table `t` that they are waiting for in `x`, and what is
not there has been reported. -/
structure Filled (tree : ParseTree) (t : TableId) (ps : List PendingIndexField)
    (x y : UnitIndex) : Prop where
  tables : y.tables = x.tables
  fields : y.fields = x.fields
  indexes : ∀ i, y.indexes.get? i = (x.indexes.get? i).map fun v =>
    { v with fields := v.fields ++ x.foundFields t i ps }
  findings : y.skippedFields = x.skippedFields ++ missedFields tree x t ps

namespace Filled

variable {tree : ParseTree} {ps ps' : List PendingIndexField}

theorem firstField? (h : Filled tree t ps x y) : y.firstField? = x.firstField? := by
  funext s name
  unfold UnitIndex.firstField? fieldsOf fieldName?
  rw [h.tables, h.fields]

theorem trans (h : Filled tree t ps x y) (k : Filled tree t ps' y z) :
    Filled tree t (ps ++ ps') x z where
  tables := k.tables.trans h.tables
  fields := k.fields.trans h.fields
  indexes i := by
    rw [k.indexes, h.indexes]
    simp [Function.comp_def, foundFields, h.firstField?]
  findings := by
    have same : ∀ p : PendingIndexField, ((y.indexes.get? p.index).map fun v =>
        Diagnostic.skippedIndexField p.name v.name (tree.location p.node)) =
        (x.indexes.get? p.index).map fun v =>
          .skippedIndexField p.name v.name (tree.location p.node) := by
      intro p
      rw [h.indexes]
      simp [Function.comp_def]
    rw [k.findings, h.findings]
    simp [missedFields, h.firstField?, same]

end Filled

/-- A table that the unit defines. -/
def OwnTable (x : UnitIndex) (t : TableId) : Prop :=
  ∃ table, x.tables.get? t = some table ∧ table.kind ≠ .schema

theorem Copied.ownTable {chosen copies : List IndexId} (h : Copied t chosen copies x y)
    (own : x.OwnTable t) : y.OwnTable t := by
  obtain ⟨table, found, kind⟩ := own
  refine ⟨{ table with indexes := table.indexes ++ copies }, ?_, kind⟩
  rw [h.tables, if_pos rfl, found]
  rfl

/-- The indexes of the table that a table is like of which it gets copies: those that USE-INDEX
clauses name, or else all of them, unless the table has indexes of its own. -/
def chosenIndexes (x : UnitIndex) (explicit : Bool) (names : List String) :
    Option TableId → List IndexId
  | some s =>
    if names.isEmpty then if explicit then [] else x.indexesOf s
    else names.filterMap (x.indexNamed? s)
  | none => []

/-- What is chosen is there. -/
theorem mem_indexesOf_of_chosen {explicit : Bool} {names : List String} {i : IndexId}
    (h : i ∈ x.chosenIndexes explicit names (some s)) : i ∈ x.indexesOf s := by
  rw [chosenIndexes] at h
  cases hnames : names.isEmpty with
  | true =>
    cases explicit with
    | true => simp [hnames] at h
    | false => simpa [hnames] using h
  | false =>
    rw [hnames, if_neg (by decide)] at h
    obtain ⟨name, -, hname⟩ := List.mem_filterMap.1 h
    exact mem_indexesOf_of_indexNamed? hname

end UnitIndex

namespace Walk

open UnitIndex

variable {env : Env} {w w' : Walk} {t : TableId}

theorem indexAt_ok {i : IndexId} {v : TableIndex} :
    indexAt i w = .ok v w' ↔ w.index.indexes.get? i = some v ∧ w = w' := fetch_ok

/-- If all fields have counterparts, these are found, and nothing is reported. -/
theorem correspondingFields_ok {index : TableIndex} {location : Location}
    {fields out : List FieldId} (own : w.index.OwnTable t)
    (all : ∀ f ∈ fields, ∃ g, w.index.counterpart? t f = some g)
    (hok : correspondingFields t index location fields w = .ok out w') :
    w' = w ∧ List.Forall₂ (fun f g => w.index.counterpart? t f = some g) fields out := by
  induction fields generalizing out w' with
  | nil =>
    cases hok
    exact ⟨rfl, .nil⟩
  | cons f rest ih =>
    obtain ⟨g, hg⟩ := all f List.mem_cons_self
    unfold correspondingFields at hok
    obtain ⟨field, w₁, hfield, hrest⟩ := bind_ok.1 hok
    obtain ⟨found, rfl⟩ := fieldAt_ok.1 hfield
    obtain ⟨x, w₂, hx, hmatch⟩ := bind_ok.1 hrest
    cases hx
    obtain ⟨table, htable, kind⟩ := own
    have named : (w.index.fieldNamed? t field.name).map (·.item) = some g := by
      rw [fieldNamed?_own htable kind, ← hg, counterpart?, fieldName?, found]
      rfl
    obtain ⟨m, hm, rfl⟩ := Option.map_eq_some_iff.1 named
    rw [hm] at hmatch
    obtain ⟨others, w₃, hothers, hpure⟩ := bind_ok.1 hmatch
    obtain ⟨rfl, rest'⟩ := ih (fun f hf => all f (List.mem_cons_of_mem _ hf)) hothers
    cases hpure
    exact ⟨rfl, .cons hg rest'⟩

theorem copyIndex_ok {i : IndexId} (own : w.index.OwnTable t) (copyable : w.index.Copyable t i)
    (hok : copyIndex env i t w = .ok () w') : ∃ j, Copied t [i] [j] w.index w'.index := by
  obtain ⟨v, hv, all⟩ := copyable
  unfold copyIndex at hok
  obtain ⟨v', w₁, hindex, hrest⟩ := bind_ok.1 hok
  obtain ⟨found, rfl⟩ := indexAt_ok.1 hindex
  cases hv.symm.trans found
  obtain ⟨table, w₂, htable, hmatch⟩ := bind_ok.1 hrest
  obtain ⟨-, rfl⟩ := tableAt_ok.1 htable
  cases hnode : table.definitionNode with
  | none =>
    rw [hnode] at hmatch
    cases hmatch
  | some n =>
    rw [hnode] at hmatch
    obtain ⟨fields, w₃, hfields, happend⟩ := bind_ok.1 hmatch
    obtain ⟨rfl, counterparts⟩ := correspondingFields_ok own all hfields
    obtain ⟨j, w₄, hj, hpure⟩ := bind_ok.1 happend
    obtain ⟨rfl, rfl⟩ := appendIndex_ok hj
    cases hpure
    exact ⟨_, copied_withIndex hv counterparts⟩

theorem copyIndexes_ok {chosen : List IndexId} (own : w.index.OwnTable t)
    (copyable : ∀ i ∈ chosen, w.index.Copyable t i)
    (hok : (chosen.forM fun i => copyIndex env i t) w = .ok () w') :
    ∃ copies, Copied t chosen copies w.index w'.index := by
  induction chosen generalizing w with
  | nil =>
    cases hok
    exact ⟨[], copied_refl t _⟩
  | cons i rest ih =>
    obtain ⟨_, w₁, hfirst, hrest⟩ := bind_ok.1 hok
    obtain ⟨j, first⟩ := copyIndex_ok own (copyable i List.mem_cons_self) hfirst
    obtain ⟨copies, others⟩ := ih (first.ownTable own)
      (fun i hi => first.copyable (copyable i (List.mem_cons_of_mem _ hi))) hrest
    exact ⟨j :: copies, first.trans others⟩

theorem reportUseIndex_ok {s : TableId} {name : String} {l : Location}
    (hok : (do report (.unknownUseIndex name (← tableAt s).name l) : WalkM Unit) w = .ok () w') :
    Copied t [] [] w.index w'.index := by
  obtain ⟨table, w₁, htable, hreport⟩ := bind_ok.1 hok
  obtain ⟨-, rfl⟩ := tableAt_ok.1 htable
  cases hreport
  exact copied_report nofun

/-- USE-INDEX clauses of a table that is like no other one: there is nothing to copy. -/
theorem reportUseIndexes_ok {names : List (String × NodeId)}
    (hok : (names.forM fun p => do
      report (.unknownUseIndex p.1 (← tableAt s).name (env.tree.location p.2)) : WalkM Unit) w =
        .ok () w') : Copied t [] [] w.index w'.index := by
  induction names generalizing w with
  | nil =>
    cases hok
    exact copied_refl _ _
  | cons p rest ih =>
    obtain ⟨_, w₁, hfirst, hrest⟩ := bind_ok.1 hok
    exact Copied.trans (reportUseIndex_ok hfirst) (ih hrest)

/-- USE-INDEX clauses: names that are unknown are passed over. -/
theorem copyNamedIndexes_ok {s : TableId} {names : List (String × NodeId)}
    (own : w.index.OwnTable t) (there : ∀ i ∈ w.index.indexesOf s, i.val < w.index.indexes.size)
    (copyable : ∀ name i, w.index.indexNamed? s name = some i → w.index.Copyable t i)
    (hok : copyNamedIndexes env s t names w = .ok () w') :
    ∃ copies, Copied t ((names.map (·.1)).filterMap (w.index.indexNamed? s)) copies
      w.index w'.index := by
  induction names generalizing w with
  | nil =>
    cases hok
    exact ⟨[], copied_refl t _⟩
  | cons p rest ih =>
    -- what is copied, or reported, first leaves the names after it alone
    have others : ∀ {w₁ chosen copies}, Copied t chosen copies w.index w₁.index →
        (∀ i ∈ chosen, i ∈ w.index.indexesOf s) →
        copyNamedIndexes env s t rest w₁ = .ok () w' →
        ∃ copies', Copied t (chosen ++ (rest.map (·.1)).filterMap (w.index.indexNamed? s))
          (copies ++ copies') w.index w'.index := by
      intro w₁ chosen copies first listed hrest
      have same : w₁.index.indexNamed? s = w.index.indexNamed? s :=
        funext fun name => first.indexNamed? (fun h => h ▸ listed) there name
      obtain ⟨copies', copied⟩ := ih (first.ownTable own) (first.there there)
        (fun name i hi => first.copyable (copyable name i (same ▸ hi))) hrest
      rw [same] at copied
      exact ⟨copies', first.trans copied⟩
    obtain ⟨_, w₁, hfirst, hrest⟩ := bind_ok.1 hok
    obtain ⟨x, w₂, hx, hmatch⟩ := bind_ok.1 hfirst
    cases hx
    rw [List.map_cons]
    cases hi : w.index.indexNamed? s p.1 with
    | some i =>
      rw [hi] at hmatch
      obtain ⟨j, first⟩ := copyIndex_ok own (copyable p.1 i hi) hmatch
      obtain ⟨copies, copied⟩ := others first (by simp [mem_indexesOf_of_indexNamed? hi]) hrest
      exact ⟨_, by rwa [List.filterMap_cons_some hi]⟩
    | none =>
      rw [hi] at hmatch
      obtain ⟨copies, copied⟩ := others (reportUseIndex_ok hmatch) (by simp) hrest
      exact ⟨_, by rwa [List.filterMap_cons_none hi]⟩

/-- The indexes that a table has because it is like another one are copies of those chosen. -/
theorem inheritIndexes_ok {d : TableDefinition} (own : w.index.OwnTable d.table)
    (there : ∀ s, ∀ i ∈ w.index.indexesOf s, i.val < w.index.indexes.size)
    (copyable : ∀ s, d.like = some s → ∀ i ∈ w.index.indexesOf s, w.index.Copyable d.table i)
    (hok : inheritIndexes env d w = .ok () w') :
    ∃ copies, Copied d.table
      (w.index.chosenIndexes d.hasExplicitIndex (d.useIndex.map (·.1)) d.like) copies
      w.index w'.index := by
  unfold inheritIndexes at hok
  cases hlike : d.like with
  | some s =>
    rw [hlike] at hok
    dsimp only at hok
    rw [chosenIndexes, List.isEmpty_map]
    cases hnames : d.useIndex.isEmpty with
    | false =>
      rw [hnames] at hok
      exact copyNamedIndexes_ok own (there s) (fun name i hi =>
        copyable s hlike i (mem_indexesOf_of_indexNamed? hi)) hok
    | true =>
      cases hexplicit : d.hasExplicitIndex with
      | true =>
        rw [hnames, hexplicit] at hok
        cases hok
        exact ⟨[], copied_refl _ _⟩
      | false =>
        rw [hnames, hexplicit] at hok
        obtain ⟨table, w₁, htable, hcopies⟩ := bind_ok.1 hok
        obtain ⟨found, rfl⟩ := tableAt_ok.1 htable
        have lists : table.indexes = w.index.indexesOf s := by simp [indexesOf, found]
        rw [lists] at hcopies
        exact copyIndexes_ok own (copyable s hlike) hcopies
  | none =>
    rw [hlike] at hok
    dsimp only at hok
    exact ⟨[], reportUseIndexes_ok hok⟩

theorem updateTableIndex_ok {i : IndexId} {f : TableIndex → TableIndex}
    (hok : updateTableIndex i f w = .ok () w') :
    w' = { w with index := { w.index with indexes := w.index.indexes.update i f } } := by
  unfold updateTableIndex at hok
  obtain ⟨v, w₁, hv, hrest⟩ := bind_ok.1 hok
  obtain ⟨-, rfl⟩ := indexAt_ok.1 hv
  cases hrest
  rfl

theorem resolveIndexField_ok {p : PendingIndexField} (own : w.index.OwnTable t)
    (hok : resolveIndexField env t p w = .ok () w') :
    Filled env.tree t [p] w.index w'.index := by
  obtain ⟨table, htable, kind⟩ := own
  have named : (w.index.fieldNamed? t p.name).map (·.item) = w.index.firstField? t p.name :=
    fieldNamed?_own htable kind
  unfold resolveIndexField at hok
  obtain ⟨x, w₁, hx, hmatch⟩ := bind_ok.1 hok
  cases hx
  cases hfind : w.index.fieldNamed? t p.name with
  | some found =>
    rw [hfind] at hmatch named
    obtain rfl := updateTableIndex_ok hmatch
    rw [Option.map_some] at named
    refine ⟨rfl, rfl, fun i => ?_, ?_⟩
    · rw [Arena.get?_update]
      by_cases same : p.index = i
      · simp [same, foundFields, ← named]
      · simp [same, foundFields]
    · simp [missedFields, ← named, skippedFields]
  | none =>
    rw [hfind] at hmatch named
    obtain ⟨v, w₂, hv, hreport⟩ := bind_ok.1 hmatch
    obtain ⟨found, rfl⟩ := indexAt_ok.1 hv
    cases hreport
    rw [Option.map_none] at named
    refine ⟨rfl, rfl, fun i => ?_, ?_⟩
    · have nothing : w.index.foundFields t i [p] = [] := by
        by_cases same : p.index = i <;> simp [foundFields, same, ← named]
      rw [nothing]
      simp
    · simp [missedFields, ← named, found, skippedFields, Diagnostics.withCode, Diagnostics.add,
        Diagnostic.skippedIndexField]

theorem filled_nil (tree : ParseTree) (t : TableId) (x : UnitIndex) : Filled tree t [] x x where
  tables := rfl
  fields := rfl
  indexes i := by simp [foundFields]
  findings := by simp [missedFields]

theorem resolveIndexFields_ok {ps : List PendingIndexField} (own : w.index.OwnTable t)
    (hok : ps.forM (resolveIndexField env t) w = .ok () w') :
    Filled env.tree t ps w.index w'.index := by
  induction ps generalizing w with
  | nil =>
    cases hok
    exact filled_nil _ _ _
  | cons p rest ih =>
    obtain ⟨_, w₁, hfirst, hrest⟩ := bind_ok.1 hok
    have first := resolveIndexField_ok own hfirst
    have own' : w₁.index.OwnTable t := by
      rw [OwnTable, first.tables]
      exact own
    exact first.trans (ih own' hrest)

/-- The end of a definition: copies first, then the fields of the table's own indexes. -/
theorem finishTable_ok {d : TableDefinition} (own : w.index.OwnTable d.table)
    (there : ∀ s, ∀ i ∈ w.index.indexesOf s, i.val < w.index.indexes.size)
    (copyable : ∀ s, d.like = some s → ∀ i ∈ w.index.indexesOf s, w.index.Copyable d.table i)
    (hok : finishTable env d w = .ok () w') :
    ∃ copies y z, Copied d.table
        (w.index.chosenIndexes d.hasExplicitIndex (d.useIndex.map (·.1)) d.like) copies w.index y ∧
      Filled env.tree d.table d.indexFields y z ∧ w'.index = z.frozen d.table := by
  unfold finishTable at hok
  obtain ⟨_, w₁, hinherit, hrest⟩ := bind_ok.1 hok
  obtain ⟨copies, copied⟩ := inheritIndexes_ok own there copyable hinherit
  obtain ⟨_, w₂, hresolve, hfreeze⟩ := bind_ok.1 hrest
  have filled := resolveIndexFields_ok (copied.ownTable own) hresolve
  obtain rfl := updateTable_ok hfreeze
  exact ⟨copies, _, _, copied, filled, rfl⟩

end Walk

end AblResolve
