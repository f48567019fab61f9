import AblResolve.Proofs.Exits
import AblResolve.Proofs.TypeClauses
/-!
The clauses of a table definition. INDEX and USE-INDEX clauses and the tables of LIKE clauses are
gathered in the order in which they are completed, and it is these that the end of the definition
has to deal with. Whatever else is visited while the definition is open makes no index, and changes
none; the definition itself stays as the clauses have left it.
-/
namespace AblResolve

/-! ### Clauses -/

namespace ParseTree

/-- The INDEX clauses among some nodes. -/
def indexClauses (t : ParseTree) (ns : List NodeId) : List NodeId :=
  ns.filter fun m => t.kind m = .tableIndex

/-- The names that the USE-INDEX clauses among some nodes give, each with its clause. -/
def useIndexes (t : ParseTree) (ns : List NodeId) : List (String × NodeId) :=
  (ns.filter fun m => t.kind m = .tableUseIndex).map fun m => (t.definedName m, m)

/-- The records whose tables the LIKE clauses among some nodes copy. -/
def likeRecords (t : ParseTree) (ns : List NodeId) : List NodeId :=
  ns.filterMap fun m => if t.kind m = .tableLike then t.childOfKind? m .record else none

/-- The index that an INDEX clause describes, with these fields. -/
def indexOf (t : ParseTree) (m : NodeId) (table : TableId) (fields : List FieldId) :
    TableIndex where
  name := t.definedName m
  table
  fields
  unique := t.hasKeyword m .unique
  primary := t.hasKeyword m .primary
  word := t.hasKeyword m .word

/-- The fields that an INDEX clause names, which are looked up at the end of the definition. -/
def awaitedFields (t : ParseTree) (index : IndexId) (m : NodeId) : List PendingIndexField :=
  (t.childrenOfKind m .indexField).map fun f => { index, name := t.text f, node := f }

end ParseTree

/-- What clauses have added to a table definition: the indexes that INDEX clauses have made, what
USE-INDEX clauses name, and the records of LIKE clauses with the tables that were copied. -/
structure TableClauses where
  indexes : List (IndexId × NodeId) := []
  useIndex : List (String × NodeId) := []
  sources : List (NodeId × TableId) := []

/-- First some clauses, then others. -/
def TableClauses.append (c c' : TableClauses) : TableClauses :=
  ⟨c.indexes ++ c'.indexes, c.useIndex ++ c'.useIndex, c.sources ++ c'.sources⟩

/-- A table definition to which clauses have been added. -/
def TableDefinition.after (t : ParseTree) (d : TableDefinition) (c : TableClauses) :
    TableDefinition :=
  { d with
    like := (c.sources.getLast?.map (·.2)).or d.like
    useIndex := d.useIndex ++ c.useIndex
    hasExplicitIndex := d.hasExplicitIndex || !c.indexes.isEmpty
    indexFields := d.indexFields ++ c.indexes.flatMap fun p => t.awaitedFields p.1 p.2 }

namespace TableDefinition

variable {t : ParseTree} {d : TableDefinition}

@[simp] theorem after_table (c : TableClauses) : (d.after t c).table = d.table := rfl

theorem after_none : d.after t {} = d := by
  simp [after]

theorem after_append (c c' : TableClauses) :
    (d.after t c).after t c' = d.after t (c.append c') := by
  have empty : (c.indexes ++ c'.indexes).isEmpty = (c.indexes.isEmpty && c'.indexes.isEmpty) := by
    cases c.indexes <;> rfl
  simp only [after, TableClauses.append, List.getLast?_append, Option.map_or, Option.or_assoc,
    List.append_assoc, List.flatMap_append, empty, Bool.not_and, Bool.or_assoc]

end TableDefinition

/-! ### What makes no index -/

namespace UnitIndex

variable {x y z : UnitIndex} {opened : List SymbolId} {typing : Prop}

/-- The findings about fields of indexes that are not there. -/
def skippedFields (x : UnitIndex) : List Diagnostic := x.diagnostics.withCode .skippedIndexField

/-- Tables list the same indexes, which are the same, and no field of one has been skipped. -/
structure KeepsIndexes (x y : UnitIndex) : Prop where
  indexes : x.indexes.Keeps id y.indexes
  tables : x.tables.Keeps Table.indexes y.tables
  findings : y.skippedFields = x.skippedFields

theorem KeepsIndexes.refl (x : UnitIndex) : x.KeepsIndexes x := ⟨.refl _ _, .refl _ _, rfl⟩

theorem KeepsIndexes.trans (h : x.KeepsIndexes y) (k : y.KeepsIndexes z) : x.KeepsIndexes z :=
  ⟨h.indexes.trans k.indexes, h.tables.trans k.tables, k.findings.trans h.findings⟩

theorem KeepsIndexes.indexesOf (h : x.KeepsIndexes y) {t : TableId}
    (lt : t.val < x.tables.size) : y.indexesOf t = x.indexesOf t := by
  obtain ⟨v, hv⟩ := Arena.exists_get? lt
  obtain ⟨v', hv', same⟩ := h.tables t v hv
  simp [UnitIndex.indexesOf, hv, hv', same]

theorem Change.keepsIndexes (c : x.Change opened typing False y) : x.KeepsIndexes y where
  indexes := by
    cases c with
    | load => exact Arena.keeps_pushAll _ _ _
    | createIndex _ _ allowed | addIndexField _ _ _ allowed => exact allowed.elim
    | _ => exact .refl _ _
  tables := by
    cases c with
    | load => exact Arena.keeps_push _ _ _
    | copyFields => exact Arena.keeps_update fun _ _ => rfl
    | createIndex _ _ allowed => exact allowed.elim
    | _ => exact .refl _ _
  findings := by
    cases c with
    | report d other like skip =>
      have unskipped : ¬ d.code = .skippedIndexField := skip
      simp [skippedFields, Diagnostics.withCode, Diagnostics.add, unskipped]
    | _ => rfl

theorem Refers.keepsIndexes (h : x.Refers y) (same : y.diagnostics = x.diagnostics) :
    x.KeepsIndexes y where
  indexes := h.indexes ▸ .refl _ _
  tables := h.tables ▸ .refl _ _
  findings := congrArg (Diagnostics.withCode · _) same

/-! ### Tables that have the fields of others -/

/-- Unless both are the same, table `s` takes nothing more, and for each of its fields table `t` has
one of the same name. -/
def Covers (x : UnitIndex) (t s : TableId) : Prop :=
  s ≠ t → (∃ table, x.tables.get? s = some table ∧ table.frozen = true) ∧
    ∀ f, x.HasField s f → ∃ g name, x.HasField t g ∧ x.fieldName? f = some name ∧
      x.fieldName? g = some name

/-- What belongs to a table goes on to do so. -/
theorem KeepsTables.hasField {opened opened' : List SymbolId} {current current' : Option TableId}
    (kept : x.KeepsTables y) (ok : x.TablesOk opened current) (ok' : y.TablesOk opened' current')
    {t : TableId} {f : FieldId} (h : x.HasField t f) : y.HasField t f := by
  have owner := (ok.fields.listed t f).1 (hasField_iff.1 h)
  obtain ⟨v, hv, htable⟩ := Option.bind_eq_some_iff.1 owner
  refine hasField_iff.2 ((ok'.fields.listed t f).2 ?_)
  rw [fieldOwner, kept.fields f v hv (by rw [htable]; rfl)]
  exact htable

theorem Covers.later {opened opened' : List SymbolId} {current current' : Option TableId}
    {t s : TableId} (h : x.Covers t s) (ext : x.Extends y) (kept : x.KeepsTables y)
    (ok : x.TablesOk opened current) (ok' : y.TablesOk opened' current') : y.Covers t s := by
  intro hne
  obtain ⟨⟨table, found, frozen⟩, covered⟩ := h hne
  have found' := kept.tables s table found frozen
  refine ⟨⟨table, found', frozen⟩, fun f hf => ?_⟩
  obtain ⟨table', hs, hmem⟩ := hf
  rw [found'] at hs
  cases hs
  obtain ⟨g, name, hg, hname, hsame⟩ := covered f ⟨table, found, hmem⟩
  exact ⟨g, name, kept.hasField ok ok' hg, ext.fieldName? hname, ext.fieldName? hsame⟩

/-- The index after copies of fields have been added to a table. -/
def withCopies (x : UnitIndex) (t : TableId) (fields : List Field) : UnitIndex :=
  withFields { x with
    fields := x.fields.pushAll (fields.map fun f => { f with table := some t }) } t
    (x.fields.nextIds fields.length)

/-- A table from which all fields are copied is covered. -/
theorem covers_withCopies {t s : TableId} {table own : Table}
    {fields : List Field} (ok : x.TablesOk opened (some t)) (found : x.tables.get? s = some table)
    (foundOwn : x.tables.get? t = some own)
    (all : ∀ f ∈ table.fields, ∃ v ∈ fields, x.fields.get? f = some v) :
    (x.withCopies t fields).Covers t s := by
  intro hne
  have found' : (x.withCopies t fields).tables.get? s = some table := by
    rw [withCopies, withFields, Arena.get?_update, if_neg (Ne.symm hne), found]
  refine ⟨⟨table, found', ?_⟩, fun f hf => ?_⟩
  · by_contra unfrozen
    exact hne (Option.some.inj (ok.unfrozen s ⟨table, found, Bool.eq_false_iff.2 unfrozen⟩)).symm
  · obtain ⟨table', hs, hmem⟩ := hf
    rw [found'] at hs
    cases hs
    obtain ⟨v, hv, hget⟩ := all f hmem
    obtain ⟨k, hk, rfl⟩ := List.getElem_of_mem hv
    let g : FieldId := ⟨x.fields.size + k⟩
    have listed : g ∈ x.fields.nextIds fields.length := Arena.mem_nextIds.2 (by simp [g, hk])
    have copied : (x.withCopies t fields).fields.get? g =
        some { fields[k] with table := some t } := by
      rw [withCopies, withFields, Arena.get?_pushAll, if_neg (by simp [g])]
      simp [g, hk]
    have old : (x.withCopies t fields).fields.get? f = some fields[k] := by
      rw [withCopies, withFields, Arena.get?_pushAll_of_lt (Arena.lt_size_of_get? hget), hget]
    refine ⟨g, fields[k].name, ⟨{ own with fields := own.fields ++ x.fields.nextIds fields.length },
      ?_, List.mem_append_right _ listed⟩, ?_, ?_⟩
    · rw [withCopies, withFields, Arena.get?_update, if_pos rfl, foundOwn]
      rfl
    · rw [fieldName?, old]
      rfl
    · rw [fieldName?, copied]
      rfl

end UnitIndex

namespace Walk

open UnitIndex

variable {env : Env} {n : NodeId} {v w w' w'' : Walk}

theorem Turn.keepsIndexes (turn : Turn w w') : w.index.KeepsIndexes w'.index := by
  cases turn with
  | beginTable => exact ⟨.refl _ _, Arena.keeps_push _ _ _, rfl⟩
  | joinField | finishTable => exact ⟨.refl _ _, Arena.keeps_update fun _ _ => rfl, rfl⟩
  | define | beginField | reframe | endDefinition => exact ⟨.refl _ _, .refl _ _, rfl⟩

/-- Indexes stay as they are. If in the end a table is being defined that was there before, it has
been defined all the time, and its definition is as it was. -/
structure Leaves (w w' : Walk) : Prop where
  kept : w.index.KeepsIndexes w'.index
  definition : ∀ d, w'.tableDefinition = some d → d.table.val < w.index.tables.size →
    w.tableDefinition = some d

theorem Leaves.refl (w : Walk) : Leaves w w := ⟨.refl _, fun _ h _ => h⟩

theorem Leaves.trans (h : Leaves w w') (k : Leaves w' w'') : Leaves w w'' where
  kept := h.kept.trans k.kept
  definition d hd lt := h.definition d (k.definition d hd (h.kept.tables.lt_size lt)) lt

theorem Leaves.of_same (kept : w.index.KeepsIndexes w'.index)
    (same : w'.tableDefinition = w.tableDefinition) : Leaves w w' :=
  ⟨kept, fun _ hd _ => same ▸ hd⟩

theorem Turn.leaves (turn : Turn w w') : Leaves w w' := by
  refine ⟨turn.keepsIndexes, fun d hd lt => ?_⟩
  cases turn with
  | beginTable =>
    -- its table is new
    cases hd
    exact absurd lt (Nat.lt_irrefl _)
  | finishTable => cases hd
  | reframe | define | endDefinition | beginField | joinField => exact hd

section Others

variable (other : (env.tree.kind n).shapesTable = false)
include other

theorem Runs.leaves (h : Runs env n w w') : Leaves w w' := by
  induction h with
  | refl => exact .refl _
  | tail _ step ih =>
    refine ih.trans ?_
    rcases step with move | turn
    · cases move with
      | index change => exact .of_same (change.mono id (by simp [other])).keepsIndexes rfl
      | clause found table buffer deferred shapes => simp [other] at shapes
      | _ => exact .of_same (.refl _) rfl
    · exact turn.leaves

theorem Enters.leaves (h : Enters env n w w') : Leaves w w' := by
  cases h with
  | plain runs => exact runs.leaves other
  | refer moves _ refer =>
    refine (Runs.leaves other moves.runs).trans (.of_same (refer.refers.keepsIndexes ?_) ?_)
    · cases refer with
      | field =>
        unfold countedField
        split <;> rfl
      | _ => rfl
    · cases refer <;> rfl
  | miss moves miss =>
    refine (Runs.leaves other moves.runs).trans ?_
    cases miss with
    | anywhere => exact .of_same ⟨.refl _ _, .refl _ _, rfl⟩ rfl
    | inTable =>
      refine .of_same ⟨.refl _ _, .refl _ _, ?_⟩ rfl
      simp [skippedFields, Diagnostics.withCode, Diagnostics.add, Diagnostic.unresolvedField]

theorem Performs.leaves {a : Action} (h : Performs env n w a w') : Leaves w w' := by
  cases h with
  | runs _ runs => exact runs.leaves other
  | bind binds => exact .of_same binds.change.keepsIndexes rfl
  | unused => exact .refl _
  | use => exact .of_same ((refers_counted _ _ _).keepsIndexes rfl) rfl

theorem Done.leaves {as : List Action} (h : Done env n w as w') : Leaves w w' := by
  induction h with
  | nil => exact .refl _
  | cons _ _ performs _ _ ih => exact (performs.leaves other).trans ih

end Others

theorem Tells.leaves {c : NodeId} (h : Tells env c w w') : Leaves w w' := by
  obtain ⟨qualifiers, hints, rfl⟩ := h.eq
  exact .of_same (.refl _) rfl

/-! ### What clauses do -/

section Clauses

variable {d : TableDefinition}

theorem takeOpenTable_ok (hok : takeOpenTable w = .ok d w') :
    w.tableDefinition = some d ∧ w' = { w with tableDefinition := none } := by
  unfold takeOpenTable at hok
  obtain ⟨u, w₁, hu, hrest⟩ := bind_ok.1 hok
  cases hu
  cases hopen : w.tableDefinition with
  | none =>
    rw [hopen] at hrest
    cases hrest
  | some d' =>
    rw [hopen] at hrest
    cases hrest
    exact ⟨rfl, rfl⟩

theorem endDefinition_ok {s : SymbolId} (hok : endDefinition s w = .ok () w') :
    ∃ rest, w' = { w with openDefinitions := rest } := by
  unfold endDefinition at hok
  obtain ⟨u, w₁, hu, hrest⟩ := bind_ok.1 hok
  cases hu
  cases hopen : w.openDefinitions with
  | nil =>
    rw [hopen] at hrest
    cases hrest
  | cons innermost outer =>
    rw [hopen] at hrest
    dsimp only at hrest
    by_cases same : innermost = s
    · rw [if_pos same] at hrest
      cases hrest
      exact ⟨outer, rfl⟩
    · rw [if_neg same] at hrest
      cases hrest

theorem updateOpenTable_ok {f : TableDefinition → TableDefinition}
    (hok : updateOpenTable f w = .ok () w') :
    ∃ d, w.tableDefinition = some d ∧ w' = { w with tableDefinition := some (f d) } := by
  unfold updateOpenTable at hok
  obtain ⟨d, w₁, hd, hrest⟩ := bind_ok.1 hok
  obtain ⟨found, rfl⟩ := openTable_ok hd
  cases hrest
  exact ⟨d, found, rfl⟩

theorem updateTable_ok {t : TableId} {f : Table → Table} (hok : updateTable t f w = .ok () w') :
    w' = { w with index := { w.index with tables := w.index.tables.update t f } } := by
  unfold updateTable at hok
  obtain ⟨table, w₁, ht, hrest⟩ := bind_ok.1 hok
  obtain ⟨-, rfl⟩ := tableAt_ok.1 ht
  cases hrest
  rfl

theorem appendIndex_ok {v : TableIndex} {i : IndexId} (hok : appendIndex v w = .ok i w') :
    i = w.index.indexes.next ∧ w' = { w with index := w.index.withIndex v } := by
  unfold appendIndex at hok
  obtain ⟨table, w₁, ht, hrest⟩ := bind_ok.1 hok
  obtain ⟨-, rfl⟩ := tableAt_ok.1 ht
  cases hfrozen : table.frozen with
  | true =>
    rw [hfrozen] at hrest
    cases hrest
  | false =>
    rw [hfrozen] at hrest
    obtain ⟨x, w₂, hx, hrest⟩ := bind_ok.1 hrest
    cases hx
    obtain ⟨_, w₃, hpush, hrest⟩ := bind_ok.1 hrest
    cases hpush
    obtain ⟨_, w₄, hupdate, hrest⟩ := bind_ok.1 hrest
    cases updateTable_ok hupdate
    cases hrest
    exact ⟨rfl, rfl⟩

/-- An INDEX clause makes an index, whose fields are to be looked up later. -/
theorem addIndex_ok (hok : addIndex env n w = .ok () w') :
    ∃ d, w.tableDefinition = some d ∧ w' = { w with
      index := w.index.withIndex (env.tree.indexOf n d.table [])
      tableDefinition := some (d.after env.tree { indexes := [(w.index.indexes.next, n)] }) } := by
  unfold addIndex at hok
  obtain ⟨d, w₁, hd, hrest⟩ := bind_ok.1 hok
  obtain ⟨found, rfl⟩ := openTable_ok hd
  obtain ⟨i, w₂, hi, hrest⟩ := bind_ok.1 hrest
  obtain ⟨rfl, rfl⟩ := appendIndex_ok hi
  obtain ⟨d', found', rfl⟩ := updateOpenTable_ok hrest
  rw [found] at found'
  cases found'
  refine ⟨d, found, ?_⟩
  simp [TableDefinition.after, ParseTree.indexOf, ParseTree.awaitedFields]

theorem enter_useIndex {plan : Plan env.tree n} (kind : env.tree.kind n = .tableUseIndex)
    (henter : enter env n w = .ok plan v) :
    plan = .done ∧ ∃ d, w.tableDefinition = some d ∧ v = { w with
      tableDefinition := some (d.after env.tree {
        useIndex := [(env.tree.definedName n, n)] }) } := by
  simp only [enter, kind] at henter
  unfold enterUseIndex at henter
  obtain ⟨_, w₁, hupdate, hrest⟩ := bind_ok.1 henter
  obtain ⟨d, found, rfl⟩ := updateOpenTable_ok hupdate
  cases hrest
  exact ⟨rfl, d, found, by simp [TableDefinition.after]⟩

theorem enter_tableIndex {plan : Plan env.tree n} (kind : env.tree.kind n = .tableIndex)
    (henter : enter env n w = .ok plan v) : plan = .done ∧ addIndex env n w = .ok () v := by
  simp only [enter, kind] at henter
  unfold enterTableIndex at henter
  obtain ⟨_, w₁, hadd, hrest⟩ := bind_ok.1 henter
  cases hrest
  exact ⟨rfl, hadd⟩

theorem enter_tableLike {plan : Plan env.tree n} (kind : env.tree.kind n = .tableLike)
    (henter : enter env n w = .ok plan v) : v = w ∧
      plan = match env.tree.childOfKind? n .record with
        | some r => { steps := onlySteps env.tree n .record .symbol, leave := [.copyFields r] }
        | none => .plain env.tree n := by
  simp only [enter, kind] at henter
  unfold enterTableLike at henter
  cases hrecord : env.tree.childOfKind? n .record <;> rw [hrecord] at henter <;> cases henter <;>
    exact ⟨rfl, rfl⟩

theorem fieldsAt_ok {fs : List FieldId} {vs : List Field} (hok : fs.mapM fieldAt w = .ok vs w') :
    w' = w ∧ ∀ f ∈ fs, ∃ v ∈ vs, w.index.fields.get? f = some v := by
  induction fs generalizing vs w' with
  | nil =>
    cases hok
    exact ⟨rfl, by simp⟩
  | cons f fs ih =>
    rw [List.mapM_cons] at hok
    obtain ⟨v, w₁, hv, hrest⟩ := bind_ok.1 hok
    obtain ⟨found, rfl⟩ := fieldAt_ok.1 hv
    obtain ⟨others, w₂, hothers, hpure⟩ := bind_ok.1 hrest
    obtain ⟨rfl, all⟩ := ih hothers
    cases hpure
    refine ⟨rfl, List.forall_mem_cons.2 ⟨⟨v, List.mem_cons_self, found⟩, fun g hg => ?_⟩⟩
    obtain ⟨u, hu, hget⟩ := all g hg
    exact ⟨u, List.mem_cons_of_mem _ hu, hget⟩

theorem copyFields_ok {source : TableId} (hok : copyFields source w = .ok () w') :
    ∃ d table own fields, w.tableDefinition = some d ∧
      w.index.tables.get? source = some table ∧ w.index.tables.get? d.table = some own ∧
      (∀ f ∈ table.fields, ∃ v ∈ fields, w.index.fields.get? f = some v) ∧
      w' = { w with
        index := w.index.withCopies d.table fields
        tableDefinition := some { d with like := some source } } := by
  unfold copyFields at hok
  obtain ⟨_, w₁, hupdate, hrest⟩ := bind_ok.1 hok
  obtain ⟨d, found, rfl⟩ := updateOpenTable_ok hupdate
  obtain ⟨d', w₂, hd, hrest⟩ := bind_ok.1 hrest
  obtain ⟨found', rfl⟩ := openTable_ok hd
  cases found'
  obtain ⟨table, w₃, htable, hrest⟩ := bind_ok.1 hrest
  obtain ⟨hsource, rfl⟩ := tableAt_ok.1 htable
  obtain ⟨fields, w₄, hfields, hrest⟩ := bind_ok.1 hrest
  obtain ⟨rfl, all⟩ := fieldsAt_ok hfields
  obtain ⟨x, w₅, hx, hrest⟩ := bind_ok.1 hrest
  cases hx
  obtain ⟨_, w₆, hpush, hrest⟩ := bind_ok.1 hrest
  cases hpush
  unfold appendFields at hrest
  obtain ⟨own, w₇, htarget, happend⟩ := bind_ok.1 hrest
  obtain ⟨hown, rfl⟩ := tableAt_ok.1 htarget
  cases hfrozen : own.frozen with
  | true =>
    rw [hfrozen] at happend
    cases happend
  | false =>
    rw [hfrozen] at happend
    refine ⟨d, table, own, fields, found, hsource, hown, all, ?_⟩
    rw [updateTable_ok happend]
    simp [withCopies, withFields]

/-- The end of a LIKE clause: the table of its record is copied. -/
theorem Done.copyFields {r : NodeId} (h : Done env n w [.copyFields r] w') :
    ∃ b s d table own fields, (w.notes.get r).symbol = some b ∧ w.index.bufferTable? b = some s ∧
      w.tableDefinition = some d ∧ w.index.tables.get? s = some table ∧
      w.index.tables.get? d.table = some own ∧
      (∀ f ∈ table.fields, ∃ v ∈ fields, w.index.fields.get? f = some v) ∧
      w' = { w with
        index := w.index.withCopies d.table fields
        tableDefinition := some { d with like := some s } } := by
  obtain ⟨-, ok, -⟩ := h.single
  obtain ⟨b, w₁, hrecord, hrest⟩ := bind_ok.1 ok
  obtain ⟨hsymbol, rfl⟩ := recordBuffer_ok hrecord
  obtain ⟨s, w₂, hsource, hcopy⟩ := bind_ok.1 hrest
  obtain ⟨hbuffer, rfl⟩ := bufferTable_ok hsource
  obtain ⟨d, table, own, fields, copied⟩ := copyFields_ok hcopy
  exact ⟨b, s, d, table, own, fields, hsymbol, hbuffer, copied⟩

end Clauses

/-! ### What is gathered -/

/-- Record `r` has been visited, one of the nodes in `es`, and stands for a buffer of table `s`. -/
def NamesTable (env : Env) (es : List (NodeId × Walk)) (r : NodeId) (s : TableId) : Prop :=
  ∃ v v' b, (r, v) ∈ es ∧ visit env r v = .ok () v' ∧ (v'.notes.get r).symbol = some b ∧
    v'.index.bufferTable? b = some s

/-- From `w` to `w'`, the clauses `c` among the nodes in `ns` have been completed, and the
definition `d` has become what they make of it. The table has got the indexes of the INDEX clauses,
without fields; there is no other index, and none has changed. -/
structure Gathered (env : Env) (es : List (NodeId × Walk)) (ns : List NodeId) (d : TableDefinition)
    (c : TableClauses) (w w' : Walk) : Prop where
  opened : w.tableDefinition = some d
  definition : w'.tableDefinition = some (d.after env.tree c)
  indexes : c.indexes.map (·.2) = env.tree.indexClauses ns
  useIndex : c.useIndex = env.tree.useIndexes ns
  sources : c.sources.map (·.1) = env.tree.likeRecords ns
  named : ∀ p ∈ c.sources, NamesTable env es p.1 p.2
  covered : ∀ p ∈ c.sources, w'.index.Covers d.table p.2
  made : ∀ p ∈ c.indexes, w'.index.indexes.get? p.1 = some (env.tree.indexOf p.2 d.table [])
  kept : w.index.indexes.Keeps id w'.index.indexes
  listed : w'.index.indexesOf d.table = w.index.indexesOf d.table ++ c.indexes.map (·.1)

/-- A walk comes from `w` to `w'` and completes the nodes in `ns`. If in the end a table is being
defined that was there before, the clauses among the nodes have been gathered. -/
structure Gathers (env : Env) (es : List (NodeId × Walk)) (ns : List NodeId) (w w' : Walk) :
    Prop where
  strides : Strides w w'
  clauses : Regular w → ∀ d', w'.tableDefinition = some d' → d'.table.val < w.index.tables.size →
    ∃ d c, Gathered env es ns d c w w'

section Gathers

variable {es es' : List (NodeId × Walk)} {ns ns' : List NodeId}

theorem Gathered.mono {d : TableDefinition} {c : TableClauses}
    (h : Gathered env es ns d c w w') (sub : es ⊆ es') : Gathered env es' ns d c w w' := by
  refine { h with named := fun p hp => ?_ }
  obtain ⟨v, v', b, he, found⟩ := h.named p hp
  exact ⟨v, v', b, sub he, found⟩

theorem Gathers.mono (h : Gathers env es ns w w') (sub : es ⊆ es') : Gathers env es' ns w w' where
  strides := h.strides
  clauses regular d' hd' lt := by
    obtain ⟨d, c, gathered⟩ := h.clauses regular d' hd' lt
    exact ⟨d, c, gathered.mono sub⟩

/-- A walk that goes on. -/
theorem Gathers.trans (h : Gathers env es ns w v) (k : Gathers env es ns' v w') :
    Gathers env es (ns ++ ns') w w' where
  strides := h.strides.trans k.strides
  clauses regular d'' hd'' lt := by
    have regular' := h.strides.regular regular
    have regular'' := k.strides.regular regular'
    have ext := h.strides.extends
    obtain ⟨d', c', second⟩ := k.clauses regular' d'' hd'' (ext.tables.lt_size lt)
    have same : d''.table = d'.table := by
      rw [second.definition] at hd''
      cases hd''
      rfl
    obtain ⟨d, c, first⟩ := h.clauses regular d' second.opened (same ▸ lt)
    obtain rfl : d' = d.after env.tree c :=
      Option.some.inj (second.opened.symm.trans first.definition)
    refine ⟨d, c.append c', first.opened, ?_, ?_, ?_, ?_, ?_, ?_, ?_,
      first.kept.trans second.kept, ?_⟩
    · rw [second.definition, TableDefinition.after_append]
    · simp [TableClauses.append, ParseTree.indexClauses, first.indexes, second.indexes]
    · simp [TableClauses.append, ParseTree.useIndexes, first.useIndex, second.useIndex]
    · simp [TableClauses.append, ParseTree.likeRecords, first.sources, second.sources]
    · intro p hp
      exact (List.mem_append.1 hp).elim (first.named p) (second.named p)
    · intro p hp
      refine (List.mem_append.1 hp).elim (fun hp => ?_) (second.covered p)
      exact (first.covered p hp).later k.strides.extends
        (k.strides.keepsTables regular'.sound regular'.tables) regular'.tables regular''.tables
    · intro p hp
      refine (List.mem_append.1 hp).elim (fun hp => ?_) (second.made p)
      obtain ⟨v', hv', rfl⟩ := second.kept p.1 _ (first.made p hp)
      exact hv'
    · have listed := second.listed
      rw [TableDefinition.after_table, first.listed] at listed
      simp [listed, TableClauses.append]

/-- Nothing is gathered where no clause is completed and everything is left alone. -/
theorem Gathers.of_leaves (strides : Strides w w') (leaves : Leaves w w')
    (indexes : env.tree.indexClauses ns = []) (useIndex : env.tree.useIndexes ns = [])
    (sources : env.tree.likeRecords ns = []) : Gathers env es ns w w' where
  strides := strides
  clauses _ d hd lt := by
    refine ⟨d, {}, leaves.definition d hd lt, ?_, indexes.symm, useIndex.symm, sources.symm,
      by simp, by simp, by simp, leaves.kept.indexes, ?_⟩
    · rw [hd, TableDefinition.after_none]
    · simp [leaves.kept.indexesOf lt]

/-- Between clauses. -/
theorem Gathers.between (strides : Strides w w') (leaves : Leaves w w') :
    Gathers env es [] w w' :=
  .of_leaves strides leaves rfl rfl rfl

theorem Gathers.of_useIndex {plan : Plan env.tree n} (kind : env.tree.kind n = .tableUseIndex)
    (hs : Sound w) (henter : enter env n w = .ok plan v) : Gathers env es [n] w v where
  strides := ((ends_enter env n hs).ok henter).enters.strides hs
  clauses _ d' hd' lt := by
    obtain ⟨-, d, found, rfl⟩ := enter_useIndex kind henter
    refine ⟨d, { useIndex := [(env.tree.definedName n, n)] }, found, rfl, ?_, ?_, ?_, by simp,
      by simp, by simp, .refl _ _, by simp⟩
    · simp [ParseTree.indexClauses, kind]
    · simp [ParseTree.useIndexes, kind]
    · simp [ParseTree.likeRecords, kind]

theorem Gathers.of_tableIndex {plan : Plan env.tree n} (kind : env.tree.kind n = .tableIndex)
    (hs : Sound w) (henter : enter env n w = .ok plan v) : Gathers env es [n] w v where
  strides := ((ends_enter env n hs).ok henter).enters.strides hs
  clauses _ d' hd' lt := by
    obtain ⟨-, hadd⟩ := enter_tableIndex kind henter
    obtain ⟨d, found, rfl⟩ := addIndex_ok hadd
    refine ⟨d, { indexes := [(w.index.indexes.next, n)] }, found, rfl, ?_, ?_, ?_, by simp,
      by simp, ?_, Arena.keeps_push _ _ _, ?_⟩
    · simp [ParseTree.indexClauses, kind]
    · simp [ParseTree.useIndexes, kind]
    · simp [ParseTree.likeRecords, kind]
    · intro p hp
      cases List.mem_singleton.1 hp
      exact Arena.get?_push_next _ _
    · obtain ⟨table, htable, -⟩ := hs.unfrozen d found
      exact (lists_update htable rfl d.table).trans (if_pos rfl)

/-- The end of a LIKE clause, of which the record has been visited. -/
theorem Gathers.of_copyFields {r : NodeId} {u : Walk} (kind : env.tree.kind n = .tableLike)
    (record : env.tree.childOfKind? n .record = some r) (he : (r, u) ∈ es)
    (hvisit : visit env r u = .ok () w) (done : Done env n w [.copyFields r] w') :
    Gathers env es [n] w w' where
  strides := done.strides
  clauses regular d' hd' lt := by
    obtain ⟨b, s, d, table, own, fields, hsymbol, hbuffer, found, htable, hown, all, rfl⟩ :=
      done.copyFields
    have ok := regular.tables
    rw [TablesOk, found] at ok
    refine ⟨d, { sources := [(r, s)] }, found, ?_, ?_, ?_, ?_, ?_, ?_, by simp, .refl _ _, ?_⟩
    · simp [TableDefinition.after]
    · simp [ParseTree.indexClauses, kind]
    · simp [ParseTree.useIndexes, kind]
    · simp [ParseTree.likeRecords, kind, record]
    · intro p hp
      cases List.mem_singleton.1 hp
      exact ⟨u, w, b, he, hvisit, hsymbol, hbuffer⟩
    · intro p hp
      cases List.mem_singleton.1 hp
      exact covers_withCopies ok htable hown all
    · rw [List.map_nil, List.append_nil]
      refine lists_update_of_eq ?_ d.table
      exact fun _ => rfl

end Gathers

/-! ### Visits -/

section Visits

variable {w₀ : Walk} {steps : List (Step env.tree n)}

theorem Rounds.frame {Child : NodeId → Walk → Walk → Prop} (h : Rounds env n w₀ Child steps w w')
    (quiet : ∀ s ∈ steps, s.before = [] ∧ s.after = []) : w'.frame = w.frame := by
  induction h with
  | nil => rfl
  | cons sound prepared tells before began visit visited child after once run others ih =>
    obtain ⟨hbefore, hafter⟩ := quiet _ List.mem_cons_self
    rw [hbefore] at before
    rw [hafter] at after
    cases before
    cases after
    rw [ih fun s hs => quiet s (List.mem_cons_of_mem _ hs), visited.frame, tells.frame]

/-- What holds of the visits of children, of whatever leaves everything alone, and of one thing
after another holds of all rounds. -/
theorem Rounds.chain {R : List (NodeId × Walk) → List (NodeId × Walk) → Walk → Walk → Prop}
    (trans : ∀ {es es' fs fs' u v u'}, R es fs u v → R es' fs' v u' →
      R (es ++ es') (fs ++ fs') u u')
    (nothing : ∀ {u v}, Strides u v → Leaves u v → R [] [] u v)
    (h : Rounds env n w₀ (fun c v v' => R (entries env c v) (exits env c v) v v') steps w w')
    (quiet : (env.tree.kind n).shapesTable → ∀ s ∈ steps, s.before = [] ∧ s.after = []) :
    R (stepsEntries env steps w) (stepsExits env steps w) w w' := by
  induction h with
  | nil => exact nothing .refl (.refl _)
  | cons sound prepared tells before began visit visited child after once run others ih =>
    have acts : ∀ {as u u'}, Done env n u as u' → ((env.tree.kind n).shapesTable → as = []) →
        R [] [] u u' := by
      intro as u u' done silent
      refine nothing done.strides ?_
      cases hshapes : (env.tree.kind n).shapesTable with
      | false => exact done.leaves hshapes
      | true =>
        cases silent hshapes
        cases done
        exact .refl _
    have first := fun shapes => quiet shapes _ List.mem_cons_self
    rw [stepsEntries_of_ok run, Step.entries_of_done prepared before,
      stepsExits_cons prepared before run]
    have told := nothing (.single ⟨tells.stride, tells.sound sound⟩) tells.leaves
    have ready := trans told (acts before fun h => (first h).1)
    have visits := trans (trans ready child) (acts after fun h => (first h).2)
    have rest := ih fun shapes s hs => quiet shapes s (List.mem_cons_of_mem _ hs)
    simpa using trans visits rest

theorem Rounds.gathers
    (h : Rounds env n w₀ (fun c v v' =>
      Gathers env (entries env c v) ((exits env c v).map (·.1)) v v') steps w w')
    (quiet : (env.tree.kind n).shapesTable → ∀ s ∈ steps, s.before = [] ∧ s.after = []) :
    Gathers env (stepsEntries env steps w) ((stepsExits env steps w).map (·.1)) w w' := by
  refine Rounds.chain (R := fun es fs u v => Gathers env es (fs.map (·.1)) u v) ?_ ?_ h quiet
  · intro es es' fs fs' u v u' before after
    rw [List.map_append]
    exact (before.mono (List.subset_append_left _ _)).trans
      (after.mono (List.subset_append_right _ _))
  · exact fun strides leaves => .between strides leaves

/-- Nodes that are no clauses. -/
theorem no_clauses (other : (env.tree.kind n).shapesTable = false) :
    env.tree.indexClauses [n] = [] ∧ env.tree.useIndexes [n] = [] ∧
      env.tree.likeRecords [n] = [] := by
  have not : env.tree.kind n ≠ .tableIndex ∧ env.tree.kind n ≠ .tableUseIndex ∧
      env.tree.kind n ≠ .tableLike := by
    refine ⟨?_, ?_, ?_⟩ <;> intro h <;> rw [h] at other <;> cases other
  simp [ParseTree.indexClauses, ParseTree.useIndexes, ParseTree.likeRecords, not]

/-- What entering a table definition does: there is a new table, without fields and indexes, and no
definition of a table has been open before. -/
structure Defines (env : Env) (n : NodeId) (w : Walk) (plan : Plan env.tree n) (v : Walk) :
    Prop where
  closed : w.tableDefinition = none
  plan : plan = .around (plainSteps env.tree n) [.abandonTable w.index.symbols.next]
    [.closeTable w.index.symbols.next]
  definition : v.tableDefinition =
    some { table := w.index.tables.next, buffer := w.index.symbols.next }
  table : ∃ table, v.index.tables.get? w.index.tables.next = some table ∧
    table.definitionNode = some n ∧ table.kind ≠ .schema ∧ table.indexes = []
  findings : v.index.skippedFields = w.index.skippedFields

theorem enterTable_ok {plan : Plan env.tree n} {kind : TableKind} (own : kind ≠ .schema)
    (hok : enterTable env n kind w = .ok plan v) : Defines env n w plan v := by
  unfold enterTable at hok
  obtain ⟨b, w₁, hbegin, hrest⟩ := bind_ok.1 hok
  obtain ⟨closed, rfl, symbol, space, -, -, rfl⟩ := beginTable_ok hbegin
  cases hrest
  exact ⟨closed, rfl, rfl, ⟨_, Arena.get?_push_next _ _, rfl, own, rfl⟩, rfl⟩

theorem enter_table {plan : Plan env.tree n} (kind : (env.tree.kind n).isTableDefinition)
    (henter : enter env n w = .ok plan v) : Defines env n w plan v := by
  cases hk : env.tree.kind n with
  | defineTempTable =>
    simp only [enter, hk] at henter
    exact enterTable_ok (by decide) henter
  | defineWorkTable =>
    simp only [enter, hk] at henter
    exact enterTable_ok (by decide) henter
  | _ =>
    rw [hk] at kind
    cases kind

theorem quiet_around {onFailure leave : List Action} :
    ∀ s ∈ (Plan.around (plainSteps env.tree n) onFailure leave).steps,
      s.before = [] ∧ s.after = [] := by
  intro s hs
  obtain ⟨s', hs', rfl⟩ := List.mem_map.1 hs
  exact quiet_plain s' hs'

theorem Gathers.between_table {es : List (NodeId × Walk)}
    (kind : (env.tree.kind n).isTableDefinition) (strides : Strides w w') (leaves : Leaves w w') :
    Gathers env es [n] w w' := by
  refine .of_leaves strides leaves ?_ ?_ ?_ <;>
    cases hk : env.tree.kind n <;> rw [hk] at kind <;>
    simp_all [ParseTree.indexClauses, ParseTree.useIndexes, ParseTree.likeRecords,
      NodeKind.isTableDefinition]

/-- A LIKE clause: its record is visited, and then the table of the record is copied. -/
theorem Gathers.of_tableLike {plan : Plan env.tree n} {v' : Walk}
    (kind : env.tree.kind n = .tableLike) (hs : Sound w) (henter : enter env n w = .ok plan v)
    (rounds : Rounds env n w (fun c v v' =>
      Gathers env (entries env c v) ((exits env c v).map (·.1)) v v') plan.steps v v')
    (done : Done env n v' plan.leave w') :
    Gathers env ((n, w) :: stepsEntries env plan.steps v)
      ((stepsExits env plan.steps v).map (·.1) ++ [n]) w w' := by
  obtain ⟨rfl, hplan⟩ := enter_tableLike kind henter
  cases hrecord : env.tree.childOfKind? n .record with
  | none =>
    rw [hrecord] at hplan
    subst hplan
    cases done
    have visits := (rounds.gathers fun _ => quiet_plain).mono (List.subset_cons_self (n, v) _)
    refine visits.trans (.of_leaves .refl (.refl _) ?_ ?_ ?_)
    · simp [ParseTree.indexClauses, kind]
    · simp [ParseTree.useIndexes, kind]
    · simp [ParseTree.likeRecords, kind, hrecord]
  | some r =>
    rw [hrecord] at hplan
    subst hplan
    obtain ⟨child, rfl, only⟩ := onlySteps_eq .symbol hrecord
    dsimp only at rounds done ⊢
    rw [only] at rounds ⊢
    obtain ⟨u, tells, hvisit, below, ready, run⟩ := rounds.sole rfl rfl
    rw [stepsEntries_sole ready run, stepsExits_sole ready run]
    have told : Gathers env ((n, v) :: entries env child.val u) [] v u :=
      .between (.single ⟨tells.stride, tells.sound hs⟩) tells.leaves
    have mem : (child.val, u) ∈ (n, v) :: entries env child.val u := by
      rw [entries.eq_def env child.val]
      exact List.mem_cons_of_mem _ List.mem_cons_self
    exact (told.trans (below.mono (List.subset_cons_self _ _))).trans
      (.of_copyFields kind hrecord mem hvisit done)

theorem visit_gathers (n : NodeId) (hs : Sound w) (hok : visit env n w = .ok () w') :
    Gathers env (entries env n w) ((exits env n w).map (·.1)) w w' := by
  refine visit_rounds (P := fun c v v' =>
    Gathers env (entries env c v) ((exits env c v).map (·.1)) v v') ?_ n hs hok
  intro n w plan v v' w' hs henter admitted rounds done visited
  have entering := admitted.enters.strides hs
  rw [entries_of_ok henter, exits_of_ok henter, List.map_append, List.map_singleton]
  cases hk : env.tree.kind n with
  | tableUseIndex =>
    obtain ⟨rfl, -⟩ := enter_useIndex hk henter
    cases rounds
    cases done
    exact .of_useIndex hk hs henter
  | tableIndex =>
    obtain ⟨rfl, -⟩ := enter_tableIndex hk henter
    cases rounds
    cases done
    exact .of_tableIndex hk hs henter
  | tableLike => exact .of_tableLike hk hs henter rounds done
  | defineTempTable | defineWorkTable =>
    -- no definition is open before, and so none is afterwards
    have defines := enter_table (by rw [hk]; rfl) henter
    have visits := rounds.gathers fun _ => by
      rw [defines.plan]
      exact quiet_around
    refine ⟨entering.trans (visits.strides.trans done.strides), fun _ d' hd' => ?_⟩
    · have same := congrArg Frame.table visited.frame
      simp [Walk.frame, defines.closed, hd'] at same
  | _ =>
    have other : (env.tree.kind n).shapesTable = false := by
      rw [hk]
      rfl
    obtain ⟨indexes, useIndex, sources⟩ := no_clauses other
    have before : Gathers env ((n, w) :: stepsEntries env plan.steps v) [] w v :=
      .between entering (admitted.enters.leaves other)
    have visits := rounds.gathers fun shapes => by
      rw [other] at shapes
      cases shapes
    exact (before.trans (visits.mono (List.subset_cons_self _ _))).trans
      (.of_leaves done.strides (done.leaves other) indexes useIndex sources)

/-- The whole of a table definition: its clauses are gathered, and then it is brought to an end. -/
theorem table_gathered {Child : NodeId → Walk → Walk → Prop} {plan : Plan env.tree n} {u : Walk}
    (kind : (env.tree.kind n).isTableDefinition) (regular : Regular w)
    (henter : enter env n w = .ok plan v) (admitted : Admitted env n w plan v)
    (rounds : Rounds env n w Child plan.steps v u) (done : Done env n u plan.leave w') :
    ∃ c rest, Gathered env (entries env n w) ((exits env n w).map (·.1))
        { table := w.index.tables.next, buffer := w.index.symbols.next } c v u ∧ Strides v u ∧
      finishTable env (TableDefinition.after env.tree
        { table := w.index.tables.next, buffer := w.index.symbols.next } c)
        { u with tableDefinition := none, openDefinitions := rest } = .ok () w' := by
  have defines := enter_table kind henter
  have regular' := (admitted.enters.strides regular.sound).regular regular
  have quiet : ∀ s ∈ plan.steps, s.before = [] ∧ s.after = [] := by
    rw [defines.plan]
    exact quiet_around
  have gathers := ((rounds.mono fun c v v' hs hok => visit_gathers c hs hok).gathers
    fun _ => quiet).mono (List.subset_cons_self (n, w) _)
  have own := gathers.trans (.between_table kind .refl (.refl u))
  rw [defines.plan] at done
  cases done with
  | cons sound ok performs act more =>
    cases more
    obtain ⟨d', w₁, htake, hrest⟩ := bind_ok.1 ok
    obtain ⟨found, rfl⟩ := takeOpenTable_ok htake
    obtain ⟨_, w₂, hend, hfinish⟩ := bind_ok.1 hrest
    obtain ⟨rest, rfl⟩ := endDefinition_ok hend
    have frame := congrArg Frame.table (rounds.frame quiet)
    have table : d'.table = w.index.tables.next := by
      simp only [Walk.frame, found, defines.definition, Option.map_some, Option.some.injEq,
        Prod.mk.injEq] at frame
      exact frame.1
    obtain ⟨fresh, hfresh, -⟩ := defines.table
    obtain ⟨d, c, gathered⟩ := own.clauses regular' d' found (table ▸ Arena.lt_size_of_get? hfresh)
    obtain rfl := Option.some.inj (defines.definition.symm.trans gathered.opened)
    obtain rfl := Option.some.inj (found.symm.trans gathered.definition)
    refine ⟨c, rest, ?_, gathers.strides, hfinish⟩
    rw [entries_of_ok henter, exits_of_ok henter, List.map_append]
    exact gathered

end Visits

end Walk

end AblResolve
