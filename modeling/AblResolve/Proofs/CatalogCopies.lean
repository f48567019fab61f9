import AblResolve.Proofs.CatalogKeys
import AblResolve.Proofs.DefaultBuffers
import AblResolve.Proofs.Finished
import AblResolve.Proofs.Keeping
/-!
Copies of catalog tables. A table of the catalog is copied when a name first leads to it, with all
its fields and indexes. The copy is frozen at once and its fields belong to it, so no clause can get
at them: at the end of the walk it is as it was loaded.
-/
namespace AblResolve

namespace Arena

variable {e : Entity} {α : Type}

/-- Elements that are added together have the next numbers, in order. -/
theorem forall₂_nextIds (a : Arena e α) (vs : List α) :
    List.Forall₂ (fun i v => (a.pushAll vs).get? i = some v) (a.nextIds vs.length) vs := by
  refine List.forall₂_iff_get.2 ⟨by simp [nextIds], fun k hk hk' => ?_⟩
  have number : (a.nextIds vs.length).get ⟨k, hk⟩ = ⟨a.size + k⟩ := by simp [nextIds]
  rw [number, get?_pushAll, if_neg (by simp)]
  simp

end Arena

namespace UnitIndex

variable {x y : UnitIndex} {table : Table} {e : Catalog.Entry}

/-! ### What a copy is -/

/-- A field of a table is like one of a catalog table. -/
structure IsFieldCopy (field : Field) (c : Catalog.Field) : Prop where
  name : field.name = c.name
  dataType : field.type.dataType = some c.dataType
  className : field.type.className = none
  extent : field.type.extent = if 0 < c.extent then .fixed c.extent else .scalar

/-- The field of a copy that stands where the catalog table has its first field with a name. Names
are spelled out, in any case. -/
def firstNamed? (table : Table) (fields : List Catalog.Field) (name : String) : Option FieldId :=
  (fields.findIdx? fun f => Text.same f.name name).bind (table.fields[·]?)

/-- An index of a table is like one of a catalog table with these fields. Names that no field has
are left out. -/
structure IsIndexCopy (table : Table) (fields : List Catalog.Field) (index : TableIndex)
    (c : Catalog.Index) : Prop where
  name : index.name = c.name
  fields : index.fields = c.fields.filterMap (firstNamed? table fields)
  unique : index.unique = c.unique
  primary : index.primary = c.primary
  word : index.word = c.word

/-- A table of the index is a copy of a catalog table, with fields and indexes in the same order. -/
structure IsCopy (x : UnitIndex) (table : Table) (e : Catalog.Entry) : Prop where
  kind : table.kind = .schema
  database : table.database = some e.database
  name : table.name = e.table.name
  frozen : table.frozen = true
  fields : List.Forall₂ (fun f c => ∃ field, x.fields.get? f = some field ∧ IsFieldCopy field c)
    table.fields e.table.fields
  indexes : List.Forall₂ (fun i c => ∃ index, x.indexes.get? i = some index ∧
    IsIndexCopy table e.table.fields index c) table.indexes e.table.indexes

theorem isFieldCopy_ofCatalog (t : TableId) (c : Catalog.Field) :
    IsFieldCopy (.ofCatalog t c) c :=
  ⟨rfl, rfl, rfl, rfl⟩

/-- What a name is found under when numbers go with the names of fields. -/
theorem find?_zip (fields : List Catalog.Field) (ids : List FieldId) (name : String) :
    (((fields.map (·.name)).zip ids).find? fun f => Text.same f.1 name).map (·.2) =
      (fields.findIdx? fun f => Text.same f.name name).bind (ids[·]?) := by
  induction fields generalizing ids with
  | nil => rfl
  | cons f fields ih =>
    cases ids with
    | nil => simp
    | cons i ids =>
      rw [List.map_cons, List.zip_cons_cons, List.find?_cons, List.findIdx?_cons]
      cases Text.same f.name name with
      | true => rfl
      | false =>
        rw [if_neg Bool.false_ne_true, Option.bind_map]
        exact ih ids

theorem isCopy_loadTable (x : UnitIndex) (e : Catalog.Entry) :
    ∃ table, (x.loadTable e).tables.get? x.tables.next = some table ∧
      (x.loadTable e).IsCopy table e := by
  refine ⟨_, Arena.get?_push_next _ _, rfl, rfl, rfl, rfl, ?_, ?_⟩
  · have added := x.fields.forall₂_nextIds (e.table.fields.map (Field.ofCatalog x.tables.next))
    rw [List.length_map, List.forall₂_map_right_iff] at added
    exact added.imp fun i c h => ⟨_, h, isFieldCopy_ofCatalog _ c⟩
  · have added := x.indexes.forall₂_nextIds (e.table.indexes.map (TableIndex.ofCatalog x.tables.next
      ((e.table.fields.map (·.name)).zip (x.fields.nextIds e.table.fields.length))))
    rw [List.length_map, List.forall₂_map_right_iff] at added
    refine added.imp fun i c h => ⟨_, h, rfl, ?_, rfl, rfl, rfl⟩
    exact congrArg (c.fields.filterMap ·) (funext fun name => find?_zip _ _ name)

/-- A copy stays what it is while its fields and indexes do. -/
theorem IsCopy.mono (h : x.IsCopy table e)
    (fields : ∀ f v, f ∈ table.fields → x.fields.get? f = some v → y.fields.get? f = some v)
    (indexes : ∀ i v, i ∈ table.indexes → x.indexes.get? i = some v → y.indexes.get? i = some v) :
    y.IsCopy table e := by
  refine { h with fields := ?_, indexes := ?_ }
  · have own := (List.forall₂_and_left _ _).2 ⟨fun f hf => hf, h.fields⟩
    refine own.imp ?_
    rintro f c ⟨hf, field, hget, copy⟩
    exact ⟨field, fields f field hf hget, copy⟩
  · have own := (List.forall₂_and_left _ _).2 ⟨fun i hi => hi, h.indexes⟩
    refine own.imp ?_
    rintro i c ⟨hi, index, hget, copy⟩
    exact ⟨index, indexes i index hi hget, copy⟩

/-- What is finished about tables includes all there is to a copy. -/
theorem IsCopy.keep {opened : List SymbolId} {current : Option TableId} {t : TableId}
    (h : x.IsCopy table e) (found : x.tables.get? t = some table)
    (ok : x.TablesOk opened current) (kept : x.KeepsTables y) :
    y.tables.get? t = some table ∧ y.IsCopy table e := by
  refine ⟨kept.tables t table found h.frozen, h.mono (fun f v hf hv => ?_) fun i v hi hv => ?_⟩
  · have owner := (ok.fields.listed t f).1 (by simpa [fieldsOf, found] using hf)
    rw [fieldOwner, hv, Option.bind_some] at owner
    exact kept.fields f v hv (by rw [owner]; rfl)
  · have owner := (ok.indexes.listed t i).1 (by simpa [indexesOf, found] using hi)
    rw [indexOwner, hv, Option.bind_some, Option.some.injEq] at owner
    exact kept.indexes i v table hv (by rw [owner, found]) h.frozen

/-! ### The copies in an index -/

/-- What is listed under a key is a copy of the table of the catalog that has it. -/
def Copies (catalog : Catalog) (x : UnitIndex) : Prop :=
  ∀ p ∈ x.schemaTables, ∃ name e table, catalog.table? name = some e ∧ p.1 = e.key ∧
    x.tables.get? p.2 = some table ∧ x.IsCopy table e

variable {catalog : Catalog}

theorem Copies.congr (h : x.Copies catalog) (schemaTables : y.schemaTables = x.schemaTables)
    (tables : y.tables = x.tables) (fields : y.fields = x.fields)
    (indexes : y.indexes = x.indexes) :
    y.Copies catalog := by
  intro p hp
  obtain ⟨name, e, table, he, key, found, copy⟩ := h p (schemaTables ▸ hp)
  exact ⟨name, e, table, he, key, tables ▸ found,
    copy.mono (fun _ _ _ hv => fields ▸ hv) fun _ _ _ hv => indexes ▸ hv⟩

theorem Copies.load (h : x.Copies catalog) {name : String} (he : catalog.table? name = some e) :
    (x.loadTable e).Copies catalog := by
  intro p hp
  rcases List.mem_append.1 hp with hold | hnew
  · obtain ⟨name', e', table, he', key, found, copy⟩ := h p hold
    refine ⟨name', e', table, he', key, Arena.get?_push_of_get? found,
      copy.mono (fun f v _ hv => ?_) fun i v _ hv => ?_⟩
    · rw [loadTable, Arena.get?_pushAll_of_lt (Arena.lt_size_of_get? hv), hv]
    · rw [loadTable, Arena.get?_pushAll_of_lt (Arena.lt_size_of_get? hv), hv]
  · cases List.mem_singleton.1 hnew
    obtain ⟨table, found, copy⟩ := x.isCopy_loadTable e
    exact ⟨name, e, table, he, rfl, found, copy⟩

theorem Copies.keep {opened : List SymbolId} {current : Option TableId} (h : x.Copies catalog)
    (ok : x.TablesOk opened current) (kept : x.KeepsTables y)
    (schemaTables : y.schemaTables = x.schemaTables) : y.Copies catalog := by
  intro p hp
  obtain ⟨name, e, table, he, key, found, copy⟩ := h p (schemaTables ▸ hp)
  exact ⟨name, e, table, he, key, copy.keep found ok kept⟩

/-- The tables that are listed are frozen. -/
def ListedFrozen (x : UnitIndex) : Prop :=
  ∀ p ∈ x.schemaTables, ∃ table, x.tables.get? p.2 = some table ∧ table.frozen = true

end UnitIndex

namespace Walk

open UnitIndex

section Keeping

variable {env : Env} {n : NodeId} {l : Licence} {w w' : Walk} {d : Deed} {ds : List Deed}

/-- The deed loads a table. -/
def Deed.isLoad : Deed → Bool
  | .load _ => true
  | _ => false

theorem Effect.copies (h : Effect env w d w') (copies : w.index.Copies env.catalog) :
    w'.index.Copies env.catalog := by
  cases h with
  | load name found new => exact copies.load found
  | _ => exact copies.congr rfl rfl rfl rfl

theorem Effect.schemaTables (h : Effect env w d w') (other : d.isLoad = false) :
    w'.index.schemaTables = w.index.schemaTables := by
  cases h with
  | load => cases other
  | _ => rfl

/-- Where tables are left alone, loading is all that happens to them. -/
theorem Log.copies (h : Log env l w ds w') (alone : ¬ l.tables)
    (copies : w.index.Copies env.catalog) : w'.index.Copies env.catalog :=
  h.keep copies
    (fun _ _ calm copies => copies.congr calm.schemaTables (calm.tables alone) (calm.fields alone)
      (calm.indexes alone))
    fun _ _ _ _ effect => effect.copies

theorem Log.schemaTables (h : Log env l w ds w') (none : ∀ d ∈ ds, d.isLoad = false) :
    w'.index.schemaTables = w.index.schemaTables :=
  h.keep (P := fun v => v.index.schemaTables = w.index.schemaTables) rfl
    (fun _ _ calm same => calm.schemaTables.trans same)
    fun d hd _ _ effect same => (effect.schemaTables (none d hd)).trans same

theorem Entering.isLoad {owes : List SymbolId} (h : Entering env n ds owes)
    (record : env.tree.kind n ≠ .record) (field : env.tree.kind n ≠ .field) :
    ∀ d ∈ ds, d.isLoad = false := by
  cases h with
  | refers kind => exact absurd kind (by simp [record, field])
  | inline kind => exact absurd kind field
  | _ => simp [Deed.isLoad]

theorem Deed.isLoad_of_isOfAction (h : d.isOfAction) : d.isLoad = false := by
  cases d <;> first | rfl | cases h

/-- The copies are kept by a whole walk. -/
theorem keeps_copies : Keeps env fun _ w => w.TablesOk ∧ w.index.Copies env.catalog where
  enters es n w plan w' hs _ hok admitted := by
    rintro ⟨ok, copies⟩
    have strides := admitted.enters.strides hs
    obtain ⟨ds, log, begins⟩ := enter_begins hs hok
    refine ⟨strides.tables hs ok, ?_⟩
    by_cases refers : env.tree.kind n = .record ∨ env.tree.kind n = .field
    · exact log.copies (fun free => refers.elim free.1 free.2) copies
    · obtain ⟨record, field⟩ := not_or.1 refers
      exact copies.keep ok (strides.keepsTables hs ok)
        (log.schemaTables (begins.entering.isLoad record field))
  acts es w ds w' hs strides log hds := by
    rintro ⟨ok, copies⟩
    exact ⟨strides.tables hs ok, copies.keep ok (strides.keepsTables hs ok)
      (log.schemaTables fun d hd => Deed.isLoad_of_isOfAction (hds d hd))⟩

theorem visitUnit_copies {notes : Annotations} (hok : visitUnit env (start env notes) = .ok () w) :
    w.index.Copies env.catalog :=
  (visitUnit_keep keeps_copies hok ⟨tables_start env notes, nofun⟩).2

end Keeping

/-! ### What is listed stays listed -/

section Listing

variable {env : Env} {w w' : Walk}

theorem Stride.listed (stride : Stride w w') :
    w'.index.schemaTables = w.index.schemaTables ∨ ∃ e, w'.index = w.index.loadTable e := by
  cases stride with
  | change change =>
    generalize w'.index = y at change
    cases change with
    | load e => exact .inr ⟨e, rfl⟩
    | _ => exact .inl rfl
  | turn turn => cases turn <;> exact .inl rfl
  | refer refers => exact .inl (by rw [refers.rest])

/-- Tables that are listed are frozen from the start. -/
theorem Strides.listed (strides : Strides w w') (hs : Sound w) (ok : w.TablesOk)
    (frozen : w.index.ListedFrozen) :
    w'.index.ListedFrozen ∧ w.index.schemaTables <+: w'.index.schemaTables := by
  refine (strides.keep hs (P := fun v => v.TablesOk ∧ v.index.ListedFrozen ∧
    w.index.schemaTables <+: v.index.schemaTables) ?_ ⟨ok, frozen, List.prefix_rfl⟩).2.2
  rintro u u' hs hs' stride ⟨ok, frozen, before⟩
  have kept := (stride.keepsFinished ok).toKeepsTables
  refine ⟨stride.tables hs ok, ?_⟩
  have still : ∀ p ∈ u.index.schemaTables, ∃ table, u'.index.tables.get? p.2 = some table ∧
      table.frozen = true := by
    intro p hp
    obtain ⟨table, found, h⟩ := frozen p hp
    exact ⟨table, kept.tables p.2 table found h, h⟩
  rcases stride.listed with same | ⟨e, load⟩
  · rw [ListedFrozen, same]
    exact ⟨still, before⟩
  · refine ⟨fun p hp => ?_, before.trans ?_⟩
    · rw [load] at hp
      rcases List.mem_append.1 hp with hold | hnew
      · exact still p hold
      · cases List.mem_singleton.1 hnew
        obtain ⟨table, found, copy⟩ := u.index.isCopy_loadTable e
        exact ⟨table, load ▸ found, copy.frozen⟩
    · rw [load]
      exact List.prefix_append _ _

end Listing

end Walk

end AblResolve
