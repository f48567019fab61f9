import AblResolve.Catalog.Sample
import AblResolve.Proofs.Strides
import Mathlib.Data.List.Nodup
/-!
Tables and what belongs to them. A field joins a table when the table is loaded from the catalog,
when it is copied from another table, or at the end of its own definition; until then it is pending.
However it comes there, it is listed once, by the table that it names. Indexes are listed by their
tables in the same way, and they are made of fields of their own table. Only the table that is being
defined takes anything.
-/
namespace AblResolve

/-! ### Lists and owners -/

/-- What the tables list is what names them as its owner, and nothing is listed twice. -/
structure Listing {e : Entity} (lists : TableId → List (Id e)) (owner : Id e → Option TableId) :
    Prop where
  nodup : ∀ t, (lists t).Nodup
  listed : ∀ t i, i ∈ lists t ↔ owner i = some t

namespace Listing

variable {e : Entity} {lists lists' : TableId → List (Id e)} {owner owner' : Id e → Option TableId}

theorem congr (h : Listing lists owner) (hl : ∀ t, lists' t = lists t)
    (ho : ∀ i, owner' i = owner i) : Listing lists' owner' where
  nodup t := hl t ▸ h.nodup t
  listed t i := by rw [hl, ho, h.listed]

/-- One table lists some more, which had no owner before. -/
theorem add {t : TableId} {new : List (Id e)} (h : Listing lists owner) (nodup : new.Nodup)
    (fresh : ∀ i ∈ new, owner i = none)
    (hl : ∀ s, lists' s = if s = t then lists s ++ new else lists s)
    (ho : ∀ i, owner' i = if i ∈ new then some t else owner i) : Listing lists' owner' where
  nodup s := by
    rw [hl]
    split
    · refine List.nodup_append.2 ⟨h.nodup s, nodup, ?_⟩
      rintro i hi _ hnew rfl
      have := (h.listed s i).1 hi
      rw [fresh i hnew] at this
      cases this
    · exact h.nodup s
  listed s i := by
    rw [hl, ho]
    by_cases hi : i ∈ new
    · have old : i ∉ lists s := fun hmem => by
        have := (h.listed s i).1 hmem
        rw [fresh i hi] at this
        cases this
      rw [if_pos hi]
      split
      · rename_i hs
        simp [hi, hs]
      · rename_i hs
        simp [old, Ne.symm hs]
    · rw [if_neg hi, ← h.listed]
      split
      · simp [hi]
      · exact Iff.rfl

/-- What has an owner is listed once, by its owner and by no other table. -/
theorem count (h : Listing lists owner) {i : Id e} {t : TableId} (ho : owner i = some t)
    (s : TableId) : (lists s).count i = if s = t then 1 else 0 := by
  split
  · rename_i hs
    subst hs
    exact List.count_eq_one_of_mem (h.nodup s) ((h.listed s i).2 ho)
  · rename_i hs
    refine List.count_eq_zero_of_not_mem fun hmem => hs ?_
    have := (h.listed s i).1 hmem
    rw [ho] at this
    exact (Option.some.inj this).symm

end Listing

namespace Arena

variable {e : Entity} {α β : Type} {a : Arena e α}

theorem mem_nextIds {k : Nat} {i : Id e} :
    i ∈ a.nextIds k ↔ a.size ≤ i.val ∧ i.val < a.size + k := by
  refine ⟨val_lt_of_mem_nextIds, fun h => ?_⟩
  simp only [nextIds, List.mem_map, List.mem_range]
  exact ⟨i.val - a.size, by omega, Id.ext (by dsimp only; omega)⟩

theorem nodup_nextIds (a : Arena e α) (k : Nat) : (a.nextIds k).Nodup := by
  refine List.Nodup.map ?_ List.nodup_range
  intro i j h
  simpa using congrArg Id.val h

theorem get?_of_mem_nextIds {k : Nat} {i : Id e} (h : i ∈ a.nextIds k) : a.get? i = none := by
  refine Option.not_isSome_iff_eq_none.1 fun hsome => ?_
  have := get?_isSome_iff.1 hsome
  have := (mem_nextIds.1 h).1
  omega

theorem push_eq_pushAll (a : Arena e α) (v : α) : a.push v = a.pushAll [v] := by
  simp [push, pushAll]

theorem get?_next (a : Arena e α) : a.get? a.next = none :=
  Option.not_isSome_iff_eq_none.1 fun h => Nat.lt_irrefl _ (get?_isSome_iff.1 h)

/-- What new elements have in common, they and no others have got. -/
theorem bind_get?_pushAll {vs : List α} {f : α → Option β} {b : β} (h : ∀ v ∈ vs, f v = some b)
    (i : Id e) : ((a.pushAll vs).get? i).bind f =
      if i ∈ a.nextIds vs.length then some b else (a.get? i).bind f := by
  rw [get?_pushAll]
  by_cases hold : i.val < a.size
  · rw [if_pos hold, if_neg fun hmem => by have := mem_nextIds.1 hmem; omega]
  · rw [if_neg hold]
    split
    · rename_i hmem
      have hlt : i.val - a.size < vs.length := by have := mem_nextIds.1 hmem; omega
      rw [List.getElem?_eq_getElem hlt]
      exact h _ (List.getElem_mem hlt)
    · rename_i hmem
      have hlen : vs.length ≤ i.val - a.size := by
        by_contra hlt
        exact hmem (mem_nextIds.2 (by omega))
      have hnone : a.get? i = none :=
        Option.not_isSome_iff_eq_none.1 (mt get?_isSome_iff.1 hold)
      rw [List.getElem?_eq_none hlen, hnone]

/-- What an update leaves alone. -/
theorem bind_get?_update {i : Id e} {g : α → α} {f : α → Option β}
    (h : ∀ v, a.get? i = some v → f (g v) = f v) (j : Id e) :
    ((a.update i g).get? j).bind f = (a.get? j).bind f := by
  rw [get?_update]
  split
  · rename_i hij
    subst hij
    cases hv : a.get? i with
    | none => rfl
    | some v => exact h v hv
  · rfl

end Arena

namespace UnitIndex

variable {x y : UnitIndex} {opened : List SymbolId} {current : Option TableId}

/-- The fields that a table lists. -/
def fieldsOf (x : UnitIndex) (t : TableId) : List FieldId :=
  ((x.tables.get? t).map (·.fields)).getD []

/-- The indexes that a table lists. -/
def indexesOf (x : UnitIndex) (t : TableId) : List IndexId :=
  ((x.tables.get? t).map (·.indexes)).getD []

/-- The table that a field names. -/
def fieldOwner (x : UnitIndex) (f : FieldId) : Option TableId := (x.fields.get? f).bind (·.table)

/-- The table that an index names. -/
def indexOwner (x : UnitIndex) (i : IndexId) : Option TableId :=
  (x.indexes.get? i).bind fun index => some index.table

theorem hasField_iff {t : TableId} {f : FieldId} : x.HasField t f ↔ f ∈ x.fieldsOf t := by
  unfold HasField fieldsOf
  cases x.tables.get? t <;> simp

/-- A field that has not joined a table. -/
def Unowned (x : UnitIndex) (f : FieldId) : Prop :=
  ∃ field, x.fields.get? f = some field ∧ field.table = none

/-- The fields that are being defined. -/
def pendingFields (x : UnitIndex) (opened : List SymbolId) : List FieldId :=
  opened.filterMap fun d => (x.asFieldBuffer? d).map (·.field)

theorem Unowned.fieldOwner {f : FieldId} (h : x.Unowned f) : x.fieldOwner f = none := by
  obtain ⟨field, hf, hnone⟩ := h
  simpa [UnitIndex.fieldOwner, hf] using hnone

/-- Tables, fields and indexes agree while definitions are open. -/
structure TablesOk (x : UnitIndex) (opened : List SymbolId) (current : Option TableId) : Prop where
  fields : Listing x.fieldsOf x.fieldOwner
  indexes : Listing x.indexesOf x.indexOwner
  indexFields : ∀ i index, x.indexes.get? i = some index → ∀ f ∈ index.fields,
    x.HasField index.table f
  pending : (x.pendingFields opened).Nodup
  unowned : ∀ f, f ∈ x.pendingFields opened ↔ x.Unowned f
  unfrozen : ∀ t, x.Unfrozen t → current = some t

/-- What is open keeps its meaning. -/
theorem Extends.pendingFields (ext : x.Extends y) (lt : ∀ d ∈ opened, d.val < x.symbols.size) :
    y.pendingFields opened = x.pendingFields opened := by
  refine List.filterMap_congr fun d hd => ?_
  rw [ext.asFieldBuffer?_eq (lt d hd)]

/-! ### Tables that get more -/

section Tables

variable {t : TableId} {table : Table}

/-- What the tables list when there is one more, which lists `new`. -/
theorem lists_push {e : Entity} (list : Table → List (Id e)) (s : TableId) :
    (((x.tables.push table).get? s).map list).getD [] =
      if s = x.tables.next then ((x.tables.get? s).map list).getD [] ++ list table
      else ((x.tables.get? s).map list).getD [] := by
  rw [Arena.get?_push]
  split
  · rename_i hs
    subst hs
    simp [Arena.get?_next]
  · rfl

/-- What the tables list when one of them has changed. -/
theorem lists_update {e : Entity} {list : Table → List (Id e)} {new : List (Id e)}
    {g : Table → Table} (found : x.tables.get? t = some table)
    (h : list (g table) = list table ++ new) (s : TableId) :
    (((x.tables.update t g).get? s).map list).getD [] =
      if s = t then ((x.tables.get? s).map list).getD [] ++ new
      else ((x.tables.get? s).map list).getD [] := by
  rw [Arena.get?_update]
  by_cases hs : t = s
  · subst hs
    simp [found, h]
  · rw [if_neg hs, if_neg (Ne.symm hs)]

theorem lists_update_of_eq {e : Entity} {list : Table → List (Id e)} {g : Table → Table}
    (h : ∀ table, list (g table) = list table) (s : TableId) :
    (((x.tables.update t g).get? s).map list).getD [] =
      ((x.tables.get? s).map list).getD [] := by
  rw [Arena.get?_update]
  split
  · simp [Function.comp_def, h]
  · rfl

/-- A table that takes more after an update did so before. -/
theorem Unfrozen.of_update {g : Table → Table} {s : TableId} (hs : y.Unfrozen s)
    (hy : y.tables = x.tables.update t g) (h : ∀ table, (g table).frozen = table.frozen) :
    x.Unfrozen s := by
  obtain ⟨table, htable, hfrozen⟩ := hs
  rw [hy] at htable
  rcases Arena.get?_update_cases htable with ⟨rfl, old, hold, rfl⟩ | ⟨-, hold⟩
  · exact ⟨old, hold, (h old).symm.trans hfrozen⟩
  · exact ⟨table, hold, hfrozen⟩

end Tables

/-! ### Changes -/

namespace TablesOk

variable (h : TablesOk x opened current)
include h

theorem congr {opened' : List SymbolId} (tables : y.tables = x.tables)
    (fields : y.fields = x.fields) (indexes : y.indexes = x.indexes)
    (pending : y.pendingFields opened' = x.pendingFields opened) :
    TablesOk y opened' current where
  fields := h.fields.congr (fun t => by rw [fieldsOf, tables, fieldsOf])
    fun f => by rw [fieldOwner, fields, fieldOwner]
  indexes := h.indexes.congr (fun t => by rw [indexesOf, tables, indexesOf])
    fun i => by rw [indexOwner, indexes, indexOwner]
  indexFields i index hi f hf := by
    rw [indexes] at hi
    obtain ⟨table, htable, hmem⟩ := h.indexFields i index hi f hf
    exact ⟨table, tables ▸ htable, hmem⟩
  pending := pending ▸ h.pending
  unowned f := by
    rw [pending, h.unowned, Unowned, Unowned, fields]
  unfrozen t := by
    rw [Unfrozen, tables]
    exact h.unfrozen t

end TablesOk

section Owners

variable {t : TableId}

theorem fieldOwner_of_mem_nextIds {k : Nat} {f : FieldId} (h : f ∈ x.fields.nextIds k) :
    x.fieldOwner f = none := by
  rw [fieldOwner, Arena.get?_of_mem_nextIds h]
  rfl

theorem indexOwner_of_mem_nextIds {k : Nat} {i : IndexId} (h : i ∈ x.indexes.nextIds k) :
    x.indexOwner i = none := by
  rw [indexOwner, Arena.get?_of_mem_nextIds h]
  rfl

theorem fieldOwner_pushAll {vs : List Field} (owned : ∀ v ∈ vs, v.table = some t)
    (fields : y.fields = x.fields.pushAll vs) (f : FieldId) :
    y.fieldOwner f = if f ∈ x.fields.nextIds vs.length then some t else x.fieldOwner f := by
  rw [fieldOwner, fields, Arena.bind_get?_pushAll owned, fieldOwner]

theorem indexOwner_pushAll {vs : List TableIndex} (owned : ∀ v ∈ vs, v.table = t)
    (indexes : y.indexes = x.indexes.pushAll vs) (i : IndexId) :
    y.indexOwner i = if i ∈ x.indexes.nextIds vs.length then some t else x.indexOwner i := by
  rw [indexOwner, indexes, Arena.bind_get?_pushAll (b := t) fun v hv => by rw [owned v hv],
    indexOwner]

theorem unowned_pushAll {vs : List Field} (owned : ∀ v ∈ vs, v.table = some t)
    (fields : y.fields = x.fields.pushAll vs) (f : FieldId) : y.Unowned f ↔ x.Unowned f := by
  unfold Unowned
  rw [fields]
  constructor
  · rintro ⟨field, hf, hnone⟩
    rcases Arena.get?_pushAll_cases hf with hold | ⟨hnew, -⟩
    · exact ⟨field, hold, hnone⟩
    · rw [owned field hnew] at hnone
      cases hnone
  · rintro ⟨field, hf, hnone⟩
    exact ⟨field, by rw [Arena.get?_pushAll_of_lt (Arena.lt_size_of_get? hf), hf], hnone⟩

/-- Fields may change as long as they keep their table. -/
theorem unowned_update {f i : FieldId} {g : Field → Field} (h : ∀ v, (g v).table = v.table) :
    Unowned { x with fields := x.fields.update i g } f ↔ x.Unowned f := by
  have iff : ∀ z : UnitIndex, z.Unowned f ↔ (z.fields.get? f).map (·.table) = some none :=
    fun z => Option.map_eq_some_iff.symm
  rw [iff, iff, Arena.get?_update]
  split
  · simp [Function.comp_def, h]
  · rfl

end Owners

namespace TablesOk

variable (h : TablesOk x opened current) (lt : ∀ d ∈ opened, d.val < x.symbols.size)
include h lt

theorem load (e : Catalog.Entry) (new : x.schemaTable? e = none) :
    TablesOk (x.loadTable e) opened current := by
  have c : x.Change opened False False _ := .load e new
  have pending := c.extends.pendingFields lt
  have owned : ∀ v ∈ e.table.fields.map (Field.ofCatalog x.tables.next),
      v.table = some x.tables.next := by simp [Field.ofCatalog]
  have fieldOwner := fieldOwner_pushAll (x := x) (y := x.loadTable e) owned rfl
  have indexOwner := indexOwner_pushAll (x := x) (y := x.loadTable e) (t := x.tables.next)
    (by simp [TableIndex.ofCatalog]) rfl
  rw [List.length_map] at fieldOwner indexOwner
  have loaded : (x.loadTable e).fieldsOf x.tables.next =
      x.fields.nextIds e.table.fields.length := by
    simp [fieldsOf, loadTable]
  refine ⟨?_, ?_, ?_, pending ▸ h.pending, fun f => ?_, fun t ht => ?_⟩
  · exact h.fields.add (Arena.nodup_nextIds _ _) (fun _ => fieldOwner_of_mem_nextIds)
      (lists_push _) fieldOwner
  · exact h.indexes.add (Arena.nodup_nextIds _ _) (fun _ => indexOwner_of_mem_nextIds)
      (lists_push _) indexOwner
  · intro i index hi f hf
    rcases Arena.get?_pushAll_cases hi with hold | ⟨hnew, -⟩
    · exact c.hasField (h.indexFields i index hold f hf)
    · obtain ⟨index, -, rfl⟩ := List.mem_map.1 hnew
      obtain ⟨name, -, hname⟩ := List.mem_filterMap.1 hf
      obtain ⟨p, hp, rfl⟩ := Option.map_eq_some_iff.1 hname
      refine hasField_iff.2 (?_ : p.2 ∈ (x.loadTable e).fieldsOf x.tables.next)
      rw [loaded]
      exact (List.of_mem_zip (List.mem_of_find?_eq_some hp)).2
  · rw [pending]
    exact (h.unowned f).trans (unowned_pushAll owned rfl f).symm
  · obtain ⟨table, htable, hfrozen⟩ := ht
    rcases Arena.get?_push_cases htable with ⟨-, rfl⟩ | hold
    · cases hfrozen
    · exact h.unfrozen t ⟨table, hold, hfrozen⟩

theorem copyFields {t : TableId} {fields : List Field} (unfrozen : x.Unfrozen t)
    (owned : ∀ f ∈ fields, f.table = some t)
    (copied : ∀ f ∈ fields, ∃ i v, x.fields.get? i = some v ∧ f.type = v.type) :
    TablesOk (withFields { x with fields := x.fields.pushAll fields } t
      (x.fields.nextIds fields.length)) opened current := by
  have c : x.Change opened False False _ := .copyFields unfrozen owned copied
  have pending := c.extends.pendingFields lt
  obtain ⟨table, found, -⟩ := unfrozen
  refine ⟨?_, ?_, ?_, pending ▸ h.pending, fun f => ?_, fun s hs => ?_⟩
  · exact h.fields.add (Arena.nodup_nextIds _ _) (fun _ => fieldOwner_of_mem_nextIds)
      (lists_update found rfl) (fieldOwner_pushAll owned rfl)
  · exact h.indexes.congr (lists_update_of_eq fun _ => rfl) fun _ => rfl
  · exact fun i index hi f hf => c.hasField (h.indexFields i index hi f hf)
  · rw [pending]
    exact (h.unowned f).trans (unowned_pushAll owned rfl f).symm
  · exact h.unfrozen s (hs.of_update rfl fun _ => rfl)

theorem createIndex {index : TableIndex} (unfrozen : x.Unfrozen index.table)
    (fields : ∀ f ∈ index.fields, x.HasField index.table f) :
    TablesOk (x.withIndex index) opened current := by
  have c : x.Change opened False True _ := .createIndex unfrozen fields trivial
  have pending := c.extends.pendingFields lt
  obtain ⟨table, found, -⟩ := unfrozen
  have owned : ∀ v ∈ [index], v.table = index.table := by simp
  have indexOwner := indexOwner_pushAll (x := x) (y := x.withIndex index) owned
    (Arena.push_eq_pushAll _ _)
  refine ⟨?_, ?_, ?_, pending ▸ h.pending, fun f => ?_, fun s hs => ?_⟩
  · exact h.fields.congr (lists_update_of_eq fun _ => rfl) fun _ => rfl
  · exact h.indexes.add (Arena.nodup_nextIds _ 1) (fun _ => indexOwner_of_mem_nextIds)
      (lists_update found rfl) indexOwner
  · intro i index' hi f hf
    rcases Arena.get?_push_cases hi with ⟨-, rfl⟩ | hold
    · exact c.hasField (fields f hf)
    · exact c.hasField (h.indexFields i index' hold f hf)
  · rw [pending]
    exact h.unowned f
  · exact h.unfrozen s (hs.of_update rfl fun _ => rfl)

theorem change {typing tabling : Prop} (c : x.Change opened typing tabling y) :
    TablesOk y opened current := by
  have pending := c.extends.pendingFields lt
  cases c with
  | load e new => exact h.load lt e new
  | copyFields unfrozen owned copied => exact h.copyFields lt unfrozen owned copied
  | createIndex unfrozen fields => exact h.createIndex lt unfrozen fields
  | typeField isOpen found type =>
    refine { h with fields := ?_, pending := pending ▸ h.pending, unowned := ?_ }
    · exact h.fields.congr (fun _ => rfl) (Arena.bind_get?_update fun _ _ => rfl)
    · intro f
      rw [pending]
      refine (h.unowned f).trans (Iff.symm (unowned_update ?_))
      exact fun _ => rfl
  | addIndexField found unfrozen hasField =>
    refine { h with indexes := ?_, indexFields := ?_ }
    · exact h.indexes.congr (fun _ => rfl) (Arena.bind_get?_update fun _ _ => rfl)
    · intro i index hi f hf
      rcases Arena.get?_update_cases hi with ⟨rfl, old, hold, rfl⟩ | ⟨-, hold⟩
      · rcases List.mem_append.1 hf with hf | hnew
        · exact h.indexFields _ old hold f hf
        · rw [found] at hold
          cases hold
          cases List.mem_singleton.1 hnew
          exact hasField
      · exact h.indexFields i index hold f hf
  | _ => exact h.congr rfl rfl rfl pending

end TablesOk

/-! ### Turns -/

theorem pendingFields_cons {d : SymbolId} {rest : List SymbolId} :
    x.pendingFields (d :: rest) =
      ((x.asFieldBuffer? d).map (·.field)).toList ++ x.pendingFields rest := by
  rw [pendingFields, List.filterMap_cons]
  cases x.asFieldBuffer? d <;> rfl

namespace TablesOk

/-- A new definition that is not of a field. -/
theorem define (h : TablesOk x opened current) (lt : ∀ d ∈ opened, d.val < x.symbols.size)
    {s : Symbol} (plain : ∀ f, s.kind ≠ .fieldBuffer f) :
    TablesOk (x.withSymbol s) (x.symbols.next :: opened) current := by
  refine h.congr rfl rfl rfl ?_
  have hnone : (x.withSymbol s).asFieldBuffer? x.symbols.next = none := by
    refine Option.eq_none_iff_forall_ne_some.2 fun f hf => ?_
    obtain ⟨s', hs', hkind⟩ := asFieldBuffer?_eq_some.1 hf
    rw [withSymbol, Arena.get?_push_next] at hs'
    cases hs'
    exact plain f hkind
  rw [pendingFields_cons, hnone, (extends_withSymbol x s).pendingFields lt]
  rfl

/-- A table that is defined from here on. -/
theorem beginTable (h : TablesOk x opened none) (lt : ∀ d ∈ opened, d.val < x.symbols.size)
    (kind : TableKind) (n : NodeId) (name : String) :
    TablesOk (x.withTable kind n name) (x.symbols.next :: opened) (some x.tables.next) := by
  let table : Table := { name, kind, definitionNode := some n }
  have grown : TablesOk { x with tables := x.tables.push table } opened (some x.tables.next) := by
    have more : ∀ {e} (list : Table → List (Id e)), list table = [] → ∀ s,
        (((x.tables.push table).get? s).map list).getD [] =
          ((x.tables.get? s).map list).getD [] := by
      intro e list hempty s
      rw [lists_push, hempty, List.append_nil, ite_self]
    refine ⟨h.fields.congr (more _ rfl) fun _ => rfl, h.indexes.congr (more _ rfl) fun _ => rfl,
      ?_, h.pending, h.unowned, ?_⟩
    · intro i index hi f hf
      obtain ⟨table, htable, hmem⟩ := h.indexFields i index hi f hf
      exact ⟨table, Arena.get?_push_of_get? htable, hmem⟩
    · rintro t ⟨table, htable, hfrozen⟩
      rcases Arena.get?_push_cases htable with ⟨rfl, -⟩ | hold
      · rfl
      · cases h.unfrozen t ⟨table, hold, hfrozen⟩
  exact grown.define lt (by simp)

/-- The table that has been defined takes no more. -/
theorem finishTable {t : TableId} (h : TablesOk x opened (some t)) :
    TablesOk (x.frozen t) opened none := by
  refine ⟨h.fields.congr (lists_update_of_eq fun _ => rfl) fun _ => rfl,
    h.indexes.congr (lists_update_of_eq fun _ => rfl) fun _ => rfl, ?_, h.pending, h.unowned, ?_⟩
  · intro i index hi f hf
    have same : (x.frozen t).fieldsOf index.table = x.fieldsOf index.table := by
      refine lists_update_of_eq ?_ _
      exact fun _ => rfl
    rw [hasField_iff, same]
    exact hasField_iff.1 (h.indexFields i index hi f hf)
  · rintro s ⟨table, htable, hfrozen⟩
    rcases Arena.get?_update_cases htable with ⟨-, old, -, rfl⟩ | ⟨hne, hold⟩
    · cases hfrozen
    · exact absurd (Option.some.inj (h.unfrozen s ⟨table, hold, hfrozen⟩)) hne

/-- A new field belongs to no table yet. -/
theorem beginField (h : TablesOk x opened current) (lt : ∀ d ∈ opened, d.val < x.symbols.size)
    {buffer : SymbolId} {owner : Symbol} {b : TableBuffer} (name : String)
    (found : x.symbols.get? buffer = some owner) (kind : owner.kind = .tableBuffer b) :
    TablesOk (x.withField buffer owner b name) (x.symbols.next :: opened) current := by
  have ext : x.Extends (x.withField buffer owner b name) := extends_withField found kind
  have reaches : (x.withField buffer owner b name).asFieldBuffer? x.symbols.next =
      some ⟨buffer, x.fields.next⟩ := by
    have hne : buffer ≠ x.symbols.next := by
      rintro rfl
      exact Nat.lt_irrefl _ (Arena.lt_size_of_get? found)
    refine asFieldBuffer?_eq_some.2
      ⟨{ name, scope := owner.scope, definitionNode := none, attached := true,
         kind := .fieldBuffer ⟨buffer, x.fields.next⟩ }, ?_, rfl⟩
    show ((x.symbols.push _).update buffer _).get? _ = _
    rw [Arena.get?_update, if_neg hne, Arena.get?_push_next]
  have pending : (x.withField buffer owner b name).pendingFields (x.symbols.next :: opened) =
      x.fields.next :: x.pendingFields opened := by
    rw [pendingFields_cons, reaches, ext.pendingFields lt]
    rfl
  have fresh : ¬ x.Unowned x.fields.next := by
    rintro ⟨field, hf, -⟩
    rw [Arena.get?_next] at hf
    cases hf
  have get? : ∀ f, (x.withField buffer owner b name).fields.get? f =
      if f = x.fields.next then some { name } else x.fields.get? f :=
    Arena.get?_push x.fields _
  refine ⟨h.fields.congr (fun _ => rfl) fun f => ?_, h.indexes.congr (fun _ => rfl) fun _ => rfl,
    h.indexFields, pending ▸ List.nodup_cons.2 ⟨mt (h.unowned _).1 fresh, h.pending⟩, fun f => ?_,
    h.unfrozen⟩
  · rw [fieldOwner, fieldOwner, get?]
    split
    · rename_i hf
      rw [hf, Arena.get?_next]
      rfl
    · rfl
  · rw [pending, List.mem_cons, h.unowned, Unowned, Unowned, get?]
    by_cases hf : f = x.fields.next <;> simp [hf]

/-- A field joins its table. -/
theorem joinField {s : SymbolId} {rest : List SymbolId} {b : FieldBuffer} {t : TableId}
    (h : TablesOk x (s :: rest) current) (reaches : x.asFieldBuffer? s = some b)
    (unfrozen : x.Unfrozen t) : TablesOk (x.joined t b.field) rest current := by
  have pending : x.pendingFields (s :: rest) = b.field :: x.pendingFields rest := by
    rw [pendingFields_cons, reaches]
    rfl
  have unowned := h.unowned
  have nodup := h.pending
  rw [pending] at nodup
  simp only [pending, List.mem_cons] at unowned
  obtain ⟨field, hfield, hnone⟩ := (unowned b.field).1 (.inl rfl)
  obtain ⟨table, found, hfrozen⟩ := unfrozen
  have get? : ∀ f, (x.joined t b.field).fields.get? f =
      if b.field = f then (x.fields.get? f).map fun field => { field with table := some t }
      else x.fields.get? f := fun f => Arena.get?_update x.fields _ f _
  -- the field leaves those that are pending and is listed by its table from here on
  refine ⟨?_, ?_, ?_, (List.nodup_cons.1 nodup).2, fun f => ?_, fun s hs => ?_⟩
  · refine h.fields.add (List.nodup_singleton b.field) ?_ (lists_update found rfl) fun f => ?_
    · rintro f hf
      cases List.mem_singleton.1 hf
      exact Unowned.fieldOwner ⟨field, hfield, hnone⟩
    · rw [fieldOwner, get?]
      by_cases hf : b.field = f
      · subst hf
        simp [hfield]
      · simp [hf, Ne.symm hf, fieldOwner]
  · exact h.indexes.congr (lists_update_of_eq fun _ => rfl) fun _ => rfl
  · intro i index hi f hf
    have old := hasField_iff.1 (h.indexFields i index hi f hf)
    have more : (x.joined t b.field).fieldsOf index.table =
        if index.table = t then x.fieldsOf index.table ++ [b.field] else x.fieldsOf index.table :=
      lists_update found rfl _
    rw [hasField_iff, more]
    split
    · exact List.mem_append_left _ old
    · exact old
  · show f ∈ x.pendingFields rest ↔ _
    have hiff := unowned f
    by_cases hf : b.field = f
    · subst hf
      simp [(List.nodup_cons.1 nodup).1, Unowned, get?, hfield]
    · rw [Unowned, get?, if_neg hf]
      simpa [Ne.symm hf, Unowned] using hiff
  · exact h.unfrozen s (hs.of_update rfl fun _ => rfl)

end TablesOk

end UnitIndex

namespace Walk

open UnitIndex

/-- Tables, fields and indexes agree, whatever is open. -/
def TablesOk (w : Walk) : Prop :=
  w.index.TablesOk w.openDefinitions (w.tableDefinition.map (·.table))

section Strides

variable {w w' : Walk}

theorem TablesOk.of_frame (frame : w'.frame = w.frame)
    (ok : w'.index.TablesOk w.openDefinitions (w.tableDefinition.map (·.table))) : w'.TablesOk := by
  have definitions : w'.openDefinitions = w.openDefinitions := congrArg Frame.definitions frame
  have table : w'.tableDefinition.map (·.table) = w.tableDefinition.map (·.table) := by
    have := congrArg (fun F => F.table.map (·.1)) frame
    simpa [Walk.frame, Function.comp_def] using this
  rw [TablesOk, definitions, table]
  exact ok

theorem Turn.tables (turn : Turn w w') (hs : Sound w) (h : w.TablesOk) : w'.TablesOk := by
  have lt := hs.standing.definitions
  cases turn with
  | reframe => exact h
  | define scope new kind => exact UnitIndex.TablesOk.define h lt fun f => kind.reached
  | endDefinition opened plain =>
    refine UnitIndex.TablesOk.congr h rfl rfl rfl ?_
    rw [opened, pendingFields_cons, plain]
    rfl
  | beginTable n name own closed =>
    rw [TablesOk, closed] at h
    exact UnitIndex.TablesOk.beginTable h lt _ n name
  | finishTable opened =>
    rw [TablesOk, opened] at h
    exact UnitIndex.TablesOk.finishTable h
  | beginField name found kind => exact UnitIndex.TablesOk.beginField h lt name found kind
  | joinField opened reaches unfrozen =>
    rw [TablesOk, opened] at h
    exact UnitIndex.TablesOk.joinField h reaches unfrozen

theorem Stride.tables (stride : Stride w w') (hs : Sound w) (h : w.TablesOk) : w'.TablesOk := by
  have lt := hs.standing.definitions
  cases stride with
  | change change frame => exact .of_frame frame (UnitIndex.TablesOk.change h lt change)
  | turn turn => exact turn.tables hs h
  | refer refers frame =>
    refine .of_frame frame
      (UnitIndex.TablesOk.congr h refers.tables refers.fields refers.indexes ?_)
    simp only [pendingFields, refers.asFieldBuffer?]

/-- At every moment of a walk, tables, fields and indexes agree. -/
theorem Strides.tables (strides : Strides w w') (hs : Sound w) (h : w.TablesOk) : w'.TablesOk :=
  (strides.keep hs (fun _ _ hs _ stride => stride.tables hs) h).2

theorem tables_start (env : Env) (notes : Annotations) : (start env notes).TablesOk := by
  have nothing : ∀ {e : Entity} {α : Type} (i : Id e), (⟨#[]⟩ : Arena e α).get? i = none :=
    fun _ => rfl
  refine ⟨⟨?_, ?_⟩, ⟨?_, ?_⟩, ?_, ?_, ?_, ?_⟩ <;>
    simp [start, fieldsOf, fieldOwner, indexesOf, indexOwner, pendingFields, Unowned, Unfrozen,
      nothing]

end Strides

/-- At the end of a walk, nothing is pending. -/
theorem tables_visitUnit {env : Env} {notes : Annotations} {w : Walk}
    (hok : visitUnit env (start env notes) = .ok () w) : w.index.TablesOk [] none := by
  have hs := sound_start env notes
  have ok := (strides_visitUnit hok).tables hs (tables_start env notes)
  have frame := ((ends_visitUnit env notes).ok hok).1.frame
  have definitions : w.openDefinitions = [] := congrArg Frame.definitions frame
  have table : w.tableDefinition.map (·.table) = none := by
    have := congrArg (fun F => F.table.map (·.1)) frame
    simpa [Walk.frame, Function.comp_def, start] using this
  rwa [TablesOk, definitions, table] at ok

end Walk

namespace CompilationUnit

open Walk UnitIndex

variable (catalog : Catalog) (types : TypeRegistry) (options : Options)

/-- Every table is frozen and lists fields that name it. Every field and every index is listed once,
by the table that it names, and the fields of an index are fields of its table. -/
theorem analyze_tables {u u' : CompilationUnit} {index : UnitIndex}
    (hok : u.analyze catalog types options = (.ok index, u')) :
    (∀ t table, index.tables.get? t = some table → table.frozen = true) ∧
    (∀ f field, index.fields.get? f = some field → ∃ t table, field.table = some t ∧
      index.tables.get? t = some table ∧
      ∀ s, (index.fieldsOf s).count f = if s = t then 1 else 0) ∧
    (∀ i ix, index.indexes.get? i = some ix → ∃ table, index.tables.get? ix.table = some table ∧
      (∀ s, (index.indexesOf s).count i = if s = ix.table then 1 else 0) ∧
      ∀ f ∈ ix.fields, f ∈ table.fields ∧ ∃ field, index.fields.get? f = some field ∧
        field.table = some ix.table) := by
  obtain ⟨w, hw, rfl, rfl⟩ := analyze_ok catalog types options hok
  have h := tables_visitUnit hw
  -- a table that lists something exists
  have exists_table : ∀ {e : Entity} (list : Table → List (Id e)) {i : Id e} {t : TableId},
      i ∈ ((w.index.tables.get? t).map list).getD [] →
        ∃ table, w.index.tables.get? t = some table ∧ i ∈ list table := by
    intro e list i t hmem
    cases htable : w.index.tables.get? t with
    | none => simp [htable] at hmem
    | some table => exact ⟨table, rfl, by simpa [htable] using hmem⟩
  refine ⟨fun t table htable => ?_, fun f field hf => ?_, fun i ix hi => ?_⟩
  · by_contra hne
    cases h.unfrozen t ⟨table, htable, Bool.eq_false_iff.2 hne⟩
  · have howner : w.index.fieldOwner f = field.table := by rw [fieldOwner, hf]; rfl
    cases hfield : field.table with
    | none => cases (h.unowned f).2 ⟨field, hf, hfield⟩
    | some t =>
      have owner := howner.trans hfield
      obtain ⟨table, htable, -⟩ := exists_table _ ((h.fields.listed t f).2 owner)
      exact ⟨t, table, rfl, htable, h.fields.count owner⟩
  · have owner : w.index.indexOwner i = some ix.table := by rw [indexOwner, hi]; rfl
    obtain ⟨table, htable, -⟩ := exists_table _ ((h.indexes.listed _ i).2 owner)
    refine ⟨table, htable, h.indexes.count owner, fun f hf => ?_⟩
    obtain ⟨table', htable', hmem⟩ := h.indexFields i ix hi f hf
    rw [htable] at htable'
    cases htable'
    have named := (h.fields.listed ix.table f).1 (hasField_iff.1 ⟨table, htable, hmem⟩)
    exact ⟨hmem, Option.bind_eq_some_iff.1 named⟩

/-- A temp-table like a catalog table, with a field `f` and an index over fields of both origins,
and a temp-table like that. -/
def likeSample : ParseTree := .ofRows [
  (0, .defineTempTable, ""), (1, .identifier, "tt"), (1, .tableLike, ""), (3, .record, "SalesRep"),
  (1, .tableField, ""), (5, .identifier, "f"), (1, .tableIndex, ""), (7, .identifier, "ix"),
  (7, .indexField, "f"), (7, .indexField, "RepName"),
  (0, .defineTempTable, ""), (11, .identifier, "uu"), (11, .tableLike, ""), (13, .record, "tt")]

/-- In the sample, the index of the second temp-table is made of copies of the fields of the first
one's. -/
theorem analyze_tables_like :
    ∃ index u, (ofTree likeSample).analyze ⟨[⟨"sports", [Catalog.Sample.salesRep]⟩]⟩ {} {} =
        (.ok index, u) ∧
      index.fieldsOf ⟨0⟩ = [⟨2⟩, ⟨3⟩, ⟨4⟩] ∧ index.fieldsOf ⟨1⟩ = [⟨0⟩, ⟨1⟩] ∧
      index.fieldsOf ⟨2⟩ = [⟨5⟩, ⟨6⟩, ⟨7⟩] ∧
      (∃ ix, index.indexes.get? ⟨2⟩ = some ix ∧ ix.table = ⟨2⟩ ∧ ix.fields = [⟨7⟩, ⟨6⟩] ∧
        (index.indexesOf ⟨2⟩).count ⟨2⟩ = 1 ∧
        ∀ s, s ≠ ⟨2⟩ → (index.indexesOf s).count ⟨2⟩ = 0) := by
  obtain ⟨index, hok, first, second, third, ix, hix, htable, hfields⟩ :=
    exists_analyze_ok_and (u := ofTree likeSample) ⟨[⟨"sports", [Catalog.Sample.salesRep]⟩]⟩ {} {}
      (P := fun x => x.fieldsOf ⟨0⟩ = [⟨2⟩, ⟨3⟩, ⟨4⟩] ∧ x.fieldsOf ⟨1⟩ = [⟨0⟩, ⟨1⟩] ∧
        x.fieldsOf ⟨2⟩ = [⟨5⟩, ⟨6⟩, ⟨7⟩] ∧
        ∃ ix ∈ x.indexes.get? ⟨2⟩, ix.table = ⟨2⟩ ∧ ix.fields = [⟨7⟩, ⟨6⟩])
      (by decide +kernel)
  obtain ⟨-, -, indexes⟩ := analyze_tables _ {} {} hok
  obtain ⟨-, -, count, -⟩ := indexes _ ix hix
  rw [htable] at count
  exact ⟨index, _, hok, first, second, third, ix, hix, htable, hfields, by simp [count],
    fun s hs => by simp [count, hs]⟩

end CompilationUnit

end AblResolve
