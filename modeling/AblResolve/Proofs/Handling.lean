import AblResolve.Proofs.CatalogNames
/-!
How a walk handles buffers, and the fields that are reached through them. One stride makes a buffer,
defines a table, reaches a field, lets a field join its table, or leaves all of these alone.
Whatever is said about buffers and their fields has one case for each.
-/
namespace AblResolve

/-- What a symbol is as far as tables are concerned: a buffer with its scope and node, or a field
reached through a buffer, with its name. -/
inductive Symbol.Role where
  | buffer (b : TableBuffer) (scope : ScopeId) (node : Option NodeId)
  | field (f : FieldBuffer) (name : String)

def Symbol.role? (s : Symbol) : Option Symbol.Role :=
  match s.kind with
  | .tableBuffer b => some (.buffer b s.scope s.definitionNode)
  | .fieldBuffer f => some (.field f s.name)
  | _ => none

theorem Symbol.Revision.role? {s s' : Symbol} (h : s.Revision s') : s'.role? = s.role? := by
  cases h with
  | relocate notVariable notBuffer n =>
    unfold Symbol.asTableBuffer? at notBuffer
    unfold Symbol.role?
    cases hk : s.kind <;> simp_all
  | _ => simp_all [Symbol.role?]

namespace UnitIndex

variable {x y : UnitIndex} {opened : List SymbolId} {typing tabling : Prop}
  {current : Option TableId}

/-- The role of a symbol of the index. -/
def role? (x : UnitIndex) (i : SymbolId) : Option Symbol.Role :=
  (x.symbols.get? i).bind (·.role?)

/-- The kind and the node of a table that the unit defines. -/
def definition? (x : UnitIndex) (t : TableId) : Option (TableKind × Option NodeId) :=
  (x.tables.get? t).bind fun table =>
    if table.kind = .schema then none else some (table.kind, table.definitionNode)

section Role

variable {i : SymbolId} {t : TableId}

theorem role?_eq_buffer {b : TableBuffer} {scope : ScopeId} {node : Option NodeId} :
    x.role? i = some (.buffer b scope node) ↔ ∃ s, x.symbols.get? i = some s ∧
      s.kind = .tableBuffer b ∧ s.scope = scope ∧ s.definitionNode = node := by
  rw [role?, Option.bind_eq_some_iff]
  refine exists_congr fun s => and_congr_right fun _ => ?_
  unfold Symbol.role?
  cases s.kind <;> simp

theorem role?_eq_field {f : FieldBuffer} {name : String} :
    x.role? i = some (.field f name) ↔
      ∃ s, x.symbols.get? i = some s ∧ s.kind = .fieldBuffer f ∧ s.name = name := by
  rw [role?, Option.bind_eq_some_iff]
  refine exists_congr fun s => and_congr_right fun _ => ?_
  unfold Symbol.role?
  cases s.kind <;> simp

theorem asFieldBuffer?_iff_role? {f : FieldBuffer} :
    x.asFieldBuffer? i = some f ↔ ∃ name, x.role? i = some (.field f name) := by
  unfold UnitIndex.asFieldBuffer? role? Symbol.asFieldBuffer? Symbol.role?
  cases x.symbols.get? i with
  | none => simp
  | some s => cases hk : s.kind <;> simp [hk]

theorem bufferTable?_iff_role? : x.bufferTable? i = some t ↔
    ∃ b scope node, x.role? i = some (.buffer b scope node) ∧ b.table = t := by
  unfold UnitIndex.bufferTable? role? Symbol.asTableBuffer? Symbol.role?
  cases x.symbols.get? i with
  | none => simp
  | some s => cases hk : s.kind <;> simp [hk]

theorem defaultTable?_iff_role? : x.defaultTable? i = some t ↔
    ∃ b scope node, x.role? i = some (.buffer b scope node) ∧ b.isDefault = true ∧ b.table = t := by
  unfold UnitIndex.defaultTable? role? Symbol.defaultTable? Symbol.role?
  cases x.symbols.get? i with
  | none => simp
  | some s => cases hk : s.kind <;> simp [hk]

theorem role?_push (s : Symbol) (symbols : y.symbols = x.symbols.push s) :
    y.role? i = if i = x.symbols.next then s.role? else x.role? i := by
  rw [role?, symbols, Arena.get?_push]
  split <;> rfl

theorem role?_withTable (kind : TableKind) (n : NodeId) (name : String) :
    (x.withTable kind n name).role? i = if i = x.symbols.next then
      some (.buffer { table := x.tables.next, isDefault := true } rootScope (some n))
    else x.role? i := by
  rw [role?, withTable, withSymbol, Arena.get?_push]
  split <;> rfl

theorem role?_withDefaultBuffer (t : TableId) (name : String) :
    (x.withDefaultBuffer t name).role? i = if i = x.symbols.next then
      some (.buffer { table := t, isDefault := true } rootScope none)
    else x.role? i := by
  rw [role?, withDefaultBuffer, Arena.get?_push]
  split <;> rfl

theorem role?_update {j : SymbolId} {g : Symbol → Symbol}
    (symbols : y.symbols = x.symbols.update j g)
    (h : ∀ s, x.symbols.get? j = some s → (g s).role? = s.role?) : y.role? i = x.role? i := by
  rw [role?, symbols]
  exact Arena.bind_get?_update h i

theorem role?_reached {buffer : SymbolId} {owner : Symbol} {b : TableBuffer} {f : FieldId}
    {name : String} (found : x.symbols.get? buffer = some owner) :
    (x.reached buffer owner b f name).role? i =
      if i = x.symbols.next then some (.field ⟨buffer, f⟩ name)
      else if i = buffer then
        some (.buffer { b with fields := b.fields ++ [(f, x.symbols.next)] } owner.scope
          owner.definitionNode)
      else x.role? i := by
  have hne : buffer ≠ x.symbols.next := by
    rintro rfl
    exact Nat.lt_irrefl _ (Arena.lt_size_of_get? found)
  unfold role? reached
  rw [Arena.get?_update, Arena.get?_push]
  by_cases hnext : i = x.symbols.next
  · rw [if_neg (hnext ▸ hne), if_pos hnext, if_pos hnext]
    rfl
  · rw [if_neg hnext, if_neg hnext]
    by_cases hi : i = buffer
    · subst hi
      rw [if_pos rfl, if_pos rfl, found]
      rfl
    · rw [if_neg (Ne.symm hi), if_neg hi]

theorem definition?_push {table : Table} (tables : y.tables = x.tables.push table) :
    y.definition? t = if t = x.tables.next then
      if table.kind = .schema then none else some (table.kind, table.definitionNode)
    else x.definition? t := by
  rw [definition?, tables, Arena.get?_push]
  split <;> rfl

theorem definition?_update {s : TableId} {g : Table → Table}
    (tables : y.tables = x.tables.update s g) (kind : ∀ v, (g v).kind = v.kind)
    (node : ∀ v, (g v).definitionNode = v.definitionNode) :
    y.definition? t = x.definition? t := by
  rw [definition?, tables]
  exact Arena.bind_get?_update (fun v _ => by rw [kind, node]) t

end Role

/-! ### What strides do to buffers and handles -/

/-- The owners of fields stay, and what tables of the unit there are has been there before. -/
structure KeepsOwners (x y : UnitIndex) : Prop where
  owners : ∀ f, f.val < x.fields.size → y.fieldOwner f = x.fieldOwner f
  definitions : ∀ t, y.definition? t = x.definition? t

/-- What one stride does to buffers, to the fields reached through them and to tables. -/
inductive Handling (x y : UnitIndex) : Prop
  | idle (roles : ∀ i, y.role? i = x.role? i) (same : x.KeepsOwners y)
  /-- There is a new buffer; if it is the default buffer of its table, that comes from the
  catalog. -/
  | buffer {b : TableBuffer} {scope : ScopeId} {node : Option NodeId}
      (roles : ∀ i, y.role? i =
        if i = x.symbols.next then some (.buffer b scope node) else x.role? i)
      (bare : b.fields = []) (schema : b.isDefault = true → x.IsSchema b.table)
      (same : x.KeepsOwners y)
  /-- A table is defined, with its default buffer. -/
  | table {kind : TableKind} {n : NodeId}
      (roles : ∀ i, y.role? i = if i = x.symbols.next then
        some (.buffer { table := x.tables.next, isDefault := true } rootScope (some n))
        else x.role? i)
      (owners : ∀ f, f.val < x.fields.size → y.fieldOwner f = x.fieldOwner f)
      (definitions : ∀ t, y.definition? t =
        if t = x.tables.next then some (kind, some n) else x.definition? t)
  /-- A field is reached: one of the table of the buffer, or one whose definition begins. -/
  | reach {buffer : SymbolId} {b : TableBuffer} {scope : ScopeId} {node : Option NodeId}
      {f : FieldId} {name : String} (found : x.role? buffer = some (.buffer b scope node))
      (fresh : b.field? f = none)
      (roles : ∀ i, y.role? i = if i = x.symbols.next then some (.field ⟨buffer, f⟩ name)
        else if i = buffer then some (.buffer { b with fields := b.fields ++ [(f, x.symbols.next)] }
          scope node)
        else x.role? i)
      (named : y.fieldName? f = some name)
      (owner : x.fieldOwner f = some b.table ∨ f = x.fields.next ∧ y.fieldOwner f = none)
      (same : x.KeepsOwners y)
  /-- A field whose definition ends joins the table of the buffer through which it is reached. -/
  | join {s : SymbolId} {b : FieldBuffer} {t : TableId} (roles : ∀ i, y.role? i = x.role? i)
      (reaches : x.asFieldBuffer? s = some b) (pending : x.fieldOwner b.field = none)
      (table : x.bufferTable? b.buffer = some t)
      (owners : ∀ f, y.fieldOwner f = if f = b.field then some t else x.fieldOwner f)
      (definitions : ∀ t, y.definition? t = x.definition? t)

theorem KeepsOwners.of_eq (fields : y.fields = x.fields) (tables : y.tables = x.tables) :
    x.KeepsOwners y :=
  ⟨fun f _ => by rw [fieldOwner, fields, fieldOwner],
    fun t => by rw [definition?, tables, definition?]⟩

theorem KeepsOwners.updateTable {t : TableId} {g : Table → Table} (fields : y.fields = x.fields)
    (tables : y.tables = x.tables.update t g) (kind : ∀ v, (g v).kind = v.kind)
    (node : ∀ v, (g v).definitionNode = v.definitionNode) : x.KeepsOwners y :=
  ⟨fun f _ => by rw [fieldOwner, fields, fieldOwner], fun _ => definition?_update tables kind node⟩

/-- New fields of a table leave the owners of all other fields alone. -/
theorem fieldOwner_pushAll_of_lt {t : TableId} {vs : List Field}
    (owned : ∀ v ∈ vs, v.table = some t) (fields : y.fields = x.fields.pushAll vs) {f : FieldId}
    (hf : f.val < x.fields.size) :
    y.fieldOwner f = x.fieldOwner f := by
  rw [fieldOwner_pushAll owned fields, if_neg fun h => ?_]
  have := (Arena.mem_nextIds.1 h).1
  omega

theorem definition?_next : x.definition? x.tables.next = none := by
  rw [definition?, Arena.get?_next]
  rfl

theorem Handling.of_symbols (symbols : y.symbols = x.symbols) (same : x.KeepsOwners y) :
    x.Handling y :=
  .idle (fun i => by rw [role?, symbols, role?]) same

/-- A new symbol that is neither a buffer nor reached through one. -/
theorem Handling.push {s : Symbol} (symbols : y.symbols = x.symbols.push s) (none : s.role? = none)
    (same : x.KeepsOwners y) : x.Handling y := by
  refine .idle (fun i => ?_) same
  rw [role?_push s symbols]
  split
  · rename_i hi
    rw [none, hi, role?, Arena.get?_next]
    rfl
  · rfl

theorem Handling.update {j : SymbolId} {g : Symbol → Symbol}
    (symbols : y.symbols = x.symbols.update j g)
    (h : ∀ s, x.symbols.get? j = some s → (g s).role? = s.role?) (same : x.KeepsOwners y) :
    x.Handling y :=
  .idle (fun _ => role?_update symbols h) same

theorem Refers.role? (h : x.Refers y) (i : SymbolId) : y.role? i = x.role? i := by
  have counts : ∀ z : UnitIndex, z.role? i =
      ((z.symbols.get? i).map Symbol.uncounted).bind (·.role?) := by
    intro z
    rw [Option.bind_map]
    rfl
  rw [counts, counts, h.symbols]

/-- A new symbol that is not made together with something else. -/
theorem Initial.handling {s : Symbol} (h : x.Initial s.kind) : x.Handling (x.withSymbol s) := by
  have same : x.KeepsOwners (x.withSymbol s) := .of_eq rfl rfl
  cases hk : s.kind with
  | tableBuffer b =>
    rw [hk] at h
    have role : s.role? = some (.buffer b s.scope s.definitionNode) := by rw [Symbol.role?, hk]
    exact .buffer (fun i => role ▸ role?_push s rfl) h.1 (by simp [h.2.1]) same
  | routine | fieldBuffer =>
    rw [hk] at h
    exact h.elim
  | _ => exact .push rfl (by rw [Symbol.role?, hk]) same

theorem Change.handling (ok : x.TablesOk opened current) (c : x.Change opened typing tabling y) :
    x.Handling y := by
  have same : ∀ {z : UnitIndex}, z.fields = x.fields → z.tables = x.tables → x.KeepsOwners z :=
    .of_eq
  cases c with
  | report | defaulted | openScope | setClass | openBlock | bind | addIndexField =>
    exact .of_symbols rfl (same rfl rfl)
  | load e new =>
    refine .of_symbols rfl ⟨fun f => ?_, fun t => ?_⟩
    · exact fieldOwner_pushAll_of_lt (t := x.tables.next) (by simp [Field.ofCatalog]) rfl
    · rw [definition?_push rfl]
      split
      · rename_i ht
        rw [ht, definition?_next]
        rfl
      · rfl
  | create scope new kind => exact kind.handling
  | @createDefault t table root found hasRoot new schema =>
    exact .buffer (fun _ => role?_withDefaultBuffer t table.name) rfl
      (fun _ => isSchema_iff.2 ⟨table, found, schema⟩) (same rfl rfl)
  | @reach buffer owner b f field found kind new hasField listed =>
    refine .reach (by rw [role?, found, Option.bind_some, Symbol.role?, kind]) new
      (fun i => role?_reached found) ?_ (.inl ?_) (same rfl rfl)
    · exact Option.map_eq_some_iff.2 ⟨field, hasField, rfl⟩
    · exact (ok.fields.listed _ _).1 (hasField_iff.1 listed)
  | attach => exact .update rfl (fun _ _ => rfl) (same rfl rfl)
  | revise found revision =>
    refine .update rfl (fun s hs => ?_) (same rfl rfl)
    rw [found] at hs
    cases hs
    exact revision.role?
  | typeVariable isOpen found kind =>
    refine .update rfl (fun s hs => ?_) (same rfl rfl)
    rw [found] at hs
    cases hs
    rw [Symbol.role?, Symbol.role?, kind]
  | typeField =>
    refine .of_symbols rfl ⟨fun f _ => ?_, fun _ => rfl⟩
    refine Arena.bind_get?_update (fun _ _ => ?_) f
    rfl
  | openRoutine => exact .push rfl rfl (same rfl rfl)
  | copyFields unfrozen owned =>
    exact .of_symbols rfl ⟨fun f => fieldOwner_pushAll_of_lt owned rfl,
      fun t => definition?_update rfl (fun _ => rfl) fun _ => rfl⟩
  | createIndex => exact .of_symbols rfl (.updateTable rfl rfl (fun _ => rfl) fun _ => rfl)

end UnitIndex

namespace Walk

open UnitIndex

variable {env : Env} {w w' : Walk}

theorem Turn.handling (turn : Turn w w') (hs : Sound w) (ok : w.TablesOk) :
    w.index.Handling w'.index := by
  cases turn with
  | reframe | endDefinition => exact .of_symbols rfl (.of_eq rfl rfl)
  | define scope new kind => exact kind.handling
  | @beginTable kind n name own closed =>
    have definitions : ∀ t, (w.index.withTable kind n name).definition? t =
        if t = w.index.tables.next then some (kind, some n) else w.index.definition? t := by
      intro t
      rw [definition?_push rfl, if_neg own]
    exact .table (fun _ => role?_withTable kind n name) (fun _ _ => rfl) definitions
  | finishTable => exact .of_symbols rfl (.updateTable rfl rfl (fun _ => rfl) fun _ => rfl)
  | @beginField buffer owner b name found kind =>
    have get? : ∀ f, (w.index.withField buffer owner b name).fields.get? f =
        if f = w.index.fields.next then some { name } else w.index.fields.get? f :=
      Arena.get?_push w.index.fields _
    refine .reach (by rw [role?, found, Option.bind_some, Symbol.role?, kind])
      (hs.coherent.field?_next found kind) (fun i => role?_reached found) ?_ (.inr ⟨rfl, ?_⟩)
      ⟨fun f hf => ?_, fun _ => rfl⟩
    · rw [fieldName?, get?, if_pos rfl]
      rfl
    · rw [fieldOwner, get?, if_pos rfl]
      rfl
    · rw [fieldOwner, get?, if_neg fun h => ?_, fieldOwner]
      exact Nat.lt_irrefl _ (h ▸ hf)
  | @joinField s rest b t opened reaches unfrozen owned =>
    have pending : w.index.Unowned b.field := by
      refine (ok.unowned b.field).1 ?_
      rw [opened, pendingFields_cons, reaches]
      exact List.mem_cons_self
    obtain ⟨field, hfield, hnone⟩ := pending
    refine .join (fun _ => rfl) reaches (Unowned.fieldOwner ⟨field, hfield, hnone⟩) owned
      (fun f => ?_) fun _ => definition?_update rfl (fun _ => rfl) fun _ => rfl
    show ((w.index.fields.update b.field _).get? f).bind _ = _
    rw [Arena.get?_update]
    by_cases hf : b.field = f
    · subst hf
      simp [hfield]
    · simp [hf, Ne.symm hf, fieldOwner]

theorem Stride.handling (stride : Stride w w') (hs : Sound w) (ok : w.TablesOk) :
    w.index.Handling w'.index := by
  cases stride with
  | change change => exact change.handling ok
  | turn turn => exact turn.handling hs ok
  | refer refers => exact .idle refers.role? (.of_eq refers.fields refers.tables)

end Walk

end AblResolve
