import AblResolve.Proofs.Handling
import AblResolve.Proofs.Passage
/-!
Handles. No field is reached twice through one buffer, since the symbol through which it is reached
is remembered with the buffer. A field that is still being defined belongs to no table: its handle
is known before it is listed, and the two come together when the definition ends.
-/
namespace AblResolve

namespace UnitIndex

variable {x y : UnitIndex} {opened : List SymbolId} {current : Option TableId}

/-! ### Handles are unique -/

/-- What is true of a symbol through which a buffer reaches a field. Before the field joins a table,
nothing else reaches it. -/
structure HandleOk (x : UnitIndex) (s : SymbolId) (f : FieldBuffer) (name : String) : Prop where
  recorded : ∃ b scope node, x.role? f.buffer = some (.buffer b scope node) ∧
    b.field? f.field = some s
  named : x.fieldName? f.field = some name
  owned : ∀ t, x.fieldOwner f.field = some t → x.bufferTable? f.buffer = some t
  alone : x.fieldOwner f.field = none → ∀ s' f' name', x.role? s' = some (.field f' name') →
    f'.field = f.field → s' = s

def HandlesOk (x : UnitIndex) : Prop :=
  ∀ s f name, x.role? s = some (.field f name) → x.HandleOk s f name

theorem HandleOk.lt_fields {s : SymbolId} {f : FieldBuffer} {name : String}
    (h : x.HandleOk s f name) : f.field.val < x.fields.size := by
  obtain ⟨field, hfield, -⟩ := Option.map_eq_some_iff.1 h.named
  exact Arena.lt_size_of_get? hfield

theorem Extends.fieldName? (ext : x.Extends y) {f : FieldId} {name : String}
    (h : x.fieldName? f = some name) : y.fieldName? f = some name := by
  obtain ⟨field, hfield, rfl⟩ := Option.map_eq_some_iff.1 h
  obtain ⟨field', hfield', same⟩ := ext.fields f field hfield
  exact Option.map_eq_some_iff.2 ⟨field', hfield', same⟩

theorem ne_next_of_role? {i : SymbolId} {r : Symbol.Role} (h : x.role? i = some r) :
    i ≠ x.symbols.next := by
  rintro rfl
  rw [role?, Arena.get?_next] at h
  cases h

/-! A buffer reaches a field by the next symbol and remembers it. -/
section Reach

variable {buffer : SymbolId} {b : TableBuffer} {scope : ScopeId} {node : Option NodeId}
  {f : FieldId} {name : String}
  (found : x.role? buffer = some (.buffer b scope node))
  (roles : ∀ i, y.role? i = if i = x.symbols.next then some (.field ⟨buffer, f⟩ name)
    else if i = buffer then some (.buffer { b with fields := b.fields ++ [(f, x.symbols.next)] }
      scope node)
    else x.role? i)

include roles in
/-- There is one new handle. -/
theorem handle_of_reach {s : SymbolId} {g : FieldBuffer} {n : String}
    (hs : y.role? s = some (.field g n)) :
    s = x.symbols.next ∧ g = ⟨buffer, f⟩ ∧ n = name ∨ x.role? s = some (.field g n) := by
  rw [roles] at hs
  split at hs
  · rename_i hnext
    cases hs
    exact .inl ⟨hnext, rfl, rfl⟩
  · split at hs
    · cases hs
    · exact .inr hs

include found roles

theorem buffer_of_reach : y.role? buffer = some (.buffer
    { b with fields := b.fields ++ [(f, x.symbols.next)] } scope node) := by
  rw [roles, if_neg (ne_next_of_role? found), if_pos rfl]

/-- Every buffer stays what it is and remembers what it has remembered. -/
theorem role?_of_reach {i : SymbolId} {b' : TableBuffer} {scope' : ScopeId} {node' : Option NodeId}
    (hi : x.role? i = some (.buffer b' scope' node')) :
    ∃ fields, y.role? i = some (.buffer { b' with fields } scope' node') ∧
      b'.fields <+: fields := by
  by_cases hbuffer : i = buffer
  · subst hbuffer
    rw [found] at hi
    cases hi
    exact ⟨_, buffer_of_reach found roles, List.prefix_append _ _⟩
  · exact ⟨b'.fields, by rw [roles, if_neg (ne_next_of_role? hi), if_neg hbuffer, hi],
      List.prefix_rfl⟩

/-- A field that has not been reached through this buffer is reached from here on. -/
theorem HandlesOk.reach (h : x.HandlesOk) (ext : x.Extends y) (fresh : b.field? f = none)
    (named : y.fieldName? f = some name)
    (owner : x.fieldOwner f = some b.table ∨ f = x.fields.next ∧ y.fieldOwner f = none)
    (owners : ∀ f, f.val < x.fields.size → y.fieldOwner f = x.fieldOwner f) : y.HandlesOk := by
  have table : y.bufferTable? buffer = some b.table :=
    ext.bufferTable? (bufferTable?_iff_role?.2 ⟨b, scope, node, found, rfl⟩)
  have ownerOf : x.fieldOwner f = some b.table → y.fieldOwner f = some b.table := by
    intro hf
    obtain ⟨field, hfield, -⟩ := Option.bind_eq_some_iff.1 hf
    rw [owners f (Arena.lt_size_of_get? hfield), hf]
  intro s g n hs
  rcases handle_of_reach roles hs with ⟨rfl, rfl, rfl⟩ | hold
  · refine ⟨⟨_, _, _, buffer_of_reach found roles, ?_⟩, named, fun t ht => ?_,
      fun hnone s' g' n' hs' same => ?_⟩
    · rw [TableBuffer.field?, Option.map_eq_none_iff] at fresh
      simp [TableBuffer.field?, List.find?_append, fresh]
    · rcases owner with hf | ⟨-, hf⟩
      · rw [← ht, ownerOf hf, table]
      · rw [hf] at ht
        cases ht
    · rcases owner with hf | ⟨rfl, -⟩
      · rw [ownerOf hf] at hnone
        cases hnone
      · rcases handle_of_reach roles hs' with ⟨rfl, -, -⟩ | hold'
        · rfl
        · exact absurd (same ▸ (h s' g' n' hold').lt_fields) (Nat.lt_irrefl _)
  · have old := h s g n hold
    have same := owners g.field old.lt_fields
    obtain ⟨b', scope', node', hb', hg⟩ := old.recorded
    obtain ⟨fields, hfields, more, rfl⟩ := role?_of_reach found roles hb'
    obtain ⟨p, hp, rfl⟩ := Option.map_eq_some_iff.1 hg
    refine ⟨⟨_, _, _, hfields, by simp [TableBuffer.field?, List.find?_append, hp]⟩,
      ext.fieldName? old.named, fun t ht => ext.bufferTable? (old.owned t (same ▸ ht)),
      fun hnone s' g' n' hs' hfield => ?_⟩
    rw [same] at hnone
    rcases handle_of_reach roles hs' with ⟨rfl, rfl, rfl⟩ | hold'
    · rcases owner with hf | ⟨rfl, -⟩
      · rw [← hfield, hf] at hnone
        cases hnone
      · exact absurd (hfield ▸ old.lt_fields) (Nat.lt_irrefl _)
    · exact old.alone hnone s' g' n' hold' hfield

end Reach

namespace HandlesOk

variable (h : x.HandlesOk) (ext : x.Extends y)
include h ext

/-- Buffers stay what they are, and there are no new handles. -/
theorem congr
    (handles : ∀ s f name, y.role? s = some (.field f name) → x.role? s = some (.field f name))
    (buffers : ∀ s b scope node, x.role? s = some (.buffer b scope node) →
      y.role? s = some (.buffer b scope node))
    (owners : ∀ f, f.val < x.fields.size → y.fieldOwner f = x.fieldOwner f) : y.HandlesOk := by
  intro s f name hs
  have old := h s f name (handles s f name hs)
  have owner := owners f.field old.lt_fields
  obtain ⟨b, scope, node, hb, hf⟩ := old.recorded
  refine ⟨⟨b, scope, node, buffers _ _ _ _ hb, hf⟩, ext.fieldName? old.named, fun t ht => ?_,
    fun hnone s' f' name' hs' same => ?_⟩
  · exact ext.bufferTable? (old.owned t (owner ▸ ht))
  · exact old.alone (owner ▸ hnone) s' f' name' (handles s' f' name' hs') same

/-- A new buffer reaches nothing yet. -/
theorem push {b : TableBuffer} {scope : ScopeId} {node : Option NodeId}
    (roles : ∀ i, y.role? i =
      if i = x.symbols.next then some (.buffer b scope node) else x.role? i)
    (owners : ∀ f, f.val < x.fields.size → y.fieldOwner f = x.fieldOwner f) : y.HandlesOk := by
  refine h.congr ext (fun s f name hs => ?_) (fun s b scope node hs => ?_) owners
  · rw [roles] at hs
    split at hs
    · cases hs
    · exact hs
  · rw [roles, if_neg (ne_next_of_role? hs), hs]

/-- A field joins the table of the buffer through which it is reached. -/
theorem join {s : SymbolId} {b : FieldBuffer} {t : TableId} (roles : ∀ i, y.role? i = x.role? i)
    (reaches : x.asFieldBuffer? s = some b) (pending : x.fieldOwner b.field = none)
    (table : x.bufferTable? b.buffer = some t)
    (owners : ∀ f, y.fieldOwner f = if f = b.field then some t else x.fieldOwner f) :
    y.HandlesOk := by
  obtain ⟨name, hs⟩ := asFieldBuffer?_iff_role?.1 reaches
  intro s' f name' hs'
  rw [roles] at hs'
  have old := h s' f name' hs'
  refine ⟨?_, ext.fieldName? old.named, fun t' ht' => ?_, fun hnone s₂ f₂ n₂ hs₂ same => ?_⟩
  · simp only [roles]
    exact old.recorded
  · rw [owners] at ht'
    split at ht'
    · rename_i hfield
      cases ht'
      -- only the symbol whose definition ends reaches the field
      have hsame : s' = s := (h s b name hs).alone pending s' f name' hs' hfield
      rw [hsame, hs] at hs'
      cases hs'
      exact ext.bufferTable? table
    · exact ext.bufferTable? (old.owned t' ht')
  · rw [owners] at hnone
    split at hnone
    · cases hnone
    · exact old.alone hnone s₂ f₂ n₂ (roles s₂ ▸ hs₂) same

theorem step (handling : x.Handling y) : y.HandlesOk := by
  cases handling with
  | idle roles same =>
    exact h.congr ext (fun s f name hs => roles s ▸ hs) (fun s b scope node hs => roles s ▸ hs)
      same.owners
  | buffer roles bare schema same => exact h.push ext roles same.owners
  | table roles owners => exact h.push ext roles owners
  | reach found fresh roles named owner same =>
    exact h.reach found roles ext fresh named owner same.owners
  | join roles reaches pending table owners => exact h.join ext roles reaches pending table owners

end HandlesOk

/-! ### Default buffers of tables of the unit -/

/-- The symbol is the only default buffer of a table. It belongs to the root scope and has the node
of the table. -/
structure OwnBuffer (x : UnitIndex) (t : TableId) (n : NodeId) (b : SymbolId) : Prop where
  role : ∃ buffer, x.role? b = some (.buffer buffer rootScope (some n)) ∧
    buffer.isDefault = true ∧ buffer.table = t
  sole : ∀ b', x.defaultTable? b' = some t → b' = b

theorem defaultTable?_congr_role? (roles : ∀ i, y.role? i = x.role? i) {b : SymbolId}
    {t : TableId} : y.defaultTable? b = some t ↔ x.defaultTable? b = some t := by
  simp only [defaultTable?_iff_role?, roles]

/-- Each table of the unit has a default buffer. -/
def OwnBuffersOk (x : UnitIndex) : Prop :=
  ∀ t kind node, x.definition? t = some (kind, node) → ∃ n b, node = some n ∧ x.OwnBuffer t n b

theorem definition?_eq_some {t : TableId} {kind : TableKind} {node : Option NodeId} :
    x.definition? t = some (kind, node) ↔ ∃ table, x.tables.get? t = some table ∧
      table.kind = kind ∧ kind ≠ .schema ∧ table.definitionNode = node := by
  rw [definition?, Option.bind_eq_some_iff]
  refine exists_congr fun table => and_congr_right fun _ => ?_
  by_cases hkind : table.kind = .schema
  · simp [hkind]
    grind
  · simp [hkind]
    grind

namespace OwnBuffersOk

variable (h : x.OwnBuffersOk)
include h

/-- There is no new table, and default buffers stay what they are. -/
theorem congr (definitions : ∀ t, y.definition? t = x.definition? t)
    (buffers : ∀ i b scope node, x.role? i = some (.buffer b scope node) →
      ∃ fields, y.role? i = some (.buffer { b with fields } scope node))
    (defaults : ∀ i t, y.defaultTable? i = some t → x.defaultTable? i = some t ∨ x.IsSchema t) :
    y.OwnBuffersOk := by
  intro t kind node ht
  rw [definitions] at ht
  obtain ⟨n, b, rfl, ⟨buffer, hrole, isDefault, table⟩, sole⟩ := h t kind node ht
  obtain ⟨fields, hrole'⟩ := buffers _ _ _ _ hrole
  refine ⟨n, b, rfl, ⟨_, hrole', isDefault, table⟩, fun b' hb' => ?_⟩
  rcases defaults b' t hb' with hold | schema
  · exact sole b' hold
  · obtain ⟨table', found, own⟩ := definition?_eq_some.1 ht
    obtain ⟨table'', found', hschema⟩ := isSchema_iff.1 schema
    rw [found] at found'
    cases found'
    exact absurd hschema (own.1 ▸ own.2.1)

/-- A table gets its default buffer when it is defined. -/
theorem define (c : x.Coherent) {kind : TableKind} {n : NodeId}
    (roles : ∀ i, y.role? i = if i = x.symbols.next then
      some (.buffer { table := x.tables.next, isDefault := true } rootScope (some n))
      else x.role? i)
    (definitions : ∀ t, y.definition? t =
      if t = x.tables.next then some (kind, some n) else x.definition? t) : y.OwnBuffersOk := by
  have defaults : ∀ i t, y.defaultTable? i = some t →
      i = x.symbols.next ∧ t = x.tables.next ∨ x.defaultTable? i = some t := by
    intro i t hi
    obtain ⟨b, scope, node, hrole, isDefault, table⟩ := defaultTable?_iff_role?.1 hi
    rw [roles] at hrole
    split at hrole
    · rename_i hnext
      cases hrole
      exact .inl ⟨hnext, table.symm⟩
    · exact .inr (defaultTable?_iff_role?.2 ⟨b, scope, node, hrole, isDefault, table⟩)
  intro t kind' node ht
  rw [definitions] at ht
  split at ht
  · rename_i hnext
    cases ht
    refine ⟨n, x.symbols.next, rfl, ⟨_, by rw [roles, if_pos rfl], rfl, hnext.symm⟩,
      fun b' hb' => ?_⟩
    rcases defaults b' t hb' with ⟨hb, -⟩ | hold
    · exact hb
    · exact absurd (hnext ▸ (c.table_of_defaultTable? hold).2) (Nat.lt_irrefl _)
  · rename_i hne
    obtain ⟨n', b, rfl, ⟨buffer, hrole, isDefault, table⟩, sole⟩ := h t kind' node ht
    refine ⟨n', b, rfl, ⟨buffer, ?_, isDefault, table⟩, fun b' hb' => ?_⟩
    · rw [roles, if_neg (ne_next_of_role? hrole), hrole]
    · rcases defaults b' t hb' with ⟨-, hnext⟩ | hold
      · exact absurd hnext hne
      · exact sole b' hold

theorem step (c : x.Coherent) (handling : x.Handling y) : y.OwnBuffersOk := by
  cases handling with
  | idle roles same =>
    exact h.congr same.definitions (fun i b scope node hi => ⟨b.fields, by rw [roles, hi]⟩)
      fun i t hi => .inl ((defaultTable?_congr_role? roles).1 hi)
  | @buffer b scope node roles bare schema same =>
    refine h.congr same.definitions
      (fun i b scope node hi => ⟨b.fields, by rw [roles, if_neg (ne_next_of_role? hi), hi]⟩)
      fun i t hi => ?_
    obtain ⟨b', scope', node', hrole, isDefault, table⟩ := defaultTable?_iff_role?.1 hi
    rw [roles] at hrole
    split at hrole
    · cases hrole
      exact .inr (table ▸ schema isDefault)
    · exact .inl (defaultTable?_iff_role?.2 ⟨b', scope', node', hrole, isDefault, table⟩)
  | table roles owners definitions => exact h.define c roles definitions
  | @reach buffer b scope node f name found fresh roles named owner same =>
    refine h.congr same.definitions
      (fun i b' scope' node' hi => (role?_of_reach found roles hi).imp fun _ => And.left)
      fun i t hi => .inl ?_
    obtain ⟨b', scope', node', hrole, isDefault, table⟩ := defaultTable?_iff_role?.1 hi
    rw [roles] at hrole
    split at hrole
    · cases hrole
    · split at hrole
      · rename_i hbuffer
        cases hrole
        exact defaultTable?_iff_role?.2 ⟨b, scope, node, hbuffer ▸ found, isDefault, table⟩
      · exact defaultTable?_iff_role?.2 ⟨b', scope', node', hrole, isDefault, table⟩
  | join roles reaches pending table owners definitions =>
    exact h.congr definitions (fun i b scope node hi => ⟨b.fields, by rw [roles, hi]⟩)
      fun i t hi => .inl ((defaultTable?_congr_role? roles).1 hi)

end OwnBuffersOk

/-! ### Default buffers of catalog tables -/

/-- Each table that is listed for the catalog has a default buffer. -/
def Offered (x : UnitIndex) : Prop := ∀ p ∈ x.schemaTables, ∃ b, x.defaultTable? b = some p.2

theorem Offered.keep (h : x.Offered) (same : y.schemaTables = x.schemaTables)
    (defaults : ∀ b t, x.defaultTable? b = some t → y.defaultTable? b = some t) : y.Offered := by
  intro p hp
  obtain ⟨b, hb⟩ := h p (same ▸ hp)
  exact ⟨b, defaults b p.2 hb⟩

/-! ### What a finished index offers -/

/-- What a buffer remembers for a field reaches the field through the buffer. -/
theorem Coherent.asFieldBuffer?_of_field? (c : x.Coherent) {i s : SymbolId} {buffer : Symbol}
    {b : TableBuffer} {f : FieldId} (hi : x.symbols.get? i = some buffer)
    (hkind : buffer.kind = .tableBuffer b) (hf : b.field? f = some s) :
    x.asFieldBuffer? s = some ⟨i, f⟩ := by
  obtain ⟨p, hp, rfl⟩ := Option.map_eq_some_iff.1 hf
  have ok := (c.symbols hi).kind
  rw [hkind] at ok
  have key : p.1 = f := by simpa using List.find?_some hp
  exact key ▸ (ok.2 p (List.mem_of_find?_eq_some hp)).1

/-- Through a buffer, a field is reached by the symbol that the buffer remembers for it. -/
theorem HandlesOk.asFieldBuffer?_iff (h : x.HandlesOk) (c : x.Coherent) {i s : SymbolId}
    {buffer : Symbol} {b : TableBuffer} {f : FieldId} (hi : x.symbols.get? i = some buffer)
    (hkind : buffer.kind = .tableBuffer b) :
    x.asFieldBuffer? s = some ⟨i, f⟩ ↔ b.field? f = some s := by
  refine ⟨fun hf => ?_, c.asFieldBuffer?_of_field? hi hkind⟩
  obtain ⟨name, hrole⟩ := asFieldBuffer?_iff_role?.1 hf
  obtain ⟨b', scope, node, hbuffer, hfield⟩ := (h s _ name hrole).recorded
  obtain ⟨buffer', hi', hkind', -⟩ := role?_eq_buffer.1 hbuffer
  rw [hi] at hi'
  cases hi'
  rw [hkind] at hkind'
  cases hkind'
  exact hfield

/-- Once every field belongs to a table, a field that is reached through a buffer belongs to the
table of the buffer; the symbol has the name of the field and the scope of the buffer. -/
theorem HandlesOk.handle (h : x.HandlesOk) (c : x.Coherent)
    (fields : Listing x.fieldsOf x.fieldOwner) (joined : ∀ f, ¬ x.Unowned f) {s : SymbolId}
    {f : FieldBuffer} (hf : x.asFieldBuffer? s = some f) : ∃ handle buffer b table field,
      x.symbols.get? s = some handle ∧ x.symbols.get? f.buffer = some buffer ∧
      buffer.kind = .tableBuffer b ∧ x.tables.get? b.table = some table ∧
      f.field ∈ table.fields ∧ x.fields.get? f.field = some field ∧
      handle.name = field.name ∧ handle.scope = buffer.scope := by
  obtain ⟨name, hrole⟩ := asFieldBuffer?_iff_role?.1 hf
  have ok := h s f name hrole
  obtain ⟨handle, hhandle, hkind, hname⟩ := role?_eq_field.1 hrole
  obtain ⟨field, hfield, named⟩ := Option.map_eq_some_iff.1 ok.named
  obtain ⟨t, ht⟩ : ∃ t, field.table = some t := by
    cases hnone : field.table with
    | some t => exact ⟨t, rfl⟩
    | none => cases joined f.field ⟨field, hfield, hnone⟩
  have owner : x.fieldOwner f.field = some t := by rw [fieldOwner, hfield]; exact ht
  obtain ⟨buffer, b, hbuffer, hkind', rfl⟩ := bufferTable?_eq_some.1 (ok.owned t owner)
  obtain ⟨table, htable, mem⟩ := hasField_iff.2 ((fields.listed b.table f.field).2 owner)
  have reached := (c.symbols hhandle).kind
  rw [hkind] at reached
  obtain ⟨buffer', hbuffer', scope⟩ := Option.map_eq_some_iff.1 reached.2.1
  rw [hbuffer] at hbuffer'
  cases hbuffer'
  exact ⟨handle, buffer, b, table, field, hhandle, hbuffer, hkind', htable, mem, hfield,
    hname.trans named.symm, scope.symm⟩

/-- A table of the catalog has its unnamed buffer as its one default buffer. -/
theorem Offered.default (offered : x.Offered) (ok : x.SchemaTablesOk) (c : x.Coherent) {t : TableId}
    (ht : x.IsSchema t) : ∃ b, x.unnamedBuffer? t = some b ∧ x.owner? b = some rootScope ∧
      ∀ b', x.defaultTable? b' = some t ↔ b' = b := by
  obtain ⟨key, listed⟩ := ok.listed t ht
  obtain ⟨b, hb⟩ := offered _ listed
  have unnamed := ok.sole t b ht hb
  obtain ⟨root, hroot, found⟩ := Option.bind_eq_some_iff.1 unnamed
  obtain ⟨p, hp, rfl⟩ := Option.map_eq_some_iff.1 found
  refine ⟨p.2, unnamed, ((c.scopes hroot).unnamed p (List.mem_of_find?_eq_some hp)).2.1,
    fun b' => ⟨fun hb' => ?_, ?_⟩⟩
  · have other := ok.sole t b' ht hb'
    rw [unnamed, Option.some.injEq] at other
    exact other.symm
  · rintro rfl
    exact hb

/-- A table of the unit has one default buffer, which is in the root scope and has its node. -/
theorem OwnBuffersOk.default (h : x.OwnBuffersOk) {t : TableId} {table : Table}
    (ht : x.tables.get? t = some table) (hown : table.kind ≠ .schema) :
    ∃ n b buffer, x.symbols.get? b = some buffer ∧ buffer.scope = rootScope ∧
      buffer.definitionNode = some n ∧ table.definitionNode = some n ∧
      ∀ b', x.defaultTable? b' = some t ↔ b' = b := by
  obtain ⟨n, b, hn, ⟨buffer, hrole, isDefault, htable⟩, sole⟩ :=
    h t table.kind table.definitionNode (definition?_eq_some.2 ⟨table, ht, rfl, hown, rfl⟩)
  obtain ⟨symbol, hsymbol, -, hscope, hnode⟩ := role?_eq_buffer.1 hrole
  refine ⟨n, b, symbol, hsymbol, hscope, hnode, hn, fun b' => ⟨sole b', ?_⟩⟩
  rintro rfl
  exact defaultTable?_iff_role?.2 ⟨buffer, _, _, hrole, isDefault, htable⟩

end UnitIndex

namespace Walk

open UnitIndex

variable {env : Env} {w w' : Walk}

/-- What holds of buffers and of the fields that are reached through them. -/
structure BuffersOk (x : UnitIndex) : Prop where
  schema : x.SchemaTablesOk
  own : x.OwnBuffersOk
  handles : x.HandlesOk

/-- At every moment of a walk, buffers and handles are in order. -/
theorem Strides.buffers (strides : Strides w w') (hs : Sound w) (tables : w.TablesOk)
    (h : BuffersOk w.index) : w'.TablesOk ∧ BuffersOk w'.index := by
  refine (strides.keep (P := fun v => v.TablesOk ∧ BuffersOk v.index) hs ?_ ⟨tables, h⟩).2
  intro v v' hs _ stride ⟨tables, h⟩
  have handling := stride.handling hs tables
  exact ⟨stride.tables hs tables, stride.schemaTables hs h.schema, h.own.step hs.coherent handling,
    h.handles.step stride.extends handling⟩

theorem buffers_start (env : Env) (notes : Annotations) : BuffersOk (start env notes).index := by
  refine ⟨schemaTables_start env notes, fun t kind node ht => ?_, fun s f name hs => ?_⟩
  · cases ht
  · obtain ⟨symbol, hsymbol, hrole⟩ := Option.bind_eq_some_iff.1 hs
    rcases Arena.get?_push_cases (a := ⟨#[]⟩) hsymbol with ⟨-, rfl⟩ | hnone
    · cases hrole
    · cases hnone

/-! ### Tables that are loaded -/

section Offers

variable {env : Env} {n : NodeId} {l : Licence} {w w' : Walk} {name : String}

theorem Calm.offered (h : Calm l w w') (offered : w.index.Offered) : w'.index.Offered :=
  offered.keep h.schemaTables fun _ _ => h.defaultTable?

theorem schemaTable_listed {e : Catalog.Entry} {t : TableId} (hok : schemaTable e w = .ok t w') :
    ∀ p ∈ w'.index.schemaTables, p ∈ w.index.schemaTables ∨ p.2 = t := by
  unfold schemaTable at hok
  obtain ⟨x, w₁, hx, hrest⟩ := bind_ok.1 hok
  cases hx
  cases hfound : w.index.schemaTable? e with
  | some t' =>
    rw [hfound] at hrest
    cases hrest
    exact fun p hp => .inl hp
  | none =>
    rw [hfound] at hrest
    cases hrest
    intro p hp
    rcases List.mem_append.1 hp with hold | hnew
    · exact .inl hold
    · exact .inr (by rw [List.mem_singleton.1 hnew])

/-- A table gets its default buffer as soon as it has been loaded. -/
theorem schemaBuffer?_offered (n : NodeId) {r : Option SymbolId} (hs : Sound w)
    (ok : w.index.SchemaTablesOk) (offered : w.index.Offered)
    (hok : schemaBuffer? env name w = .ok r w') : w'.index.Offered := by
  cases schemaBuffer?_end hok with
  | unlisted => exact offered
  | @offered _ t b w₁ _ listed loads offers =>
    obtain ⟨_, -, -, inList⟩ := schemaTable_log (l := {}) listed loads
    obtain ⟨moves, -⟩ := (ends_schemaTable env n hs _).ok loads
    have calm : Calm {} w₁ w' := defaultBuffer_calm inList offers
    intro p hp
    rw [calm.schemaTables] at hp
    rcases schemaTable_listed loads p hp with hold | rfl
    · obtain ⟨b', hb'⟩ := offered p hold
      exact ⟨b', calm.defaultTable? (moves.runs.extends.defaultTable? hb')⟩
    · exact ⟨b, defaultBuffer_ok ((Runs.strides moves.runs hs).schemaTables hs ok) offers⟩

theorem findBuffer?_offered (n : NodeId) {r : Option SymbolId} {lookup : RecordLookup}
    (hs : Sound w) (ok : w.index.SchemaTablesOk) (offered : w.index.Offered)
    (hok : findBuffer? env name lookup w = .ok r w') : w'.index.Offered := by
  cases lookup with
  | buffer =>
    cases findBuffer?_end hs hok with
    | named | table => exact offered
    | schema _ _ find => exact schemaBuffer?_offered n hs ok offered find
  | tempTable =>
    have calm : Calm {} w w' := Calmly.tempTableBuffer? name _ _ _ hok
    exact calm.offered offered
  | schemaTable => exact schemaBuffer?_offered n hs ok offered hok

theorem lookupQualified?_offered (n : NodeId) {field : String} {binding : Bool}
    {r : Option FieldLookup} (hs : Sound w) (ok : w.index.SchemaTablesOk)
    (offered : w.index.Offered) (hok : lookupQualified? env name field binding w = .ok r w') :
    w'.index.Offered := by
  cases lookupQualified?_end n hs hok with
  | noBuffer find | noField find => exact findBuffer?_offered n hs ok offered find
  | @field _ _ _ _ v _ find _ obtains =>
    have calm : Calm {} v w' := obtains.calm
    exact calm.offered (findBuffer?_offered n hs ok offered find)

theorem lookupField?_offered (n : NodeId) {binding : Bool} {r : Option FieldLookup} (hs : Sound w)
    (ok : w.index.SchemaTablesOk) (offered : w.index.Offered)
    (hok : lookupField? env name binding w = .ok r w') : w'.index.Offered := by
  unfold lookupField? at hok
  cases hsplit : Text.splitLast? name with
  | some p =>
    rw [hsplit] at hok
    exact lookupQualified?_offered n hs ok offered hok
  | none =>
    rw [hsplit] at hok
    have calm : Calm {} w w' := Calmly.lookupBare? name binding _ _ _ hok
    exact calm.offered offered

theorem resolveField_offered {q : Qualifier} {h : TableHint} (hs : Sound w)
    (ok : w.index.SchemaTablesOk) (offered : w.index.Offered)
    (hok : resolveField env n q h w = .ok () w') : w'.index.Offered := by
  cases resolveField_end hs hok with
  | @hinted _ l v _ _ find annotates =>
    have calm : Calm (entering env n) w v := Calmly.fieldOfBuffer? _ _ _ _ _ find
    exact (calm.trans (Calmly.annotateField l q _ _ _ annotates)).offered offered
  | lacking _ _ misses =>
    have calm : Calm (entering env n) w w' := Calmly.missingField _ _ _ _ _ misses
    exact calm.offered offered
  | @found l v _ _ find annotates =>
    have calm : Calm (entering env n) v w' := Calmly.annotateField l q _ _ _ annotates
    exact calm.offered (lookupField?_offered n hs ok offered find)
  | @unknown v _ _ find notes =>
    have calm : Calm (entering env n) v w' := Calmly.addUnresolved _ _ _ _ notes
    exact calm.offered (lookupField?_offered n hs ok offered find)

theorem enterField_offered {plan : Plan env.tree n} (hs : Sound w) (kind : env.tree.kind n = .field)
    (ok : w.index.SchemaTablesOk) (offered : w.index.Offered)
    (hok : enterField env n w = .ok plan w') : w'.index.Offered := by
  obtain ⟨v, primed, last⟩ := enterField_ok hs kind hok
  have moves := primed.moves
  have before : v.index.Offered :=
    offered.keep primed.listed fun _ _ => moves.runs.extends.defaultTable?
  rcases last with ⟨-, rfl⟩ | ⟨-, -, hresolve⟩
  · exact before
  · exact resolveField_offered (moves.runs.sound hs)
      ((Runs.strides moves.runs hs).schemaTables hs ok) before hresolve

theorem enterRecord_offered {plan : Plan env.tree n} (hs : Sound w) (ok : w.index.SchemaTablesOk)
    (offered : w.index.Offered) (hok : enterRecord env n w = .ok plan w') : w'.index.Offered := by
  obtain ⟨b, q, v, w₁, htake, hfind, calm, -⟩ := enterRecord_ok hok
  obtain ⟨-, moves, -, hindex, -⟩ := (ends_takeQualifier env n).ok htake
  refine calm.offered (findBuffer?_offered n (moves.runs.sound hs)
    ((Runs.strides moves.runs hs).schemaTables hs ok) ?_ hfind)
  exact offered.keep (by rw [hindex]) fun _ _ => moves.runs.extends.defaultTable?

/-- A whole walk keeps that every table it loads has a default buffer. -/
theorem keeps_offered : Keeps env fun _ w => w.index.SchemaTablesOk ∧ w.index.Offered where
  enters es n w plan w' hs _ hok admitted := by
    rintro ⟨ok, offered⟩
    have strides := admitted.enters.strides hs
    refine ⟨strides.schemaTables hs ok, ?_⟩
    by_cases record : env.tree.kind n = .record
    · rw [enter_record record] at hok
      exact enterRecord_offered hs ok offered hok
    by_cases field : env.tree.kind n = .field
    · rw [enter_field field] at hok
      exact enterField_offered hs field ok offered hok
    obtain ⟨ds, log, begins⟩ := enter_begins hs hok
    exact offered.keep (log.schemaTables (begins.entering.isLoad record field))
      fun _ _ => strides.extends.defaultTable?
  acts es w ds w' hs strides log hds := by
    rintro ⟨ok, offered⟩
    refine ⟨strides.schemaTables hs ok, ?_⟩
    exact offered.keep (log.schemaTables fun d hd => Deed.isLoad_of_isOfAction (hds d hd))
      fun _ _ => strides.extends.defaultTable?

theorem visitUnit_offered {notes : Annotations} (hok : visitUnit env (start env notes) = .ok () w) :
    w.index.Offered :=
  (visitUnit_keep keeps_offered hok ⟨schemaTables_start env notes, nofun⟩).2

end Offers

end Walk

namespace CompilationUnit

open UnitIndex Walk

variable (catalog : Catalog) (types : TypeRegistry) (options : Options)

/-- A symbol through which a buffer reaches a field is the one that is remembered with the buffer;
the table of the buffer lists the field, and the symbol has its name and the scope of the buffer.
Every table has one default buffer in the root scope: one of the catalog as its unnamed buffer, one
of the unit with its own node. No buffer changes its table. -/
theorem analyze_handles {u u' : CompilationUnit} {index : UnitIndex}
    (hok : u.analyze catalog types options = (.ok index, u')) :
    let env : Env := { tree := u.tree, catalog, types, options }
    (∀ s f, index.asFieldBuffer? s = some f → ∃ handle buffer b table field,
      index.symbols.get? s = some handle ∧ index.symbols.get? f.buffer = some buffer ∧
      buffer.kind = .tableBuffer b ∧ index.tables.get? b.table = some table ∧
      f.field ∈ table.fields ∧ index.fields.get? f.field = some field ∧
      handle.name = field.name ∧ handle.scope = buffer.scope) ∧
    (∀ i buffer b f s, index.symbols.get? i = some buffer → buffer.kind = .tableBuffer b →
      (index.asFieldBuffer? s = some ⟨i, f⟩ ↔ b.field? f = some s)) ∧
    (∀ t table, index.tables.get? t = some table → table.kind = .schema →
      ∃ b, index.unnamedBuffer? t = some b ∧ index.owner? b = some rootScope ∧
        ∀ b', index.defaultTable? b' = some t ↔ b' = b) ∧
    (∀ t table, index.tables.get? t = some table → table.kind ≠ .schema →
      ∃ n b buffer, index.symbols.get? b = some buffer ∧ buffer.scope = rootScope ∧
        buffer.definitionNode = some n ∧ table.definitionNode = some n ∧
        ∀ b', index.defaultTable? b' = some t ↔ b' = b) ∧
    ∀ v ∈ unitMoments env u.notes, ∀ b t,
      v.index.bufferTable? b = some t → index.bufferTable? b = some t := by
  intro env
  obtain ⟨w, hw, rfl, rfl⟩ := analyze_ok catalog types options hok
  have hs := sound_start env u.notes
  have strides := strides_visitUnit hw
  have coherent := (strides.keep hs (fun _ _ _ hs _ _ => hs) hs).1.coherent
  have tables := tables_visitUnit hw
  obtain ⟨-, schema, own, handles⟩ :=
    strides.buffers hs (tables_start env u.notes) (buffers_start env u.notes)
  -- at the end every field has joined a table
  have joined : ∀ f, ¬ w.index.Unowned f := by
    intro f hf
    cases (tables.unowned f).2 hf
  refine ⟨fun s f hf => handles.handle coherent tables.fields joined hf,
    fun i buffer b f s hi hkind => handles.asFieldBuffer?_iff coherent hi hkind,
    fun t table ht hschema => ?_, fun t table ht hown => own.default ht hown,
    fun v hv b t hb => (visitUnit_lasting hw v hv).bufferTable? hb⟩
  exact (visitUnit_offered hw).default schema coherent (isSchema_iff.2 ⟨table, ht, hschema⟩)

/-- A temp-table with a field `f` that is used twice, and a field of a catalog table. -/
def handledSample : ParseTree := .ofRows [
  (0, .defineTempTable, ""), (1, .identifier, "tt"), (1, .tableField, ""), (3, .identifier, "f"),
  (0, .expression, ""), (5, .field, "tt.f"), (0, .expression, ""), (7, .field, "tt.f"),
  (0, .expression, ""), (9, .field, "SalesRep.SalesRep")]

/-- In the sample, `f` has one handle, which was there before `f` belonged to the temp-table, and
the catalog table has one default buffer. -/
theorem analyze_handles_sample :
    ∃ index u, (ofTree handledSample).analyze ⟨[⟨"sports", [Catalog.Sample.salesRep]⟩]⟩ {} {} =
        (.ok index, u) ∧
      (∀ s, index.asFieldBuffer? s = some ⟨⟨1⟩, ⟨0⟩⟩ ↔ s = ⟨2⟩) ∧
      index.unnamedBuffer? ⟨1⟩ = some ⟨3⟩ ∧ ∀ b, index.defaultTable? b = some ⟨1⟩ ↔ b = ⟨3⟩ := by
  obtain ⟨index, hok, kind, schema, unnamed⟩ :=
    exists_analyze_ok_and (u := ofTree handledSample) ⟨[⟨"sports", [Catalog.Sample.salesRep]⟩]⟩
      {} {} (P := fun x => (x.symbols.get? ⟨1⟩).map (·.kind) =
          some (.tableBuffer { table := ⟨0⟩, isDefault := true, fields := [(⟨0⟩, ⟨2⟩)] }) ∧
        (x.tables.get? ⟨1⟩).map (·.kind) = some .schema ∧ x.unnamedBuffer? ⟨1⟩ = some ⟨3⟩)
      (by decide +kernel)
  obtain ⟨-, handles, defaults, -⟩ := analyze_handles _ {} {} hok
  obtain ⟨buffer, hbuffer, hkind⟩ := Option.map_eq_some_iff.1 kind
  obtain ⟨table, htable, hschema⟩ := Option.map_eq_some_iff.1 schema
  obtain ⟨b, hb, -, sole⟩ := defaults ⟨1⟩ table htable hschema
  rw [unnamed, Option.some.injEq] at hb
  refine ⟨index, _, hok, fun s => ?_, unnamed, fun b' => hb ▸ sole b'⟩
  rw [handles ⟨1⟩ buffer _ ⟨0⟩ s hbuffer hkind]
  simp [TableBuffer.field?, eq_comm]

end CompilationUnit

end AblResolve
