import AblResolve.Proofs.Coherence
/-!
All the ways in which a walk changes its index, short of counting references. Every change extends
the index, keeps it coherent, and leaves the counts and the frozen tables as they are.
-/
namespace AblResolve

/-- What clauses and references change about a symbol that is there. -/
inductive Symbol.Revision (s : Symbol) : Symbol → Prop
  | unchanged : Revision s s
  | parameter {r : Routine} (kind : s.kind = .routine r) (p : SymbolId × ParameterMode) :
      Revision s { s with kind := .routine { r with parameters := r.parameters ++ [p] } }
  | returns {r : Routine} (kind : s.kind = .routine r) (type : DataType)
      (className : Option String) :
      Revision s { s with
        kind := .routine { r with returnType := some type, returnClass := className } }
  | signature {ps : List SymbolId} (kind : s.kind = .event ps) (p : SymbolId) :
      Revision s { s with kind := .event (ps ++ [p]) }
  | columns {b : Browse} (kind : s.kind = .browse b) (columns : List SymbolId) :
      Revision s { s with kind := .browse { b with columns } }
  | relocate (notVariable : s.asVariable? = none) (notBuffer : s.asTableBuffer? = none)
      (n : NodeId) :
      Revision s { s with definitionNode := some n }

namespace Symbol.Revision

variable {s s' : Symbol}

theorem fixed (h : Revision s s') : s'.fixed = s.fixed := by
  cases h with
  | unchanged => rfl
  | relocate hnot _ n =>
    have hnot' : asVariable? { s with definitionNode := some n } = none := hnot
    simp only [Symbol.fixed, hnot, hnot']
    rfl
  | _ => simp_all [Symbol.fixed, SymbolKind.fixed, asVariable?]

theorem references (h : Revision s s') : s'.references = s.references := by
  cases h <;> rfl

theorem scope (h : Revision s s') : s'.scope = s.scope := by
  cases h <;> rfl

theorem attached (h : Revision s s') : s'.attached = s.attached := by
  cases h <;> rfl

/-- Parameters are only added to the signature of an event. -/
theorem mem_signature {p : SymbolId} (h : Revision s s') (hp : p ∈ s.signature) :
    p ∈ s'.signature := by
  cases h <;> simp_all [Symbol.signature, asEvent?]

/-- No symbol becomes a field that is reached through a buffer. -/
theorem fieldBuffer {f : FieldBuffer} (h : Revision s s') (hf : s'.kind = .fieldBuffer f) :
    s.kind = .fieldBuffer f := by
  cases h <;> simp_all

theorem kindOk {x : UnitIndex} {i : SymbolId} {o : ScopeId} (h : Revision s s')
    (ok : x.KindOk i o s.kind) : x.KindOk i o s'.kind := by
  cases h with
  | unchanged => exact ok
  | relocate => exact ok
  | parameter kind p => rw [kind] at ok; exact ok
  | returns kind => rw [kind] at ok; exact ok
  | _ => trivial

end Symbol.Revision

/-- Only what has a data type has a class. -/
def ValueType.Proper (t : ValueType) : Prop := t.dataType = none → t.className = none

namespace UnitIndex

variable {x y : UnitIndex} {opened : List SymbolId} {typing tabling : Prop}

/-- What a new symbol may be that is not made together with something else. -/
def Initial (x : UnitIndex) : SymbolKind → Prop
  | .variable v => v.type.Proper
  | .tableBuffer b => b.fields = [] ∧ b.isDefault = false ∧ b.table.val < x.tables.size
  | .routine _ | .fieldBuffer _ => False
  | _ => True

/-- The index with a new symbol. -/
def withSymbol (x : UnitIndex) (s : Symbol) : UnitIndex := { x with symbols := x.symbols.push s }

/-- The index with names leading to a symbol. -/
def attached (x : UnitIndex) (i : SymbolId) (s : Symbol) (space : Namespace) : UnitIndex :=
  { x with
    symbols := x.symbols.update i fun s => { s with attached := true }
    scopes :=
      if s.name = "" then x.scopes
      else x.scopes.update s.scope fun scope =>
        { scope with names := (scope.names.insert space s.name i).2 } }

/-- The index with a symbol through which a buffer reaches a field. -/
def reached (x : UnitIndex) (buffer : SymbolId) (owner : Symbol) (b : TableBuffer) (f : FieldId)
    (name : String) : UnitIndex :=
  { x with
    symbols := (x.symbols.push
      { name, scope := owner.scope, definitionNode := none, attached := true,
        kind := .fieldBuffer ⟨buffer, f⟩ }).update buffer fun s =>
      { s with kind := .tableBuffer { b with fields := b.fields ++ [(f, x.symbols.next)] } } }

/-- The index with a default buffer for a catalog table. -/
def withDefaultBuffer (x : UnitIndex) (t : TableId) (name : String) : UnitIndex :=
  { x with
    symbols := x.symbols.push
      { name, scope := rootScope, definitionNode := none, attached := true,
        kind := .tableBuffer { table := t, isDefault := true } }
    scopes := x.scopes.update rootScope fun s =>
      { s with unnamedBuffers := s.unnamedBuffers ++ [(t, x.symbols.next)] } }

/-- The index with a buffer bound to a block. -/
def bound (x : UnitIndex) (block : BlockId) (buffer : SymbolId) (strength : Strength) :
    UnitIndex :=
  { x with
    bufferScopes := x.bufferScopes.push ⟨block, buffer, strength⟩
    blocks := x.blocks.update block (·.addBufferScope x.bufferScopes.next strength) }

/-- The index with a new scope and the block around its code. -/
def withScope (x : UnitIndex) (parent : ScopeId) (parentBlock : BlockId) (kind : ScopeKind)
    (n : NodeId) (routine : Option SymbolId) : UnitIndex :=
  { x with
    scopes := x.scopes.push
      { parent := some parent, kind, node := n, rootBlock := x.blocks.next, routine }
    blocks := x.blocks.push
      { parent := some parentBlock, scope := x.scopes.next, kind := .root, node := n } }

/-- The index with a new routine: its symbol, its scope and the block around its code. -/
def withRoutine (x : UnitIndex) (parent : ScopeId) (parentBlock : BlockId) (kind : ScopeKind)
    (n : NodeId) (name : String) (r : Routine) : UnitIndex :=
  (x.withScope parent parentBlock kind n (some x.symbols.next)).withSymbol
    { name, scope := parent, definitionNode := some n, kind := .routine r }

/-- The index with a new control block. -/
def withBlock (x : UnitIndex) (parent : BlockId) (scope : ScopeId) (kind : BlockKind)
    (n : NodeId) : UnitIndex :=
  { x with blocks := x.blocks.push { parent := some parent, scope, kind, node := n } }

/-- The index with more fields in a table. -/
def withFields (x : UnitIndex) (t : TableId) (fields : List FieldId) : UnitIndex :=
  { x with
    tables := x.tables.update t fun table => { table with fields := table.fields ++ fields } }

/-- The index with a new table of the unit and its default buffer. -/
def withTable (x : UnitIndex) (kind : TableKind) (n : NodeId) (name : String) : UnitIndex :=
  withSymbol { x with tables := x.tables.push { name, kind, definitionNode := some n } }
    { name, scope := rootScope, definitionNode := some n,
      kind := .tableBuffer { table := x.tables.next, isDefault := true } }

/-- The index with a new field that does not belong to a table yet, reached through a buffer. -/
def withField (x : UnitIndex) (buffer : SymbolId) (owner : Symbol) (b : TableBuffer)
    (name : String) : UnitIndex :=
  reached { x with fields := x.fields.push { name } } buffer owner b x.fields.next name

/-- The index after a field has joined a table. -/
def joined (x : UnitIndex) (t : TableId) (f : FieldId) : UnitIndex :=
  withFields { x with fields := x.fields.update f fun field => { field with table := some t } } t
    [f]

/-- The index after a table has been frozen. -/
def frozen (x : UnitIndex) (t : TableId) : UnitIndex :=
  { x with tables := x.tables.update t fun table => { table with frozen := true } }

/-- The index with one more index of a table. -/
def withIndex (x : UnitIndex) (index : TableIndex) : UnitIndex :=
  { x with
    indexes := x.indexes.push index
    tables := x.tables.update index.table fun table =>
      { table with indexes := table.indexes ++ [x.indexes.next] } }

/-- A table that still takes fields and indexes. -/
def Unfrozen (x : UnitIndex) (t : TableId) : Prop :=
  ∃ table, x.tables.get? t = some table ∧ table.frozen = false

/-- What is known when a buffer is bound to a block. Only a DO FOR or REPEAT FOR binds a buffer that
the block has already, and references are bound only where the block takes them. -/
structure Bindable (x : UnitIndex) (block : Block) (buffer : SymbolId) (strength : Strength) :
    Prop where
  isBuffer : x.IsBuffer buffer
  sees : x.Sees block.scope buffer
  offered : x.IsAttached buffer ∨ x.IsEventParameter buffer
  alone : strength ≠ .strong → ∀ j ∈ block.bufferScopes, x.scopesBuffer buffer j = false
  takes : strength = .reference → block.scopesRecords

/-- The field is in the list of the table. -/
def HasField (x : UnitIndex) (t : TableId) (f : FieldId) : Prop :=
  ∃ table, x.tables.get? t = some table ∧ f ∈ table.fields

/-- The field is in the list of the table of the buffer. -/
def Carries (x : UnitIndex) (buffer : SymbolId) (f : FieldId) : Prop :=
  ∃ t, x.bufferTable? buffer = some t ∧ x.HasField t f

/-- One change of an index, with what is known when it is made; `opened` are the symbols whose
definitions are open, `typing` says whether types are given, `tabling` whether indexes are made. -/
inductive Change (x : UnitIndex) (opened : List SymbolId) (typing tabling : Prop) :
    UnitIndex → Prop
  | report (d : Diagnostic) (other : d.code ≠ .unresolvedField)
      (like : d.code = .unresolvedLikeSource → typing)
      (skip : d.code = .skippedIndexField → tabling) :
      Change x opened typing tabling { x with diagnostics := x.diagnostics.add d }
  | defaulted (n : NodeId) :
      Change x opened typing tabling { x with defaulted := x.defaulted ++ [n] }
  | load (e : Catalog.Entry) (new : x.schemaTable? e = none) :
      Change x opened typing tabling (x.loadTable e)
  | create {s : Symbol} (scope : s.scope.val < x.scopes.size) (new : s.references = {})
      (kind : x.Initial s.kind) : Change x opened typing tabling (x.withSymbol s)
  | createDefault {t : TableId} {table : Table} {root : Scope}
      (found : x.tables.get? t = some table) (hasRoot : x.scopes.get? rootScope = some root)
      (new : root.unnamedBuffer? t = none) (schema : table.kind = .schema) :
      Change x opened typing tabling (x.withDefaultBuffer t table.name)
  | reach {buffer : SymbolId} {owner : Symbol} {b : TableBuffer} {f : FieldId} {field : Field}
      (found : x.symbols.get? buffer = some owner) (kind : owner.kind = .tableBuffer b)
      (new : b.field? f = none) (hasField : x.fields.get? f = some field)
      (listed : x.HasField b.table f) :
      Change x opened typing tabling (x.reached buffer owner b f field.name)
  | attach {i : SymbolId} {s : Symbol} {space : Namespace} (found : x.symbols.get? i = some s)
      (leads : s.kind.space? = some space) (closed : s.asTableBuffer? = none → i ∉ opened) :
      Change x opened typing tabling (x.attached i s space)
  | revise {i : SymbolId} {s : Symbol} {f : Symbol → Symbol} (found : x.symbols.get? i = some s)
      (revision : s.Revision (f s)) :
      Change x opened typing tabling { x with symbols := x.symbols.update i f }
  | typeVariable {i : SymbolId} {s : Symbol} {v : Variable} (isOpen : i ∈ opened)
      (found : x.symbols.get? i = some s) (kind : s.kind = .variable v) (type : ValueType)
      (allowed : typing) (proper : v.type.Proper → type.Proper) :
      Change x opened typing tabling { x with
        symbols := x.symbols.update i fun s => { s with kind := .variable { v with type } } }
  | typeField {i : SymbolId} {b : FieldBuffer} (isOpen : i ∈ opened)
      (found : x.asFieldBuffer? i = some b) (type : Field → ValueType) (allowed : typing)
      (proper : ∀ f, f.type.Proper → (type f).Proper) :
      Change x opened typing tabling { x with
        fields := x.fields.update b.field fun field => { field with type := type field } }
  | openScope {parent : ScopeId} {parentBlock : BlockId} {outer : Block} {kind : ScopeKind}
      (n : NodeId) (found : x.blocks.get? parentBlock = some outer)
      (scope : outer.scope = parent) (free : kind.isBody = false) :
      Change x opened typing tabling (x.withScope parent parentBlock kind n none)
  | openRoutine {parent : ScopeId} {parentBlock : BlockId} {outer : Block} {kind : ScopeKind}
      (n : NodeId) (name : String) {r : Routine} (found : x.blocks.get? parentBlock = some outer)
      (scope : outer.scope = parent) (isBody : kind.isBody = true) (body : r.body = x.scopes.next) :
      Change x opened typing tabling (x.withRoutine parent parentBlock kind n name r)
  | setClass {root : Scope} {kind : ScopeKind} (found : x.scopes.get? rootScope = some root)
      (same : kind.isBody = root.kind.isBody) (name : String) (info : Option TypeInfo) :
      Change x opened typing tabling { x with
        scopes := x.scopes.update rootScope fun scope =>
          { scope with kind, className := some name, typeInfo := info } }
  | openBlock {parent : BlockId} {outer : Block} {scope : ScopeId} {kind : BlockKind} (n : NodeId)
      (found : x.blocks.get? parent = some outer) (same : outer.scope = scope)
      (control : kind ≠ .root) : Change x opened typing tabling (x.withBlock parent scope kind n)
  | bind {i : BlockId} {block : Block} {buffer : SymbolId} {strength : Strength}
      (found : x.blocks.get? i = some block) (bindable : x.Bindable block buffer strength) :
      Change x opened typing tabling (x.bound i buffer strength)
  | copyFields {t : TableId} {fields : List Field} (unfrozen : x.Unfrozen t)
      (owned : ∀ f ∈ fields, f.table = some t)
      (copied : ∀ f ∈ fields, ∃ i v, x.fields.get? i = some v ∧ f.type = v.type) :
      Change x opened typing tabling (withFields { x with fields := x.fields.pushAll fields } t
        (x.fields.nextIds fields.length))
  | createIndex {index : TableIndex} (unfrozen : x.Unfrozen index.table)
      (fields : ∀ f ∈ index.fields, x.HasField index.table f) (allowed : tabling) :
      Change x opened typing tabling (x.withIndex index)
  | addIndexField {i : IndexId} {index : TableIndex} {f : FieldId}
      (found : x.indexes.get? i = some index) (unfrozen : x.Unfrozen index.table)
      (hasField : x.HasField index.table f) (allowed : tabling) :
      Change x opened typing tabling { x with
        indexes := x.indexes.update i fun index => { index with fields := index.fields ++ [f] } }

/-- Types may be given as well. -/
theorem Change.mono {typing' tabling' : Prop} (c : x.Change opened typing tabling y)
    (h : typing → typing') (k : tabling → tabling') : x.Change opened typing' tabling' y := by
  cases c with
  | report d other like skip =>
    exact .report d other (fun hlike => h (like hlike)) fun hskip => k (skip hskip)
  | defaulted n => exact .defaulted n
  | load e new => exact .load e new
  | create scope new kind => exact .create scope new kind
  | createDefault found hasRoot new schema => exact .createDefault found hasRoot new schema
  | reach found kind new hasField listed => exact .reach found kind new hasField listed
  | attach found leads closed => exact .attach found leads closed
  | revise found revision => exact .revise found revision
  | typeVariable isOpen found kind type allowed proper =>
    exact .typeVariable isOpen found kind type (h allowed) proper
  | typeField isOpen found type allowed proper =>
    exact .typeField isOpen found type (h allowed) proper
  | openScope n found scope free => exact .openScope n found scope free
  | openRoutine n name found scope isBody body =>
    exact .openRoutine n name found scope isBody body
  | setClass found same name info => exact .setClass found same name info
  | openBlock n found same control => exact .openBlock n found same control
  | bind found bindable => exact .bind found bindable
  | copyFields unfrozen owned copied => exact .copyFields unfrozen owned copied
  | createIndex unfrozen fields allowed => exact .createIndex unfrozen fields (k allowed)
  | addIndexField found unfrozen hasField allowed =>
    exact .addIndexField found unfrozen hasField (k allowed)

/-! ### Changes extend the index -/

theorem extends_reached {buffer : SymbolId} {owner : Symbol} {b : TableBuffer} {f : FieldId}
    {name : String} (found : x.symbols.get? buffer = some owner)
    (kind : owner.kind = .tableBuffer b) : x.Extends (x.reached buffer owner b f name) := by
  refine { Extends.refl x with
    symbols := (Arena.keeps_push _ _ _).trans (Arena.keeps_update ?_)
    attached := (Arena.retains_push _ _ _).trans (Arena.retains_update fun _ _ h => h)
    signatures := fun _ => (Arena.retains_push _ _ _).trans (Arena.retains_update ?_) }
  · intro v hv
    rw [Arena.get?_push_of_get? found] at hv
    cases hv
    simp [Symbol.fixed, SymbolKind.fixed, Symbol.asVariable?, kind]
  · intro v hv hp
    rw [Arena.get?_push_of_get? found] at hv
    cases hv
    simp [Symbol.signature, Symbol.asEvent?, kind] at hp

theorem extends_attached (i : SymbolId) (s : Symbol) (space : Namespace) :
    x.Extends (x.attached i s space) := by
  refine { Extends.refl x with
    symbols := Arena.keeps_update fun _ _ => rfl
    attached := Arena.retains_update fun _ _ _ => rfl
    signatures := fun _ => Arena.retains_update fun _ _ h => h
    scopes := ?_ }
  show x.scopes.Keeps Scope.fixed (if _ then _ else _)
  split
  · exact .refl _ _
  · exact Arena.keeps_update fun _ _ => rfl

theorem extends_withSymbol (x : UnitIndex) (s : Symbol) : x.Extends (x.withSymbol s) :=
  { Extends.refl x with
    symbols := Arena.keeps_push _ _ _
    attached := Arena.retains_push _ _ _
    signatures := fun _ => Arena.retains_push _ _ _ }

theorem extends_withDefaultBuffer (x : UnitIndex) (t : TableId) (name : String) :
    x.Extends (x.withDefaultBuffer t name) :=
  { Extends.refl x with
    symbols := Arena.keeps_push _ _ _
    attached := Arena.retains_push _ _ _
    signatures := fun _ => Arena.retains_push _ _ _
    scopes := Arena.keeps_update fun _ _ => rfl }

theorem extends_loadTable (x : UnitIndex) (e : Catalog.Entry) : x.Extends (x.loadTable e) :=
  { Extends.refl x with
    fields := Arena.keeps_pushAll _ _ _
    indexes := Arena.keeps_pushAll _ _ _
    tables := Arena.keeps_push _ _ _ }

theorem extends_withScope (x : UnitIndex) (parent : ScopeId) (parentBlock : BlockId)
    (kind : ScopeKind) (n : NodeId) (routine : Option SymbolId) :
    x.Extends (x.withScope parent parentBlock kind n routine) :=
  { Extends.refl x with
    scopes := Arena.keeps_push _ _ _
    blocks := Arena.keeps_push _ _ _ }

theorem extends_withRoutine (x : UnitIndex) (parent : ScopeId) (parentBlock : BlockId)
    (kind : ScopeKind) (n : NodeId) (name : String) (r : Routine) :
    x.Extends (x.withRoutine parent parentBlock kind n name r) :=
  (extends_withScope _ _ _ _ _ _).trans (extends_withSymbol _ _)

theorem extends_withTable (x : UnitIndex) (kind : TableKind) (n : NodeId) (name : String) :
    x.Extends (x.withTable kind n name) := by
  have table : x.Extends { x with
      tables := x.tables.push { name, kind, definitionNode := some n } } :=
    { Extends.refl x with tables := Arena.keeps_push _ _ _ }
  exact table.trans (extends_withSymbol _ _)

theorem extends_pushField (x : UnitIndex) (field : Field) :
    x.Extends { x with fields := x.fields.push field } :=
  { Extends.refl x with fields := Arena.keeps_push _ _ _ }

theorem extends_withField {buffer : SymbolId} {owner : Symbol} {b : TableBuffer} {name : String}
    (found : x.symbols.get? buffer = some owner) (kind : owner.kind = .tableBuffer b) :
    x.Extends (x.withField buffer owner b name) :=
  (extends_pushField x _).trans (extends_reached (by exact found) kind)

theorem extends_withFields (x : UnitIndex) (t : TableId) (fields : List FieldId) :
    x.Extends (x.withFields t fields) :=
  { Extends.refl x with tables := Arena.keeps_update fun _ _ => rfl }

theorem extends_joined (x : UnitIndex) (t : TableId) (f : FieldId) :
    x.Extends (x.joined t f) := by
  have owned : x.Extends { x with
      fields := x.fields.update f fun field => { field with table := some t } } :=
    { Extends.refl x with fields := Arena.keeps_update fun _ _ => rfl }
  exact owned.trans (extends_withFields _ _ _)

theorem extends_frozen (x : UnitIndex) (t : TableId) : x.Extends (x.frozen t) :=
  { Extends.refl x with tables := Arena.keeps_update fun _ _ => rfl }

theorem Change.extends (h : x.Change opened typing tabling y) : x.Extends y := by
  cases h with
  | report | defaulted => exact { Extends.refl x with }
  | load e => exact extends_loadTable x e
  | create => exact extends_withSymbol x _
  | createDefault => exact extends_withDefaultBuffer x _ _
  | reach found kind => exact extends_reached found kind
  | attach => exact extends_attached _ _ _
  | revise found revision =>
    refine { Extends.refl x with
      symbols := Arena.keeps_update fun v hv => ?_
      attached := Arena.retains_update fun v hv h => ?_
      signatures := fun _ => Arena.retains_update fun v hv h => ?_ }
    · rw [found] at hv
      cases hv
      exact revision.fixed
    · rw [found] at hv
      cases hv
      exact revision.attached.trans h
    · rw [found] at hv
      cases hv
      exact revision.mem_signature h
  | typeVariable isOpen found kind type =>
    refine { Extends.refl x with
      symbols := Arena.keeps_update fun v hv => ?_
      attached := Arena.retains_update fun _ _ h => h
      signatures := fun _ => Arena.retains_update fun v hv h => ?_ }
    · rw [found] at hv
      cases hv
      simp [Symbol.fixed, SymbolKind.fixed, Symbol.asVariable?, kind]
    · rw [found] at hv
      cases hv
      simp [Symbol.signature, Symbol.asEvent?, kind] at h
  | openScope => exact extends_withScope _ _ _ _ _ _
  | openRoutine => exact extends_withRoutine _ _ _ _ _ _ _
  | setClass found same =>
    refine { Extends.refl x with scopes := Arena.keeps_update fun v hv => ?_ }
    rw [found] at hv
    cases hv
    simp [Scope.fixed, same]
  | openBlock => exact { Extends.refl x with blocks := Arena.keeps_push _ _ _ }
  | bind =>
    exact { Extends.refl x with
      bufferScopes := Arena.keeps_push _ _ _
      blocks := Arena.keeps_update fun _ _ => rfl }
  | copyFields =>
    exact { Extends.refl x with
      fields := Arena.keeps_pushAll _ _ _
      tables := Arena.keeps_update fun _ _ => rfl }
  | typeField => exact { Extends.refl x with fields := Arena.keeps_update fun _ _ => rfl }
  | createIndex =>
    exact { Extends.refl x with
      indexes := Arena.keeps_push _ _ _
      tables := Arena.keeps_update fun _ _ => rfl }
  | addIndexField => exact { Extends.refl x with indexes := Arena.keeps_update fun _ _ => rfl }

/-! ### Changes keep the index coherent -/

theorem Lies.congr {i : BlockId} {a b : Block} (h : x.Lies i a) (parent : b.parent = a.parent)
    (kind : b.kind = a.kind) (scope : b.scope = a.scope) : x.Lies i b := by
  cases h with
  | outermost first hp hkind hscope =>
    exact .outermost first (parent.trans hp) (kind.trans hkind) (scope.trans hscope)
  | around hp older found hkind hscope =>
    exact .around (parent.trans hp) older found (kind.trans hkind) (scope ▸ hscope)
  | inside hp older found hkind hscope =>
    exact .inside (parent.trans hp) older found (kind ▸ hkind) (scope ▸ hscope)

theorem Initial.kindOk {k : SymbolKind} {i : SymbolId} {s : ScopeId} (h : x.Initial k) :
    x.KindOk i s k := by
  cases k with
  | tableBuffer b => exact ⟨h.2.2, by simp [h.1]⟩
  | fieldBuffer | routine => exact h.elim
  | _ => trivial

theorem Initial.reached {k : SymbolKind} {f : FieldBuffer} (h : x.Initial k) :
    k ≠ .fieldBuffer f := by
  rintro rfl
  exact h

theorem root_update {a : Arena .scope Scope} (s : ScopeId) {f : Scope → Scope}
    (hf : ∀ scope, scope.routine.isSome → (f scope).routine.isSome)
    (h : ∃ scope, a.get? rootScope = some scope ∧ scope.routine.isSome) :
    ∃ scope, (a.update s f).get? rootScope = some scope ∧ scope.routine.isSome := by
  obtain ⟨scope, hscope, hsome⟩ := h
  rw [Arena.get?_update, hscope]
  split
  · exact ⟨f scope, rfl, hf scope hsome⟩
  · exact ⟨scope, rfl, hsome⟩

section Coherent

variable (h : x.Coherent)
include h

theorem coherent_loadTable (e : Catalog.Entry) : (x.loadTable e).Coherent := by
  have hnamed : ∀ f ∈ ((e.table.fields.map (·.name)).zip
      (x.fields.nextIds e.table.fields.length)).map (·.2),
      f.val < (x.loadTable e).fields.size := by
    intro f hf
    obtain ⟨p, hp, rfl⟩ := List.mem_map.1 hf
    have := Arena.val_lt_of_mem_nextIds (List.of_mem_zip hp).2
    simp only [loadTable, Arena.size_pushAll, List.length_map]
    omega
  refine h.grow (extends_loadTable x e) h.root (.same _ _) (.same _ _) (.same _ _) (.same _ _)
    (Arena.renews_push ⟨?_, ?_⟩) (Arena.renews_pushAll ?_) ?_
  · intro f hf
    have := Arena.val_lt_of_mem_nextIds hf
    simp only [loadTable, Arena.size_pushAll, List.length_map]
    omega
  · intro i hi
    have := Arena.val_lt_of_mem_nextIds hi
    simp only [loadTable, Arena.size_pushAll, List.length_map]
    omega
  · intro v hv i f hf
    obtain ⟨index, -, rfl⟩ := List.mem_map.1 hv
    obtain ⟨name, -, hname⟩ := List.mem_filterMap.1 hf
    obtain ⟨p, hp, rfl⟩ := Option.map_eq_some_iff.1 hname
    exact hnamed _ (List.mem_map_of_mem (List.mem_of_find?_eq_some hp))
  · intro p hp
    rcases List.mem_append.1 hp with hp | hp
    · exact (h.schemaTables p hp).extends (extends_loadTable x e)
    · rw [List.mem_singleton.1 hp]
      exact isSchema_iff.2 ⟨_, Arena.get?_push_next _ _, rfl⟩

theorem coherent_withDefaultBuffer {t : TableId} {table : Table}
    (found : x.tables.get? t = some table) :
    (x.withDefaultBuffer t table.name).Coherent := by
  have ext := x.extends_withDefaultBuffer t table.name
  refine h.grow ext (root_update _ (fun _ h => h) h.root) (Arena.renews_update ?_) (.same _ _)
    (.same _ _) (Arena.renews_push ⟨ext.lt_scopes h.root_lt, ?_, by simp⟩) (.same _ _) (.same _ _)
    h.schemaTables
  · intro scope hscope
    have ok := (h.scopes hscope).extends ext
    refine ⟨ok.parent, ok.rootBlock, ok.routine, ok.body, ok.names, ok.attached, ?_⟩
    intro p hp
    rcases List.mem_append.1 hp with hp | hp
    · exact ok.unnamed p hp
    · rw [List.mem_singleton.1 hp]
      simp [withDefaultBuffer, bufferTable?, owner?, IsAttached, Symbol.asTableBuffer?]
  · exact ⟨Arena.lt_size_of_get? found, by simp⟩

theorem coherent_reached {buffer : SymbolId} {owner : Symbol} {b : TableBuffer} {f : FieldId}
    {name : String} (found : x.symbols.get? buffer = some owner)
    (kind : owner.kind = .tableBuffer b) (hf : f.val < x.fields.size) :
    (x.reached buffer owner b f name).Coherent := by
  have ext : x.Extends (x.reached buffer owner b f name) := extends_reached found kind
  have hne : buffer ≠ x.symbols.next := by
    rintro rfl
    exact Nat.lt_irrefl _ (Arena.lt_size_of_get? found)
  have ok := (h.symbols found).extends ext
  have hkind := kind ▸ ok.kind
  have htable : x.bufferTable? buffer = some b.table :=
    bufferTable?_eq_some.2 ⟨owner, b, found, kind, rfl⟩
  have howner : x.owner? buffer = some owner.scope := by simp [owner?, found]
  have hnew : (x.reached buffer owner b f name).symbols.get? x.symbols.next =
      some { name, scope := owner.scope, definitionNode := none, attached := true,
             kind := .fieldBuffer ⟨buffer, f⟩ } := by
    simp [reached, Arena.get?_update, hne]
  have newOk : (x.reached buffer owner b f name).SymbolOk x.symbols.next
      { name, scope := owner.scope, definitionNode := none, attached := true,
        kind := .fieldBuffer ⟨buffer, f⟩ } :=
    ⟨ok.scope, ⟨⟨b.table, ext.bufferTable? htable⟩, ext.owner?_eq_some howner, hf⟩, fun _ _ => rfl⟩
  refine h.grow ext h.root (.same _ _) (.same _ _) (.same _ _)
    ((Arena.renews_push newOk).trans (Arena.renews_update ?_)) (.same _ _) (.same _ _)
    h.schemaTables
  intro v hv
  rw [Arena.get?_push_of_get? found] at hv
  cases hv
  refine ⟨ok.scope, ⟨hkind.1, fun p hp => ?_⟩, by simp⟩
  rcases List.mem_append.1 hp with hp | hp
  · exact hkind.2 p hp
  · rw [List.mem_singleton.1 hp]
    simp [asFieldBuffer?, owner?, hnew, Symbol.asFieldBuffer?]

theorem coherent_attached {i : SymbolId} {s : Symbol} {space : Namespace}
    (found : x.symbols.get? i = some s) (leads : s.kind.space? = some space) :
    (x.attached i s space).Coherent := by
  have ext := x.extends_attached i s space
  have symbols : x.symbols.Renews (x.attached i s space).SymbolOk (x.attached i s space).symbols :=
    Arena.renews_update fun v hv =>
      ⟨((h.symbols hv).extends ext).scope, ((h.symbols hv).extends ext).kind, fun _ _ => rfl⟩
  by_cases hname : s.name = ""
  · have hscopes : (x.attached i s space).scopes = x.scopes := if_pos hname
    refine h.grow ext (hscopes ▸ h.root) ?_ (.same _ _) (.same _ _) symbols (.same _ _) (.same _ _)
      h.schemaTables
    rw [hscopes]
    exact .same _ _
  · have hscopes : (x.attached i s space).scopes = x.scopes.update s.scope fun scope =>
        { scope with names := (scope.names.insert space s.name i).2 } := if_neg hname
    refine h.grow ext ?_ ?_ (.same _ _) (.same _ _) symbols (.same _ _) (.same _ _)
      h.schemaTables
    · rw [hscopes]
      exact root_update _ (fun _ h => h) h.root
    · rw [hscopes]
      refine Arena.renews_update fun scope hscope => ?_
      have ok := (h.scopes hscope).extends ext
      refine ⟨ok.parent, ok.rootBlock, ok.routine, ok.body, ?_, ?_, ok.unnamed⟩
      · intro entry hentry
        rcases NameTable.mem_entries_insert hentry with hold | rfl
        · exact ok.names entry hold
        · exact Names.extends ext ⟨s, found, rfl, leads⟩
      · intro entry hentry
        rcases NameTable.mem_entries_insert hentry with hold | rfl
        · exact ok.attached entry hold
        · exact ⟨{ s with attached := true }, by simp [attached, Arena.get?_update, found], rfl⟩

theorem coherent_withSymbol {s : Symbol} (hscope : s.scope.val < x.scopes.size)
    (hkind : ∀ i o, x.KindOk i o s.kind) (plain : ∀ f, s.kind ≠ .fieldBuffer f) :
    (x.withSymbol s).Coherent := by
  have ext := extends_withSymbol x s
  exact h.grow ext h.root (.same _ _) (.same _ _) (.same _ _)
    (Arena.renews_push ⟨hscope, (hkind _ _).extends ext, fun f hf => absurd hf (plain f)⟩)
    (.same _ _) (.same _ _) h.schemaTables

section Scope

variable {p : BlockId} {outer : Block} (kind : ScopeKind) (n : NodeId)
  (found : x.blocks.get? p = some outer)
include found

omit h in
/-- The block around the code of a new scope. -/
theorem blockOk_withScope (routine : Option SymbolId) :
    (x.withScope outer.scope p kind n routine).BlockOk x.blocks.next
      { parent := some p, scope := x.scopes.next, kind := .root, node := n } := by
  refine ⟨by simp [withScope, Arena.next], ?_, fun _ => ?_, by simp⟩
  · refine .around rfl (Arena.lt_size_of_get? found) (Arena.get?_push_of_get? found) rfl ?_
    simp [withScope, parentScope?]
  · exact ⟨_, Arena.get?_push_next _ _, rfl⟩

theorem coherent_withScope (free : kind.isBody = false) :
    (x.withScope outer.scope p kind n none).Coherent := by
  have ext := extends_withScope x outer.scope p kind n none
  have hlt := (h.blocks found).scope
  obtain ⟨root, hroot, hsome⟩ := h.root
  refine h.grow ext ⟨root, Arena.get?_push_of_get? hroot, hsome⟩
    (Arena.renews_push ⟨.inr ⟨outer.scope, rfl, hlt⟩, ?_, by simp, by simp [free], by simp, by simp,
      by simp⟩)
    (Arena.renews_push (blockOk_withScope kind n found none)) (.same _ _) (.same _ _) (.same _ _)
    (.same _ _) h.schemaTables
  exact ⟨_, Arena.get?_push_next _ _, rfl, rfl⟩

theorem coherent_withRoutine (isBody : kind.isBody = true) (name : String) {r : Routine}
    (body : r.body = x.scopes.next) :
    (x.withRoutine outer.scope p kind n name r).Coherent := by
  have ext := extends_withRoutine x outer.scope p kind n name r
  have hlt := (h.blocks found).scope
  obtain ⟨root, hroot, hsome⟩ := h.root
  refine h.grow ext ⟨root, Arena.get?_push_of_get? hroot, hsome⟩
    (Arena.renews_push ⟨.inr ⟨outer.scope, rfl, hlt⟩, ?_, ?_, by simp [isBody], by simp, by simp,
      by simp⟩)
    (Arena.renews_push ((blockOk_withScope kind n found _).extends (extends_withSymbol _ _)))
    (.same _ _) (Arena.renews_push ⟨ext.lt_scopes hlt, ?_, by simp⟩) (.same _ _) (.same _ _)
    h.schemaTables
  · exact ⟨_, Arena.get?_push_next _ _, rfl, rfl⟩
  · rintro _ ⟨⟩
    exact ⟨_, r, Arena.get?_push_next _ _, rfl, body⟩
  · show (x.withRoutine outer.scope p kind n name r).IsBody r.body _ _
    rw [body]
    exact ⟨_, Arena.get?_push_next _ _, rfl, rfl⟩

end Scope

theorem coherent_bound {i : BlockId} {block : Block} {buffer : SymbolId} {strength : Strength}
    (found : x.blocks.get? i = some block) (bindable : x.Bindable block buffer strength) :
    (x.bound i buffer strength).Coherent := by
  have ext : x.Extends (x.bound i buffer strength) :=
    { Extends.refl x with
      bufferScopes := Arena.keeps_push _ _ _
      blocks := Arena.keeps_update fun _ _ => rfl }
  have binding : x.BindingOk x.bufferScopes.next ⟨i, buffer, strength⟩ :=
    ⟨⟨block, found, bindable.sees⟩, bindable.isBuffer, bindable.offered⟩
  refine h.grow ext h.root (.same _ _) (Arena.renews_update ?_)
    (Arena.renews_push (binding.extends ext h)) (.same _ _) (.same _ _) (.same _ _)
    h.schemaTables
  intro old hold
  have ok := (h.blocks hold).extends ext
  refine ⟨ok.scope, ok.lies.congr rfl rfl rfl, ok.around, fun j hj => ?_⟩
  rcases List.mem_append.1 hj with hj | hj
  · exact ok.bufferScopes j hj
  · rw [List.mem_singleton.1 hj]
    exact ⟨_, Arena.get?_push_next _ _, rfl⟩

theorem coherent_withFields {t : TableId} {fields : List FieldId}
    (hf : ∀ f ∈ fields, f.val < x.fields.size) : (x.withFields t fields).Coherent := by
  have ext := extends_withFields x t fields
  refine h.grow ext h.root (.same _ _) (.same _ _) (.same _ _) (.same _ _)
    (Arena.renews_update fun table htable => ?_) (.same _ _) ?_
  · have ok := (h.tables htable).extends ext
    refine ⟨fun f hmem => ?_, ok.indexes⟩
    rcases List.mem_append.1 hmem with hmem | hmem
    · exact ok.fields f hmem
    · exact hf f hmem
  · intro p hp
    exact (h.schemaTables p hp).extends ext

/-- Fields may be added and get another table or type. -/
theorem coherent_fields {fields : Arena .field Field}
    (keeps : x.fields.Keeps Field.fixed fields) : Coherent { x with fields } := by
  have ext : x.Extends { x with fields } := { Extends.refl x with fields := keeps }
  exact h.grow ext h.root (.same _ _) (.same _ _) (.same _ _) (.same _ _) (.same _ _) (.same _ _)
    h.schemaTables

theorem coherent_withTable (kind : TableKind) (n : NodeId) (name : String) :
    (x.withTable kind n name).Coherent := by
  have ext : x.Extends { x with
      tables := x.tables.push { name, kind, definitionNode := some n } } :=
    { Extends.refl x with tables := Arena.keeps_push _ _ _ }
  have table : Coherent { x with
      tables := x.tables.push { name, kind, definitionNode := some n } } :=
    h.grow ext h.root (.same _ _) (.same _ _) (.same _ _) (.same _ _)
      (Arena.renews_push ⟨by simp, by simp⟩) (.same _ _)
      fun p hp => (h.schemaTables p hp).extends ext
  exact coherent_withSymbol table h.root_lt (fun _ _ => ⟨by simp [Arena.next], by simp⟩) (by simp)

theorem coherent_withField {buffer : SymbolId} {owner : Symbol} {b : TableBuffer} {name : String}
    (found : x.symbols.get? buffer = some owner) (kind : owner.kind = .tableBuffer b) :
    (x.withField buffer owner b name).Coherent :=
  coherent_reached (coherent_fields h (Arena.keeps_push _ _ _)) (by exact found) kind
    (by simp [Arena.next])

theorem coherent_joined (t : TableId) {f : FieldId} (found : f.val < x.fields.size) :
    (x.joined t f).Coherent := by
  have owned : x.fields.Keeps Field.fixed
      (x.fields.update f fun field => { field with table := some t }) :=
    Arena.keeps_update fun _ _ => rfl
  refine coherent_withFields (coherent_fields h owned) fun f' hf' => ?_
  rw [List.mem_singleton.1 hf']
  simpa using found

theorem coherent_frozen (t : TableId) : (x.frozen t).Coherent := by
  have ext := extends_frozen x t
  refine h.grow ext h.root (.same _ _) (.same _ _) (.same _ _) (.same _ _)
    (Arena.renews_update fun table htable => ?_) (.same _ _) ?_
  · have ok := (h.tables htable).extends ext
    exact ⟨ok.fields, ok.indexes⟩
  · intro p hp
    exact (h.schemaTables p hp).extends ext

/-- The fields of a table exist. -/
theorem Coherent.hasField_lt {t : TableId} {f : FieldId} (hf : x.HasField t f) :
    f.val < x.fields.size := by
  obtain ⟨table, htable, hmem⟩ := hf
  exact (h.tables htable).fields f hmem

theorem coherent_withIndex {index : TableIndex}
    (fields : ∀ f ∈ index.fields, f.val < x.fields.size) : (x.withIndex index).Coherent := by
  have ext : x.Extends (x.withIndex index) :=
    { Extends.refl x with
      indexes := Arena.keeps_push _ _ _
      tables := Arena.keeps_update fun _ _ => rfl }
  refine h.grow ext h.root (.same _ _) (.same _ _) (.same _ _) (.same _ _)
    (Arena.renews_update fun table htable => ?_) (Arena.renews_push fields) ?_
  · have ok := (h.tables htable).extends ext
    refine ⟨ok.fields, fun i hi => ?_⟩
    rcases List.mem_append.1 hi with hi | hi
    · exact ok.indexes i hi
    · rw [List.mem_singleton.1 hi]
      simp [withIndex, Arena.next]
  · intro p hp
    exact (h.schemaTables p hp).extends ext

theorem Change.coherent (c : x.Change opened typing tabling y) : y.Coherent := by
  have ext := c.extends
  cases c with
  | report | defaulted | typeField =>
    exact h.grow ext h.root (.same _ _) (.same _ _) (.same _ _) (.same _ _) (.same _ _) (.same _ _)
      h.schemaTables
  | load e => exact coherent_loadTable h e
  | create scope new kind =>
    exact coherent_withSymbol h scope (fun _ _ => kind.kindOk) fun _ => kind.reached
  | createDefault found => exact coherent_withDefaultBuffer h found
  | reach found kind new hasField =>
    exact coherent_reached h found kind (Arena.lt_size_of_get? hasField)
  | attach found leads => exact coherent_attached h found leads
  | revise found revision =>
    refine h.grow ext h.root (.same _ _) (.same _ _) (.same _ _) (Arena.renews_update ?_)
      (.same _ _) (.same _ _) h.schemaTables
    intro v hv
    rw [found] at hv
    cases hv
    have ok := (h.symbols found).extends ext
    exact ⟨revision.scope ▸ ok.scope, revision.scope ▸ revision.kindOk ok.kind,
      fun f hf => revision.attached.trans (ok.reached f (revision.fieldBuffer hf))⟩
  | typeVariable isOpen found kind type =>
    refine h.grow ext h.root (.same _ _) (.same _ _) (.same _ _) (Arena.renews_update ?_)
      (.same _ _) (.same _ _) h.schemaTables
    intro v hv
    rw [found] at hv
    cases hv
    exact ⟨((h.symbols found).extends ext).scope, trivial, by simp⟩
  | openScope n found scope free => exact scope ▸ coherent_withScope h _ n found free
  | openRoutine n name found scope isBody body =>
    exact scope ▸ coherent_withRoutine h _ n found isBody name body
  | setClass found same =>
    refine h.grow ext (root_update _ (fun _ h => h) h.root) (Arena.renews_update ?_) (.same _ _)
      (.same _ _) (.same _ _) (.same _ _) (.same _ _) h.schemaTables
    intro scope hscope
    rw [found] at hscope
    cases hscope
    have ok := (h.scopes found).extends ext
    exact ⟨ok.parent, ok.rootBlock, ok.routine, ok.body.trans same.symm, ok.names, ok.attached,
      ok.unnamed⟩
  | openBlock n found same control =>
    subst same
    refine h.grow ext h.root (.same _ _)
      (Arena.renews_push ⟨(h.blocks found).scope, ?_, fun hroot => absurd hroot control, by simp⟩)
      (.same _ _) (.same _ _) (.same _ _) (.same _ _) h.schemaTables
    exact .inside rfl (Arena.lt_size_of_get? found) (Arena.get?_push_of_get? found) control rfl
  | bind found bindable => exact coherent_bound h found bindable
  | copyFields =>
    refine coherent_withFields (coherent_fields h (Arena.keeps_pushAll _ _ _)) fun f hf => ?_
    show f.val < (x.fields.pushAll _).size
    rw [Arena.size_pushAll]
    exact (Arena.val_lt_of_mem_nextIds hf).2
  | createIndex unfrozen fields =>
    exact coherent_withIndex h fun f hf => h.hasField_lt (fields f hf)
  | addIndexField found unfrozen hasField =>
    refine h.grow ext h.root (.same _ _) (.same _ _) (.same _ _) (.same _ _) (.same _ _)
      (Arena.renews_update fun index hindex f hf => ?_) h.schemaTables
    rcases List.mem_append.1 hf with hf | hf
    · exact h.indexes hindex f hf
    · rw [List.mem_singleton.1 hf]
      exact h.hasField_lt hasField

end Coherent

/-! ### What changes leave alone -/

/-- How often a symbol is referred to; not at all if it does not exist. -/
def referencesIn (symbols : Arena .symbol Symbol) (s : SymbolId) : ReferenceCounts :=
  ((symbols.get? s).map (·.references)).getD {}

def references (x : UnitIndex) (s : SymbolId) : ReferenceCounts := referencesIn x.symbols s

theorem referencesIn_push {a : Arena .symbol Symbol} {s : Symbol} (new : s.references = {})
    (i : SymbolId) : referencesIn (a.push s) i = referencesIn a i := by
  unfold referencesIn
  by_cases hi : i = a.next
  · have hnone : a.get? i = none := by
      simpa using mt Arena.get?_isSome_iff.1 (hi ▸ Nat.lt_irrefl _)
    rw [Arena.get?_push, if_pos hi, hnone]
    exact new
  · rw [Arena.get?_push, if_neg hi]

theorem referencesIn_update {a : Arena .symbol Symbol} {i : SymbolId} {f : Symbol → Symbol}
    (same : ∀ s, a.get? i = some s → (f s).references = s.references) (j : SymbolId) :
    referencesIn (a.update i f) j = referencesIn a j := by
  unfold referencesIn
  by_cases hij : i = j
  · subst hij
    rw [Arena.get?_update, if_pos rfl]
    cases hs : a.get? i with
    | none => rfl
    | some s => exact same s hs
  · rw [Arena.get?_update, if_neg hij]

theorem references_withSymbol {s : Symbol} (new : s.references = {}) (i : SymbolId) :
    (x.withSymbol s).references i = x.references i :=
  referencesIn_push new i

theorem references_reached (buffer : SymbolId) (owner : Symbol) (b : TableBuffer) (f : FieldId)
    (name : String) (i : SymbolId) :
    (x.reached buffer owner b f name).references i = x.references i := by
  refine (referencesIn_update ?_ i).trans (referencesIn_push ?_ i)
  · intro _ _
    rfl
  · rfl

theorem Change.references (c : x.Change opened typing tabling y) (i : SymbolId) :
    y.references i = x.references i := by
  cases c with
  | create scope new kind => exact references_withSymbol new i
  | createDefault found => exact referencesIn_push rfl i
  | reach found kind => exact references_reached _ _ _ _ _ i
  | attach | typeVariable =>
    refine referencesIn_update ?_ i
    intro _ _
    rfl
  | openRoutine => exact references_withSymbol rfl i
  | revise found revision =>
    refine referencesIn_update (fun s hs => ?_) i
    rw [found] at hs
    cases hs
    exact revision.references
  | _ => rfl

theorem Change.unresolved (c : x.Change opened typing tabling y) : y.unresolved = x.unresolved := by
  cases c <;> rfl

/-- The diagnostics on fields that a table does not have. -/
def fieldDiagnostics (x : UnitIndex) : List Diagnostic :=
  x.diagnostics.withCode .unresolvedField

theorem Change.fieldDiagnostics (c : x.Change opened typing tabling y) :
    y.fieldDiagnostics = x.fieldDiagnostics := by
  cases c with
  | report d other =>
    simp [UnitIndex.fieldDiagnostics, Diagnostics.withCode, Diagnostics.add, other]
  | _ => rfl

theorem Change.frozen (c : x.Change opened typing tabling y) :
    x.tables.Keeps Table.frozen y.tables := by
  cases c with
  | load => exact Arena.keeps_push _ _ _
  | copyFields | createIndex => exact Arena.keeps_update fun _ _ => rfl
  | _ => exact .refl _ _

/-- A field stays in the list of its table. -/
theorem Change.hasField (c : x.Change opened typing tabling y) {t : TableId} {f : FieldId}
    (h : x.HasField t f) : y.HasField t f := by
  have retains : x.tables.Retains (f ∈ ·.fields) y.tables := by
    cases c with
    | load => exact Arena.retains_push _ _ _
    | copyFields => exact Arena.retains_update fun _ _ hf => List.mem_append_left _ hf
    | createIndex => exact Arena.retains_update fun _ _ hf => hf
    | _ => exact .refl _ _
  obtain ⟨table, ht, hf⟩ := h
  exact retains t table ht hf

theorem Change.unfrozen (c : x.Change opened typing tabling y) {t : TableId} (h : x.Unfrozen t) :
    y.Unfrozen t := by
  obtain ⟨table, ht, hfrozen⟩ := h
  obtain ⟨table', ht', hsame⟩ := c.frozen t table ht
  exact ⟨table', ht', hsame.trans hfrozen⟩

end UnitIndex

end AblResolve
