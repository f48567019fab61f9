import AblResolve.Proofs.Chains
/-!
The numbers in an index lead somewhere. Each sort of element has a condition of its own, in terms
that later changes respect. So a change has to answer only for the elements it adds or replaces.
-/
namespace AblResolve

namespace Arena

variable {e : Entity} {α : Type} {P : Id e → α → Prop} {a b : Arena e α}

/-- Every element of `b` is one of `a` or meets the condition. -/
def Renews (P : Id e → α → Prop) (a b : Arena e α) : Prop :=
  ∀ (i : Id e) (v : α), b.get? i = some v → a.get? i = some v ∨ P i v

theorem Renews.same (P : Id e → α → Prop) (a : Arena e α) : Renews P a a :=
  fun _ _ h => .inl h

theorem renews_push {x : α} (h : P a.next x) : Renews P a (a.push x) := by
  intro i v hv
  rcases get?_push_cases hv with ⟨rfl, rfl⟩ | hv
  · exact .inr h
  · exact .inl hv

theorem renews_pushAll {xs : List α} (h : ∀ v ∈ xs, ∀ i, P i v) :
    Renews P a (a.pushAll xs) := by
  intro i v hv
  rcases get?_pushAll_cases hv with hv | ⟨hmem, -⟩
  · exact .inl hv
  · exact .inr (h v hmem i)

theorem renews_update {i : Id e} {f : α → α} (h : ∀ v, a.get? i = some v → P i (f v)) :
    Renews P a (a.update i f) := by
  intro j v hv
  rcases get?_update_cases hv with ⟨rfl, old, hold, rfl⟩ | ⟨-, hv⟩
  · exact .inr (h old hold)
  · exact .inl hv

theorem Renews.trans {c : Arena e α} (h : Renews P a b) (k : Renews P b c) : Renews P a c := by
  intro i v hv
  rcases k i v hv with hv | hP
  · exact h i v hv
  · exact .inr hP

end Arena

/-- The namespace in which a name leads to a symbol of this kind. No name leads to the fields of
a buffer. -/
def SymbolKind.space? : SymbolKind → Option Namespace
  | .variable _ => some .variable
  | .routine _ => some .routine
  | .tableBuffer b => some (if b.isDefault then .table else .buffer)
  | .fieldBuffer _ => none
  | .event _ => some .event
  | .browse _ => some (.widget .browse)
  | .widget kind => some (.widget kind)

theorem SymbolKind.space?_fixed (k : SymbolKind) : k.fixed.space? = k.space? := by
  cases k <;> rfl

/-- The table of a default buffer. -/
def Symbol.defaultTable? (s : Symbol) : Option TableId :=
  match s.kind with
  | .tableBuffer b => if b.isDefault then some b.table else none
  | _ => none

namespace UnitIndex

variable {x y : UnitIndex}

/-! ### The condition of each sort of element -/

/-- The symbol is one that names of this namespace can lead to, defined in this scope. -/
def Names (x : UnitIndex) (s : ScopeId) (space : Namespace) (i : SymbolId) : Prop :=
  ∃ symbol, x.symbols.get? i = some symbol ∧ symbol.scope = s ∧ symbol.kind.space? = some space

/-- The symbol is a routine with this body. -/
def IsRoutine (x : UnitIndex) (i : SymbolId) (body : ScopeId) : Prop :=
  ∃ symbol r, x.symbols.get? i = some symbol ∧ symbol.kind = .routine r ∧ r.body = body

/-- The scope is the body of a routine that is defined in scope `s`: in the scope around its body,
or in the root if there is none. -/
def IsBody (x : UnitIndex) (body : ScopeId) (i : SymbolId) (s : ScopeId) : Prop :=
  ∃ scope, x.scopes.get? body = some scope ∧ scope.routine = some i ∧
    scope.parent.getD rootScope = s

/-- The symbol is the buffer of a table. -/
def IsBuffer (x : UnitIndex) (i : SymbolId) : Prop := ∃ t, x.bufferTable? i = some t

/-- The table is one that a node defines. -/
def HasNode (x : UnitIndex) (t : TableId) : Prop :=
  ∃ table, x.tables.get? t = some table ∧ table.definitionNode.isSome

/-- The table comes from the catalog. -/
def IsSchema (x : UnitIndex) (t : TableId) : Prop :=
  (x.tables.get? t).bind (some ·.kind) = some .schema

theorem isSchema_iff {t : TableId} :
    x.IsSchema t ↔ ∃ table, x.tables.get? t = some table ∧ table.kind = .schema := by
  simp [IsSchema, Option.bind_eq_some_iff]

/-- The symbol has been attached, so that names and references may lead to it. -/
def IsAttached (x : UnitIndex) (i : SymbolId) : Prop :=
  ∃ symbol, x.symbols.get? i = some symbol ∧ symbol.attached = true

theorem IsAttached.lt_size {i : SymbolId} (h : x.IsAttached i) : i.val < x.symbols.size := by
  obtain ⟨symbol, hs, -⟩ := h
  exact Arena.lt_size_of_get? hs

/-- The symbol is an event. -/
def IsEvent (x : UnitIndex) (i : SymbolId) : Prop :=
  ∃ symbol ps, x.symbols.get? i = some symbol ∧ symbol.kind = .event ps

/-- The symbol is a parameter in the signature of an event. -/
def IsEventParameter (x : UnitIndex) (i : SymbolId) : Prop :=
  ∃ e symbol, x.symbols.get? e = some symbol ∧ i ∈ symbol.signature

/-- The block is the one around the code of the scope. -/
def IsAround (x : UnitIndex) (b : BlockId) (s : ScopeId) : Prop :=
  ∃ scope, x.scopes.get? s = some scope ∧ scope.rootBlock = b

/-- The block is a control block. -/
def IsControl (x : UnitIndex) (b : BlockId) : Prop :=
  ∃ block, x.blocks.get? b = some block ∧ block.kind ≠ .root

structure ScopeOk (x : UnitIndex) (s : ScopeId) (scope : Scope) : Prop where
  parent : scope.parent = none ∧ s = rootScope ∨ ∃ p, scope.parent = some p ∧ p.val < s.val
  rootBlock : ∃ block, x.blocks.get? scope.rootBlock = some block ∧ block.scope = s ∧
    block.kind = .root
  routine : ∀ r, scope.routine = some r → x.IsRoutine r s
  body : scope.routine.isSome = scope.kind.isBody
  names : ∀ entry ∈ scope.names.entries, x.Names s entry.space entry.symbol
  attached : ∀ entry ∈ scope.names.entries, x.IsAttached entry.symbol
  unnamed : ∀ p ∈ scope.unnamedBuffers,
    x.bufferTable? p.2 = some p.1 ∧ x.owner? p.2 = some s ∧ x.IsAttached p.2

structure BlockOk (x : UnitIndex) (i : BlockId) (block : Block) : Prop where
  scope : block.scope.val < x.scopes.size
  lies : x.Lies i block
  around : block.kind = .root → x.IsAround i block.scope
  bufferScopes : ∀ j ∈ block.bufferScopes,
    ∃ binding, x.bufferScopes.get? j = some binding ∧ binding.block = i

/-- A buffer can only be bound to code from which it is in sight. It is one that names lead to, or
the parameter of an event. -/
structure BindingOk (x : UnitIndex) (_ : BufferScopeId) (b : BufferScope) : Prop where
  sees : ∃ block, x.blocks.get? b.block = some block ∧ x.Sees block.scope b.buffer
  isBuffer : x.IsBuffer b.buffer
  offered : x.IsAttached b.buffer ∨ x.IsEventParameter b.buffer

/-- What a symbol of a kind refers to; `i` is the symbol and `s` the scope it is defined in. -/
def KindOk (x : UnitIndex) (i : SymbolId) (s : ScopeId) : SymbolKind → Prop
  | .tableBuffer b => b.table.val < x.tables.size ∧
      ∀ p ∈ b.fields, x.asFieldBuffer? p.2 = some ⟨i, p.1⟩ ∧ x.owner? p.2 = some s
  | .fieldBuffer f => x.IsBuffer f.buffer ∧ x.owner? f.buffer = some s ∧
      f.field.val < x.fields.size
  | .routine r => x.IsBody r.body i s
  | _ => True

structure SymbolOk (x : UnitIndex) (i : SymbolId) (s : Symbol) : Prop where
  scope : s.scope.val < x.scopes.size
  kind : x.KindOk i s.scope s.kind
  reached : ∀ f, s.kind = .fieldBuffer f → s.attached = true

structure TableOk (x : UnitIndex) (_ : TableId) (t : Table) : Prop where
  fields : ∀ f ∈ t.fields, f.val < x.fields.size
  indexes : ∀ i ∈ t.indexes, i.val < x.indexes.size

def IndexOk (x : UnitIndex) (_ : IndexId) (i : TableIndex) : Prop :=
  ∀ f ∈ i.fields, f.val < x.fields.size

structure Coherent (x : UnitIndex) : Prop where
  root : ∃ scope, x.scopes.get? rootScope = some scope ∧ scope.routine.isSome
  scopes : ∀ {i v}, x.scopes.get? i = some v → x.ScopeOk i v
  blocks : ∀ {i v}, x.blocks.get? i = some v → x.BlockOk i v
  bufferScopes : ∀ {i v}, x.bufferScopes.get? i = some v → x.BindingOk i v
  symbols : ∀ {i v}, x.symbols.get? i = some v → x.SymbolOk i v
  tables : ∀ {i v}, x.tables.get? i = some v → x.TableOk i v
  indexes : ∀ {i v}, x.indexes.get? i = some v → x.IndexOk i v
  schemaTables : ∀ p ∈ x.schemaTables, x.IsSchema p.2

theorem Coherent.scopeTree (h : x.Coherent) : x.ScopeTree := fun _ _ hs => (h.scopes hs).parent

theorem Coherent.blockTree (h : x.Coherent) : x.BlockTree :=
  fun _ _ hb => ⟨(h.blocks hb).scope, (h.blocks hb).lies⟩

theorem Coherent.root_lt (h : x.Coherent) : rootScope.val < x.scopes.size := by
  obtain ⟨scope, hscope, -⟩ := h.root
  exact Arena.lt_size_of_get? hscope

/-- The block around the code of a scope is found around every block of that scope. -/
theorem Coherent.around_mem (h : x.Coherent) {b : BlockId} :
    ∀ i block, x.blocks.get? i = some block → x.IsAround b block.scope → b ∈ x.blockChain i := by
  have same : ∀ {i block}, x.blocks.get? i = some block → block.kind = .root →
      x.IsAround b block.scope → b = i := by
    rintro i block hblock hkind ⟨scope, hscope, rfl⟩
    obtain ⟨scope', hscope', rfl⟩ := (h.blocks hblock).around hkind
    rw [hscope] at hscope'
    cases hscope'
    rfl
  refine h.blockTree.induct (P := fun i block => x.IsAround b block.scope → b ∈ x.blockChain i)
    ?_ ?_
  · intro i block hblock _ hkind _ hchain hb
    rw [hchain, same hblock hkind hb]
    exact List.mem_singleton_self i
  · intro i block p outer hblock _ _ hchain _ hinner ih hb
    rw [hchain]
    by_cases hkind : block.kind = .root
    · rw [same hblock hkind hb]
      exact List.mem_cons_self
    · exact List.mem_cons_of_mem _ (ih (hinner hkind ▸ hb))

/-! ### Later indexes -/

section Extends

variable (ext : x.Extends y)
include ext

theorem Names.extends {s : ScopeId} {space : Namespace} {i : SymbolId} (h : x.Names s space i) :
    y.Names s space i := by
  obtain ⟨symbol, hs, hscope, hspace⟩ := h
  obtain ⟨symbol', hs', hfix⟩ := ext.symbols i symbol hs
  have hscope' : symbol'.scope = symbol.scope := congrArg (fun p => p.2.1) hfix
  have hkind : symbol'.kind.fixed = symbol.kind.fixed := congrArg (fun p => p.2.2.1) hfix
  refine ⟨symbol', hs', hscope'.trans hscope, ?_⟩
  rw [← SymbolKind.space?_fixed, hkind, SymbolKind.space?_fixed, hspace]

theorem IsRoutine.extends {i : SymbolId} {body : ScopeId} (h : x.IsRoutine i body) :
    y.IsRoutine i body := by
  obtain ⟨symbol, r, hs, hkind, hbody⟩ := h
  obtain ⟨symbol', hs', hfix⟩ := ext.kind_fixed hs
  rw [hkind] at hfix
  cases hkind' : symbol'.kind with
  | routine r' =>
    rw [hkind'] at hfix
    simp only [SymbolKind.fixed, SymbolKind.routine.injEq, Routine.mk.injEq] at hfix
    exact ⟨symbol', r', hs', hkind', hfix.2.1.trans hbody⟩
  | _ => rw [hkind'] at hfix; cases hfix

theorem IsBuffer.extends {i : SymbolId} (h : x.IsBuffer i) : y.IsBuffer i := by
  obtain ⟨t, ht⟩ := h
  exact ⟨t, ext.bufferTable? ht⟩

theorem HasNode.extends {t : TableId} (h : x.HasNode t) : y.HasNode t := by
  obtain ⟨table, ht, hnode⟩ := h
  obtain ⟨table', ht', hfix⟩ := ext.tables t table ht
  have hsame : table'.fixed.definitionNode = table.fixed.definitionNode :=
    congrArg Table.definitionNode hfix
  exact ⟨table', ht', (congrArg Option.isSome hsame).trans hnode⟩

theorem IsSchema.extends {t : TableId} (h : x.IsSchema t) : y.IsSchema t := by
  obtain ⟨table, ht, hkind⟩ := isSchema_iff.1 h
  obtain ⟨table', ht', hfix⟩ := ext.tables t table ht
  have hsame : table'.fixed.kind = table.fixed.kind := congrArg Table.kind hfix
  exact isSchema_iff.2 ⟨table', ht', hsame.trans hkind⟩

theorem IsAttached.extends {i : SymbolId} (h : x.IsAttached i) : y.IsAttached i := by
  obtain ⟨symbol, hs, hattached⟩ := h
  exact ext.attached i symbol hs hattached

theorem IsEvent.extends {i : SymbolId} (h : x.IsEvent i) : y.IsEvent i := by
  obtain ⟨symbol, ps, hs, hkind⟩ := h
  obtain ⟨symbol', hs', hfix⟩ := ext.kind_fixed hs
  rw [hkind] at hfix
  cases hkind' : symbol'.kind with
  | event ps' => exact ⟨symbol', ps', hs', hkind'⟩
  | _ => rw [hkind'] at hfix; cases hfix

theorem IsEventParameter.extends {i : SymbolId} (h : x.IsEventParameter i) :
    y.IsEventParameter i := by
  obtain ⟨e, symbol, he, hmem⟩ := h
  exact ⟨e, ext.signatures i e symbol he hmem⟩

theorem IsAround.extends {b : BlockId} {s : ScopeId} (h : x.IsAround b s) : y.IsAround b s := by
  obtain ⟨scope, hs, rfl⟩ := h
  obtain ⟨scope', hs', hfix⟩ := ext.scopes s scope hs
  exact ⟨scope', hs', congrArg (fun p => p.2.2.1) hfix⟩

theorem IsBody.extends {body : ScopeId} {i : SymbolId} {s : ScopeId} (h : x.IsBody body i s) :
    y.IsBody body i s := by
  obtain ⟨scope, hscope, hroutine, hparent⟩ := h
  obtain ⟨scope', hscope', hfix⟩ := ext.scopes body scope hscope
  have parent : scope'.parent = scope.parent := congrArg Prod.fst hfix
  have routine : scope'.routine = scope.routine := congrArg (fun p => p.2.2.2.1) hfix
  exact ⟨scope', hscope', routine.trans hroutine, parent ▸ hparent⟩

theorem Extends.block {i : BlockId} {block : Block} (h : x.blocks.get? i = some block) :
    ∃ block', y.blocks.get? i = some block' ∧ block'.scope = block.scope ∧
      block'.kind = block.kind := by
  obtain ⟨block', h', hfix⟩ := ext.blocks i block h
  have hscope : block'.fixed.scope = block.fixed.scope := congrArg Block.scope hfix
  have hkind : block'.fixed.kind = block.fixed.kind := congrArg Block.kind hfix
  exact ⟨block', h', hscope, hkind⟩

theorem IsControl.extends {b : BlockId} (h : x.IsControl b) : y.IsControl b := by
  obtain ⟨block, hb, hkind⟩ := h
  obtain ⟨block', hb', -, hkind'⟩ := ext.block hb
  exact ⟨block', hb', hkind' ▸ hkind⟩

theorem ScopeOk.extends {s : ScopeId} {scope : Scope} (h : x.ScopeOk s scope) :
    y.ScopeOk s scope := by
  refine ⟨h.parent, ?_, fun r hr => (h.routine r hr).extends ext, h.body,
    fun e he => (h.names e he).extends ext, fun e he => (h.attached e he).extends ext, ?_⟩
  · obtain ⟨block, hb, hscope, hkind⟩ := h.rootBlock
    obtain ⟨block', hb', hscope', hkind'⟩ := ext.block hb
    exact ⟨block', hb', hscope'.trans hscope, hkind'.trans hkind⟩
  · intro p hp
    obtain ⟨htable, howner, hattached⟩ := h.unnamed p hp
    exact ⟨ext.bufferTable? htable, ext.owner?_eq_some howner, hattached.extends ext⟩

theorem Lies.extends {i : BlockId} {block : Block} (hs : block.scope.val < x.scopes.size)
    (h : x.Lies i block) : y.Lies i block := by
  cases h with
  | outermost first hp hkind hscope => exact .outermost first hp hkind hscope
  | around hp older found hkind hscope =>
    obtain ⟨outer', hfound, hscope', -⟩ := ext.block found
    exact .around hp older hfound hkind (by rw [ext.parentScope? hs, hscope, hscope'])
  | inside hp older found hkind hscope =>
    obtain ⟨outer', hfound, hscope', -⟩ := ext.block found
    exact .inside hp older hfound hkind (hscope'.trans hscope)

theorem Extends.bufferScope {j : BufferScopeId} {b : BufferScope}
    (h : x.bufferScopes.get? j = some b) : y.bufferScopes.get? j = some b := by
  obtain ⟨b', h', hfix⟩ := ext.bufferScopes j b h
  cases hfix
  exact h'

theorem BlockOk.extends {i : BlockId} {block : Block} (h : x.BlockOk i block) :
    y.BlockOk i block := by
  refine ⟨ext.lt_scopes h.scope, h.lies.extends ext h.scope,
    fun hkind => (h.around hkind).extends ext, ?_⟩
  intro j hj
  obtain ⟨binding, hb, hblock⟩ := h.bufferScopes j hj
  exact ⟨binding, ext.bufferScope hb, hblock⟩

theorem BindingOk.extends {j : BufferScopeId} {b : BufferScope} (c : x.Coherent)
    (h : x.BindingOk j b) : y.BindingOk j b := by
  obtain ⟨block, hb, hsees⟩ := h.sees
  obtain ⟨block', hb', hscope, -⟩ := ext.block hb
  refine ⟨⟨block', hb', ?_⟩, h.isBuffer.extends ext,
    h.offered.imp (·.extends ext) (·.extends ext)⟩
  rw [hscope]
  exact hsees.extends ext c.scopeTree (c.blocks hb).scope

theorem KindOk.extends {i : SymbolId} {s : ScopeId} {k : SymbolKind} (h : x.KindOk i s k) :
    y.KindOk i s k := by
  cases k with
  | tableBuffer b =>
    refine ⟨ext.tables.lt_size h.1, fun p hp => ?_⟩
    obtain ⟨hfield, howner⟩ := h.2 p hp
    exact ⟨ext.asFieldBuffer? hfield, ext.owner?_eq_some howner⟩
  | fieldBuffer f =>
    obtain ⟨hbuffer, howner, hf⟩ := h
    exact ⟨hbuffer.extends ext, ext.owner?_eq_some howner, ext.fields.lt_size hf⟩
  | routine r => exact IsBody.extends ext h
  | _ => trivial

theorem SymbolOk.extends {i : SymbolId} {s : Symbol} (h : x.SymbolOk i s) : y.SymbolOk i s :=
  ⟨ext.lt_scopes h.scope, h.kind.extends ext, h.reached⟩

theorem TableOk.extends {i : TableId} {t : Table} (h : x.TableOk i t) : y.TableOk i t :=
  ⟨fun f hf => ext.fields.lt_size (h.fields f hf),
    fun j hj => ext.indexes.lt_size (h.indexes j hj)⟩

theorem IndexOk.extends {i : IndexId} {index : TableIndex} (h : x.IndexOk i index) :
    y.IndexOk i index :=
  fun f hf => ext.fields.lt_size (h f hf)

/-- A later index is coherent if the elements that are new in it meet their conditions. -/
theorem Coherent.grow (h : x.Coherent)
    (root : ∃ scope, y.scopes.get? rootScope = some scope ∧ scope.routine.isSome)
    (scopes : x.scopes.Renews y.ScopeOk y.scopes) (blocks : x.blocks.Renews y.BlockOk y.blocks)
    (bufferScopes : x.bufferScopes.Renews y.BindingOk y.bufferScopes)
    (symbols : x.symbols.Renews y.SymbolOk y.symbols)
    (tables : x.tables.Renews y.TableOk y.tables)
    (indexes : x.indexes.Renews y.IndexOk y.indexes)
    (schemaTables : ∀ p ∈ y.schemaTables, y.IsSchema p.2) : y.Coherent where
  root := root
  scopes hv := (scopes _ _ hv).elim (fun hv => (h.scopes hv).extends ext) id
  blocks hv := (blocks _ _ hv).elim (fun hv => (h.blocks hv).extends ext) id
  bufferScopes hv := (bufferScopes _ _ hv).elim (fun hv => (h.bufferScopes hv).extends ext h) id
  symbols hv := (symbols _ _ hv).elim (fun hv => (h.symbols hv).extends ext) id
  tables hv := (tables _ _ hv).elim (fun hv => (h.tables hv).extends ext) id
  indexes hv := (indexes _ _ hv).elim (fun hv => (h.indexes hv).extends ext) id
  schemaTables := schemaTables

end Extends

end UnitIndex

end AblResolve
