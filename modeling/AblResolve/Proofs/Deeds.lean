import AblResolve.Proofs.Change
import AblResolve.Proofs.Entries
import AblResolve.Walk.TableDefinition
/-!
The deeds of a walk. Of all that a walk does, a few things decide what names lead to and what the
lists of parameters, the waiting declarations and the tables of the catalog are: these are its
deeds. Everything else is calm: it counts references, gives types, binds buffers, works on tables
that the unit defines, and makes symbols that no name leads to. `Log` is the list of deeds between
two states, with the calm between them left out.
-/
namespace AblResolve

/-! ### Symbols without what changes about them -/

/-- The kind of a symbol without the types that clauses give, the columns that a browse shows and
the fields that a buffer has reached. -/
def SymbolKind.core : SymbolKind → SymbolKind
  | .variable v => .variable { v with type := {} }
  | .routine r => .routine { r with returnType := none, returnClass := none }
  | .tableBuffer b => .tableBuffer { b with fields := [] }
  | .browse b => .browse { b with columns := [] }
  | kind => kind

/-- A symbol without what references and clauses change about it. Of the nodes that define symbols,
only those of routines matter. -/
def Symbol.core (s : Symbol) : Symbol :=
  { s with
    references := {}
    definitionNode := s.asRoutine?.bind fun _ => s.definitionNode
    kind := s.kind.core }

/-- A symbol that references bring into being: a field as reached through a buffer, or the default
buffer of one of the catalog tables that are `listed`. -/
inductive Symbol.Hidden (listed : List (String × TableId)) (s : Symbol) : Prop
  | field {f : FieldBuffer} (attached : s.attached = true) (kind : s.kind = .fieldBuffer f)
  | default {b : TableBuffer} {key : String} (attached : s.attached = true)
      (kind : s.kind = .tableBuffer b) (isDefault : b.isDefault = true)
      (mem : (key, b.table) ∈ listed)

section Core

variable {s s' : Symbol}

theorem Symbol.name_of_core (h : s'.core = s.core) : s'.name = s.name :=
  (congrArg Symbol.name h :)

theorem Symbol.scope_of_core (h : s'.core = s.core) : s'.scope = s.scope :=
  (congrArg Symbol.scope h :)

theorem Symbol.attached_of_core (h : s'.core = s.core) : s'.attached = s.attached :=
  (congrArg Symbol.attached h :)

theorem Symbol.kind_of_core (h : s'.core = s.core) : s'.kind.core = s.kind.core :=
  (congrArg Symbol.kind h :)

theorem Symbol.defaultTable?_of_core (h : s'.core = s.core) :
    s'.defaultTable? = s.defaultTable? := by
  have kinds := Symbol.kind_of_core h
  unfold Symbol.defaultTable?
  cases hs : s.kind <;> cases hs' : s'.kind <;>
    simp only [hs, hs', SymbolKind.core, reduceCtorEq, SymbolKind.tableBuffer.injEq,
      TableBuffer.mk.injEq] at kinds <;> simp_all

theorem Symbol.Hidden.core {listed : List (String × TableId)} (h : s.Hidden listed)
    (same : s'.core = s.core) : s'.Hidden listed := by
  have attached := Symbol.attached_of_core same
  have kinds := Symbol.kind_of_core same
  cases h with
  | field isAttached kind =>
    rw [kind] at kinds
    cases hk : s'.kind <;> simp [hk, SymbolKind.core] at kinds
    exact .field (attached.trans isAttached) hk
  | default isAttached kind isDefault mem =>
    rw [kind] at kinds
    cases hk : s'.kind <;> simp [hk, SymbolKind.core] at kinds
    exact .default (attached.trans isAttached) hk (kinds.2.trans isDefault) (kinds.1 ▸ mem)

end Core

/-! ### Lists of parameters -/

/-- The parameters of a routine with their modes, or those in the signature of an event. -/
def Symbol.parameterList (s : Symbol) : List (SymbolId × Option ParameterMode) :=
  match s.kind with
  | .routine r => r.parameters.map fun p => (p.1, some p.2)
  | .event ps => ps.map fun p => (p, none)
  | _ => []

/-- A symbol with a further parameter in its signature, if it is an event. -/
def Symbol.signed (p : SymbolId) (s : Symbol) : Symbol :=
  match s.kind with
  | .event ps => { s with kind := .event (ps ++ [p]) }
  | _ => s

/-- A symbol with a further parameter, if it is a routine. -/
def Symbol.enlisted (p : SymbolId) (mode : ParameterMode) (s : Symbol) : Symbol :=
  match s.kind with
  | .routine r => { s with kind := .routine { r with parameters := r.parameters ++ [(p, mode)] } }
  | _ => s

/-- The namespace in which the name of a symbol is to be found once it is attached. No name leads to
the program, to fields of buffers and to the default buffers of catalog tables. -/
def UnitIndex.spaceOf? (x : UnitIndex) (s : Symbol) : Option Namespace :=
  match s.kind with
  | .routine r => if r.kind = .program then none else some .routine
  | .tableBuffer b =>
    if b.isDefault then
      (x.tables.get? b.table).bind fun t => if t.kind = .schema then none else some .table
    else some .buffer
  | kind => kind.space?

theorem UnitIndex.space?_of_spaceOf? {x : UnitIndex} {s : Symbol} {space : Namespace}
    (h : x.spaceOf? s = some space) : s.kind.space? = some space := by
  unfold spaceOf? at h
  cases hk : s.kind <;> simp_all [SymbolKind.space?]
  case tableBuffer b =>
    by_cases hb : b.isDefault = true
    · simp only [hb, if_true, Option.bind_eq_some_iff] at h ⊢
      obtain ⟨t, -, ht⟩ := h
      split at ht <;> simp_all
    · simp_all

/-- What a node is annotated with when something is defined or found there. -/
def Annotation.heading (a : Annotation) : Option SymbolId × Option ScopeId × Option BlockId :=
  (a.symbol, a.scope, a.block)

/-! ### Arenas -/

namespace Arena

variable {e : Entity} {α β : Type} {fixed : α → β} {New : α → Prop} {a b c : Arena e α}

/-- `b` has every element of `a` with the same fixed part, and what else it has is new. -/
structure Grows (fixed : α → β) (New : α → Prop) (a b : Arena e α) : Prop where
  keeps : a.Keeps fixed b
  new : ∀ i v, b.get? i = some v → i.val < a.size ∨ New v

theorem Grows.refl (fixed : α → β) (New : α → Prop) (a : Arena e α) : Grows fixed New a a :=
  ⟨.refl fixed a, fun _ _ h => .inl (lt_size_of_get? h)⟩

theorem Grows.trans (h : Grows fixed New a b) (k : Grows fixed New b c)
    (respects : ∀ u v, New u → fixed v = fixed u → New v) : Grows fixed New a c := by
  refine ⟨h.keeps.trans k.keeps, fun i v hv => ?_⟩
  rcases k.new i v hv with hi | new
  · obtain ⟨u, hu⟩ := exists_get? hi
    obtain ⟨v', hv', same⟩ := k.keeps i u hu
    rw [hv] at hv'
    cases hv'
    exact (h.new i u hu).imp_right fun new => respects u v new same
  · exact .inr new

theorem grows_push {x : α} (new : New x) : Grows fixed New a (a.push x) := by
  refine ⟨keeps_push fixed a x, fun i v hv => ?_⟩
  rcases get?_push_cases hv with ⟨-, rfl⟩ | hv
  · exact .inr new
  · exact .inl (lt_size_of_get? hv)

theorem grows_update {i : Id e} {f : α → α}
    (h : ∀ v, a.get? i = some v → fixed (f v) = fixed v) : Grows fixed New a (a.update i f) :=
  ⟨keeps_update h, fun j v hv => .inl (by simpa using lt_size_of_get? hv)⟩

end Arena

namespace Walk

open UnitIndex

/-! ### Calm -/

/-- What a calm step may touch: the nodes on which it may write what is defined or found there, and
whether it may work on tables. -/
structure Licence where
  nodes : NodeId → Prop := fun _ => False
  tables : Prop := False

/-- From `w` to `w'` nothing has happened that decides what names lead to, what the lists of
parameters are, which declarations wait for a body, or what the tables of the catalog are. -/
structure Calm (l : Licence) (w w' : Walk) : Prop where
  symbols : w.index.symbols.Grows Symbol.core (Symbol.Hidden w.index.schemaTables) w'.index.symbols
  scopes : w.index.scopes.Grows Scope.names (·.names = {}) w'.index.scopes
  kinds : w.index.tables.Keeps Table.kind w'.index.tables
  schemaTables : w'.index.schemaTables = w.index.schemaTables
  tables : ¬ l.tables → w'.index.tables = w.index.tables
  fields : ¬ l.tables → w'.index.fields = w.index.fields
  indexes : ¬ l.tables → w'.index.indexes = w.index.indexes
  forwards : w'.forwards = w.forwards
  event : w'.openEvent = w.openEvent
  written : ∀ m, ¬ l.nodes m → (w'.notes.get m).heading = (w.notes.get m).heading

section Calm

variable {l l' : Licence} {w w' w'' : Walk}

theorem Calm.refl (l : Licence) (w : Walk) : Calm l w w :=
  ⟨.refl _ _ _, .refl _ _ _, .refl _ _, rfl, fun _ => rfl, fun _ => rfl, fun _ => rfl, rfl, rfl,
    fun _ _ => rfl⟩

theorem Calm.trans (h : Calm l w w') (k : Calm l w' w'') : Calm l w w'' where
  symbols := h.symbols.trans (h.schemaTables ▸ k.symbols) fun _ _ hidden same => hidden.core same
  scopes := h.scopes.trans k.scopes fun _ _ new same => same.trans new
  kinds := h.kinds.trans k.kinds
  schemaTables := k.schemaTables.trans h.schemaTables
  tables free := (k.tables free).trans (h.tables free)
  fields free := (k.fields free).trans (h.fields free)
  indexes free := (k.indexes free).trans (h.indexes free)
  forwards := k.forwards.trans h.forwards
  event := k.event.trans h.event
  written m free := (k.written m free).trans (h.written m free)

/-- More may be allowed. -/
theorem Calm.mono (h : Calm l w w') (nodes : ∀ m, l.nodes m → l'.nodes m)
    (tables : l.tables → l'.tables) : Calm l' w w' :=
  { h with
    tables := fun free => h.tables (mt tables free)
    fields := fun free => h.fields (mt tables free)
    indexes := fun free => h.indexes (mt tables free)
    written := fun m free => h.written m (mt (nodes m) free) }

/-- Nothing is written and the index stays as it is. -/
theorem Calm.same (index : w'.index = w.index) (forwards : w'.forwards = w.forwards)
    (event : w'.openEvent = w.openEvent) (notes : w'.notes = w.notes) : Calm l w w' where
  symbols := index ▸ .refl _ _ _
  scopes := index ▸ .refl _ _ _
  kinds := index ▸ .refl _ _
  schemaTables := congrArg _ index
  tables _ := congrArg _ index
  fields _ := congrArg _ index
  indexes _ := congrArg _ index
  forwards := forwards
  event := event
  written _ _ := by rw [notes]

theorem Calm.updateSymbol {i : SymbolId} {f : Symbol → Symbol}
    (h : ∀ s, w.index.symbols.get? i = some s → (f s).core = s.core) :
    Calm l w { w with index := { w.index with symbols := w.index.symbols.update i f } } :=
  { Calm.refl l w with symbols := Arena.grows_update h }

theorem Calm.updateScope {i : ScopeId} {f : Scope → Scope} (h : ∀ s, (f s).names = s.names) :
    Calm l w { w with index := { w.index with scopes := w.index.scopes.update i f } } :=
  { Calm.refl l w with scopes := Arena.grows_update fun _ _ => h _ }

theorem Calm.annotate {n : NodeId} {f : Annotation → Annotation} (licensed : l.nodes n) :
    Calm l w { w with notes := w.notes.update n f } := by
  refine { Calm.refl l w with written := fun m free => ?_ }
  have hne : n ≠ m := by
    rintro rfl
    exact free licensed
  rw [Annotations.get_update_of_ne hne]

/-- What is written apart from symbols, scopes and blocks does not matter. -/
theorem Calm.remark {n : NodeId} {f : Annotation → Annotation}
    (h : ∀ a, (f a).heading = a.heading) :
    Calm l w { w with notes := w.notes.update n f } := by
  refine { Calm.refl l w with written := fun m _ => ?_ }
  rw [Annotations.get_update]
  split
  · exact h _
  · rfl

end Calm

/-! ### Deeds -/

inductive Deed where
  /-- There is a new symbol, still pending. Names are to lead to it in this namespace. -/
  | make (s : SymbolId) (space : Namespace)
  /-- A symbol is attached, and its name leads to it. -/
  | attach (s : SymbolId)
  /-- A parameter joins the signature of an event. -/
  | sign (event s : SymbolId)
  /-- A parameter joins the list of a routine. -/
  | enlist (routine s : SymbolId) (mode : ParameterMode)
  /-- The signature of another event is read from now on, or of none. -/
  | turn (event : Option SymbolId)
  /-- A FORWARD declaration begins to wait for a body. -/
  | announce (key : String) (routine : SymbolId)
  /-- No declaration waits under a name any longer. -/
  | take (key : String)
  /-- The node of its body becomes the node of a routine. -/
  | relocate (routine : SymbolId) (n : NodeId)
  /-- A table of the catalog is loaded. -/
  | load (e : Catalog.Entry)

/-- What a deed does to the state, with what is known when it is done. What is made is something
that a name could lead to, and it has no parameters yet. -/
inductive Effect (env : Env) (w : Walk) : Deed → Walk → Prop
  | make {s : Symbol} {space : Namespace} (pending : s.attached = false)
      (named : w.index.spaceOf? s = some space) (root : space = .table → s.scope = rootScope)
      (bare : s.parameterList = []) :
      Effect env w (.make w.index.symbols.next space) { w with index := w.index.withSymbol s }
  | attach {i : SymbolId} {s : Symbol} {space : Namespace}
      (found : w.index.symbols.get? i = some s)
      (leads : s.name ≠ "" → s.kind.space? = some space ∧
        ∃ scope, w.index.scopes.get? s.scope = some scope) :
      Effect env w (.attach i) { w with index := w.index.attached i s space }
  | sign (event s : SymbolId) :
      Effect env w (.sign event s) { w with index := { w.index with
        symbols := w.index.symbols.update event (·.signed s) } }
  | enlist (routine s : SymbolId) (mode : ParameterMode) :
      Effect env w (.enlist routine s mode) { w with index := { w.index with
        symbols := w.index.symbols.update routine (·.enlisted s mode) } }
  | turn (event : Option SymbolId) : Effect env w (.turn event) { w with openEvent := event }
  | announce (key : String) (routine : SymbolId) :
      Effect env w (.announce key routine)
        { w with forwards := (key, routine) :: w.forwards.filter (·.1 ≠ key) }
  | take (key : String) :
      Effect env w (.take key) { w with forwards := w.forwards.filter (·.1 ≠ key) }
  | relocate (routine : SymbolId) (n : NodeId) :
      Effect env w (.relocate routine n) { w with index := { w.index with
        symbols := w.index.symbols.update routine fun s => { s with definitionNode := some n } } }
  | load {e : Catalog.Entry} (name : String) (found : env.catalog.table? name = some e)
      (new : w.index.schemaTable? e = none) :
      Effect env w (.load e) { w with index := w.index.loadTable e }

/-- The deeds between two states. -/
inductive Log (env : Env) (l : Licence) : Walk → List Deed → Walk → Prop
  | calm {w w' : Walk} (calm : Calm l w w') : Log env l w [] w'
  | deed {w w₁ w₂ w' : Walk} {d : Deed} {ds : List Deed} (before : Calm l w w₁)
      (effect : Effect env w₁ d w₂) (rest : Log env l w₂ ds w') : Log env l w (d :: ds) w'

section Log

variable {env : Env} {l : Licence} {w w' w'' : Walk} {ds es : List Deed} {d : Deed}

theorem Log.nil_iff : Log env l w [] w' ↔ Calm l w w' :=
  ⟨fun h => by cases h; assumption, .calm⟩

theorem Effect.log (h : Effect env w d w') : Log env l w [d] w' :=
  .deed (.refl l w) h (.calm (.refl l w'))

theorem Log.after_calm (calm : Calm l w w') (h : Log env l w' ds w'') : Log env l w ds w'' := by
  cases h with
  | calm rest => exact .calm (calm.trans rest)
  | deed before effect rest => exact .deed (calm.trans before) effect rest

theorem Log.append (h : Log env l w ds w') (k : Log env l w' es w'') :
    Log env l w (ds ++ es) w'' := by
  induction h with
  | calm calm => exact k.after_calm calm
  | deed before effect _ ih => exact .deed before effect (ih k)

/-- What calm and every deed preserve holds in the end. -/
theorem Log.keep {P : Walk → Prop} (h : Log env l w ds w') (start : P w)
    (calm : ∀ v v', Calm l v v' → P v → P v')
    (effect : ∀ d ∈ ds, ∀ v v', Effect env v d v' → P v → P v') : P w' := by
  induction h with
  | calm rest => exact calm _ _ rest start
  | deed before done _ ih =>
    exact ih (effect _ List.mem_cons_self _ _ done (calm _ _ before start))
      fun d hd => effect d (List.mem_cons_of_mem _ hd)

theorem Effect.notes (h : Effect env w d w') : w'.notes = w.notes := by
  cases h <;> rfl

/-- Only nodes on which it may write are written on. -/
theorem Log.written (h : Log env l w ds w') {m : NodeId} (free : ¬ l.nodes m) :
    (w'.notes.get m).heading = (w.notes.get m).heading :=
  h.keep (P := fun v => (v.notes.get m).heading = (w.notes.get m).heading) rfl
    (fun _ _ calm same => (calm.written m free).trans same)
    fun _ _ _ _ effect same => (congrArg (fun ns => (ns.get m).heading) effect.notes).trans same

theorem Log.mono {l' : Licence} (h : Log env l w ds w') (nodes : ∀ m, l.nodes m → l'.nodes m)
    (tables : l.tables → l'.tables) : Log env l' w ds w' := by
  induction h with
  | calm calm => exact .calm (calm.mono nodes tables)
  | deed before effect _ ih => exact .deed (before.mono nodes tables) effect ih

end Log

end Walk

end AblResolve
