import AblResolve.Proofs.Growth
import AblResolve.Proofs.Spelling
import AblResolve.Walk.Lookup
/-!
What it means that two analyses are alike. They may spell names in different ways, or differ in how
often symbols are referred to; everything else is the same, number for number. Questions are
answered alike by indexes that are alike.
-/
namespace AblResolve

/-- How closely two analyses are compared. Characters are compared by what `char` makes of them,
which takes only the two cases of a letter for the same; with `counts`, references are counted, too.
What is compared comes from the nodes that the two trees share. The lists of nodes that are used by
default are related by `defaults`. -/
structure Likeness where
  char : Char → Char
  toLower_char : ∀ c, (char c).toLower = c.toLower
  counts : Bool
  nodes : NodeId → Prop
  defaults : List NodeId → List NodeId → Prop := Eq

namespace Likeness

/-- Alike up to the case of ASCII letters. -/
def anyCase : Likeness where
  char := Char.toLower
  toLower_char := Text.toLower_toLower
  counts := true
  nodes _ := True

/-- Alike up to the number of references. -/
def anyUse (nodes : NodeId → Prop) : Likeness where
  char := id
  toLower_char _ := rfl
  counts := false
  nodes := nodes

/-- The same but for the nodes that are listed as used by default. -/
def anyDefaults (defaults : List NodeId → List NodeId → Prop) : Likeness where
  char := id
  toLower_char _ := rfl
  counts := true
  nodes _ := True
  defaults := defaults

variable (L : Likeness)

/-! ### Texts -/

def text (s : String) : String := s.map L.char

@[simp] theorem fold_text (s : String) : Text.fold (L.text s) = Text.fold s := by
  rw [Text.fold, text, String.map_map]
  congr
  funext c
  exact L.toLower_char c

theorem text_append (a b : String) : L.text (a ++ b) = L.text a ++ L.text b := by
  rw [← String.toList_inj]
  simp [text]

theorem char_eq_dot (c : Char) : L.char c = '.' ↔ c = '.' := by
  rw [← Text.toLower_eq_dot, L.toLower_char, Text.toLower_eq_dot]

variable {L} {a b : String}

theorem fold_congr (h : L.text a = L.text b) : Text.fold a = Text.fold b := by
  rw [← L.fold_text, h, L.fold_text]

theorem append_congr {c d : String} (h : L.text a = L.text b) (k : L.text c = L.text d) :
    L.text (a ++ c) = L.text (b ++ d) := by
  rw [L.text_append, L.text_append, h, k]

theorem utf8ByteSize_congr (h : L.text a = L.text b) : a.utf8ByteSize = b.utf8ByteSize := by
  rw [← Text.utf8ByteSize_fold, fold_congr h, Text.utf8ByteSize_fold]

theorem eq_empty_congr (h : L.text a = L.text b) : a = "" ↔ b = "" := by
  rw [← Text.fold_eq_empty, fold_congr h, Text.fold_eq_empty]

theorem lastSegment_congr (h : L.text a = L.text b) :
    L.text (Text.lastSegment a) = L.text (Text.lastSegment b) := by
  simp only [text] at h ⊢
  rw [← Text.lastSegment_map L.char_eq_dot, h, Text.lastSegment_map L.char_eq_dot]

theorem splitLast?_congr (h : L.text a = L.text b) :
    (Text.splitLast? a).map (fun p => (L.text p.1, L.text p.2)) =
      (Text.splitLast? b).map fun p => (L.text p.1, L.text p.2) := by
  simp only [text] at h ⊢
  rw [← Text.splitLast?_map L.char_eq_dot, h, Text.splitLast?_map L.char_eq_dot]

/-! ### What is compared -/

variable (L)

def valueType (t : ValueType) : ValueType := { t with className := t.className.map L.text }

def kind : SymbolKind → SymbolKind
  | .variable v => .variable { v with type := L.valueType v.type }
  | .routine r => .routine { r with returnClass := r.returnClass.map L.text }
  | .tableBuffer b => .tableBuffer b
  | .fieldBuffer f => .fieldBuffer f
  | .event parameters => .event parameters
  | .browse b => .browse { b with query := b.query.map L.text }
  | .widget kind => .widget kind

def symbol (s : Symbol) : Symbol :=
  { s with
    name := L.text s.name
    references := if L.counts then s.references else {}
    kind := L.kind s.kind }

def entry (e : NameEntry) : NameEntry := { e with name := L.text e.name }

def scope (s : Scope) : Scope :=
  { s with
    className := s.className.map L.text
    names := ⟨s.names.entries.map L.entry⟩ }

def table (t : Table) : Table := { t with name := L.text t.name }

def field (f : Field) : Field := { f with name := L.text f.name, type := L.valueType f.type }

def tableIndex (i : TableIndex) : TableIndex := { i with name := L.text i.name }

def unresolved (u : Unresolved) : Unresolved := { u with name := L.text u.name }

def diagnostic (d : Diagnostic) : Diagnostic := { d with message := L.text d.message }

def pendingField (p : PendingIndexField) : PendingIndexField := { p with name := L.text p.name }

def definition (d : TableDefinition) : TableDefinition :=
  { d with
    useIndex := d.useIndex.map fun p => (L.text p.1, p.2)
    indexFields := d.indexFields.map L.pendingField }

def breach : Breach → Breach
  | .frozenTable name => .frozenTable (L.text name)
  | b => b

def fault : Fault → Fault
  | .unresolvedTable name file location => .unresolvedTable (L.text name) file location
  | .misplaced what => .misplaced what
  | .breach what => .breach (L.breach what)

/-! ### Letter by letter -/

/-- Texts are compared letter by letter. -/
def Literal : Prop := ∀ c, L.char c = c

namespace Literal

variable {L} (h : L.Literal)
include h

theorem text (s : String) : L.text s = s := by
  rw [Likeness.text, funext h, ← String.toList_inj]
  simp

theorem texts (o : Option String) : o.map L.text = o := by
  cases o <;> simp [h.text]

theorem valueType (t : ValueType) : L.valueType t = t := by
  rw [Likeness.valueType, h.texts]

theorem entry (e : NameEntry) : L.entry e = e := by
  rw [Likeness.entry, h.text]

theorem scope (s : Scope) : L.scope s = s := by
  rw [Likeness.scope, h.texts, List.map_id'' h.entry]

theorem kind (k : SymbolKind) : L.kind k = k := by
  cases k <;> simp [Likeness.kind, h.valueType, h.texts]

theorem symbol (s : Symbol) (counts : L.counts = true) : L.symbol s = s := by
  rw [Likeness.symbol, h.text, h.kind, counts]
  rfl

theorem table (t : Table) : L.table t = t := by
  rw [Likeness.table, h.text]

theorem field (f : Field) : L.field f = f := by
  rw [Likeness.field, h.text, h.valueType]

theorem tableIndex (i : TableIndex) : L.tableIndex i = i := by
  rw [Likeness.tableIndex, h.text]

theorem unresolved (us : List Unresolved) : us.map L.unresolved = us :=
  List.map_id'' (fun u => by rw [Likeness.unresolved, h.text]) us

theorem diagnostics (ds : List Diagnostic) : ds.map L.diagnostic = ds :=
  List.map_id'' (fun d => by rw [Likeness.diagnostic, h.text]) ds

theorem fault (f : Fault) : L.fault f = f := by
  rcases f with - | - | b
  · rw [Likeness.fault, h.text]
  · rfl
  · cases b <;> simp [Likeness.fault, Likeness.breach, h.text]

end Literal

/-! ### Findings -/

section Findings

variable {L} {a a' b b' : String} (h : L.text a = L.text a')
include h

/-- A message that quotes a name. -/
theorem quote_congr (before after : String) :
    L.text (before ++ a ++ after) = L.text (before ++ a' ++ after) :=
  append_congr (append_congr rfl h) rfl

/-- A message that quotes two names. -/
theorem quote_two_congr (k : L.text b = L.text b') (before between after : String) :
    L.text (before ++ a ++ between ++ b ++ after) =
      L.text (before ++ a' ++ between ++ b' ++ after) :=
  append_congr (append_congr (quote_congr h before between) k) rfl

theorem diagnostic_unresolvedField (k : L.text b = L.text b') (l : Location) :
    L.diagnostic (.unresolvedField a b l) = L.diagnostic (.unresolvedField a' b' l) := by
  simp only [diagnostic, Diagnostic.unresolvedField, quote_two_congr h k]

theorem diagnostic_unresolvedBuffer (l : Location) :
    L.diagnostic (.unresolvedBuffer a l) = L.diagnostic (.unresolvedBuffer a' l) := by
  simp only [diagnostic, Diagnostic.unresolvedBuffer, quote_congr h]

theorem diagnostic_unresolvedLikeSource (l : Location) :
    L.diagnostic (.unresolvedLikeSource a l) = L.diagnostic (.unresolvedLikeSource a' l) := by
  simp only [diagnostic, Diagnostic.unresolvedLikeSource, quote_congr h]

theorem diagnostic_unknownUseIndex (k : L.text b = L.text b') (l : Location) :
    L.diagnostic (.unknownUseIndex a b l) = L.diagnostic (.unknownUseIndex a' b' l) := by
  simp only [diagnostic, Diagnostic.unknownUseIndex, quote_two_congr h k]

theorem diagnostic_skippedIndexField (k : L.text b = L.text b') (l : Location) :
    L.diagnostic (.skippedIndexField a b l) = L.diagnostic (.skippedIndexField a' b' l) := by
  simp only [diagnostic, Diagnostic.skippedIndexField, quote_two_congr h k]

theorem diagnostic_missingTypeInfo (l : Location) :
    L.diagnostic (.missingTypeInfo a l) = L.diagnostic (.missingTypeInfo a' l) := by
  simp only [diagnostic, Diagnostic.missingTypeInfo, quote_congr h]

end Findings

end Likeness

namespace Arena

variable {e : Entity} {α β γ : Type} {f : α → β} {a b : Arena e α}

def map (f : α → β) (a : Arena e α) : Arena e β := ⟨a.items.map f⟩

theorem get?_map (f : α → β) (a : Arena e α) (i : Id e) : (a.map f).get? i = (a.get? i).map f := by
  simp [get?, map]

theorem size_of_map_eq (h : a.map f = b.map f) : a.size = b.size := by
  simpa [map, size] using congrArg size h

theorem next_of_map_eq (h : a.map f = b.map f) : a.next = b.next :=
  Id.ext (size_of_map_eq h)

/-- Two elements with the same number are there together and alike. -/
theorem get?_of_map_eq (h : a.map f = b.map f) (i : Id e) :
    a.get? i = none ∧ b.get? i = none ∨
      ∃ v v', a.get? i = some v ∧ b.get? i = some v' ∧ f v = f v' := by
  have same : (a.get? i).map f = (b.get? i).map f := by rw [← get?_map, h, get?_map]
  cases ha : a.get? i with
  | none => exact .inl ⟨rfl, by simpa [ha] using same.symm⟩
  | some v =>
    rw [ha] at same
    obtain ⟨v', hv', hf⟩ := Option.map_eq_some_iff.1 same.symm
    exact .inr ⟨v, v', rfl, hv', hf.symm⟩

theorem bind_of_map_eq (h : a.map f = b.map f) {g g' : α → Option γ}
    (hg : ∀ v v', f v = f v' → g v = g' v') (i : Id e) :
    (a.get? i).bind g = (b.get? i).bind g' := by
  rcases get?_of_map_eq h i with ⟨ha, hb⟩ | ⟨v, v', ha, hb, hf⟩
  · rw [ha, hb]
    rfl
  · rw [ha, hb]
    exact hg v v' hf

theorem eq_of_map_eq {f : α → α} {a b : Arena e α} (h : a.map f = b.map f) (hf : ∀ v, f v = v) :
    b = a := by
  refine Arena.ext_get? fun i => ?_
  rcases get?_of_map_eq h i with ⟨ha, hb⟩ | ⟨v, v', ha, hb, same⟩
  · rw [ha, hb]
  · rw [ha, hb, ← hf v, same, hf]

theorem map_push (f : α → β) (a : Arena e α) (v : α) :
    (a.push v).map f = (a.map f).push (f v) := by
  simp [push, map]

theorem map_pushAll (f : α → β) (a : Arena e α) (vs : List α) :
    (a.pushAll vs).map f = (a.map f).pushAll (vs.map f) := by
  simp [pushAll, map]

theorem map_push_congr (h : a.map f = b.map f) {v v' : α} (hv : f v = f v') :
    (a.push v).map f = (b.push v').map f := by
  rw [map_push, map_push, h, hv]

theorem map_pushAll_congr (h : a.map f = b.map f) {vs vs' : List α} (hv : vs.map f = vs'.map f) :
    (a.pushAll vs).map f = (b.pushAll vs').map f := by
  rw [map_pushAll, map_pushAll, h, hv]

theorem map_update_congr (h : a.map f = b.map f) {g g' : α → α}
    (hg : ∀ v v', f v = f v' → f (g v) = f (g' v')) (i : Id e) :
    (a.update i g).map f = (b.update i g').map f := by
  refine ext_get? fun j => ?_
  rw [get?_map, get?_map, get?_update, get?_update]
  rcases get?_of_map_eq h j with ⟨ha, hb⟩ | ⟨v, v', ha, hb, hf⟩
  · simp [ha, hb]
  · split
    · simp [ha, hb, hg v v' hf]
    · simp [ha, hb, hf]

end Arena

/-! ### Trees of the same shape -/

/-- The node without its word. -/
def Node.bare (n : Node) : Node := { n with token := {} }

/-- The trees are the same but for the words at their nodes: they have the same nodes below each
other, of the same kinds and with the same flags. -/
def ParseTree.SameShape (t t' : ParseTree) : Prop :=
  t.nodes.map Node.bare = t'.nodes.map Node.bare

instance (t t' : ParseTree) : Decidable (t.SameShape t') := inferInstanceAs (Decidable (_ = _))

namespace ParseTree.SameShape

variable {t t' : ParseTree} (h : t.SameShape t')
include h

/-- Nodes with the same number are there together, and alike. -/
theorem node (n : NodeId) : t.node? n = none ∧ t'.node? n = none ∨
    ∃ v v', t.node? n = some v ∧ t'.node? n = some v' ∧ v.bare = v'.bare :=
  Arena.get?_of_map_eq h n

theorem size : t.size = t'.size := Arena.size_of_map_eq h

theorem children : t.children = t'.children := by
  funext n
  unfold ParseTree.children
  rcases h.node n with ⟨hv, hv'⟩ | ⟨v, v', hv, hv', same⟩
  · rw [hv, hv']
  · rw [hv, hv']
    exact (congrArg Node.children same :)

theorem kind : t.kind = t'.kind := by
  funext n
  unfold ParseTree.kind
  rcases h.node n with ⟨hv, hv'⟩ | ⟨v, v', hv, hv', same⟩
  · rw [hv, hv']
  · rw [hv, hv']
    exact (congrArg Node.kind same :)

theorem parent? : t.parent? = t'.parent? := by
  funext n
  exact Arena.bind_of_map_eq h (fun _ _ same => (congrArg Node.parent same :)) n

theorem definesInline : t.definesInline = t'.definesInline := by
  funext n
  unfold ParseTree.definesInline
  rcases h.node n with ⟨hv, hv'⟩ | ⟨v, v', hv, hv', same⟩
  · rw [hv, hv']
  · rw [hv, hv']
    exact (congrArg Node.definesInline same :)

theorem childOfKind? : t.childOfKind? = t'.childOfKind? := by
  funext n kind
  rw [ParseTree.childOfKind?, h.children, h.kind]
  rfl

theorem hasKeyword : t.hasKeyword = t'.hasKeyword := by
  funext n keyword
  rw [ParseTree.hasKeyword, h.childOfKind?]
  rfl

end ParseTree.SameShape

/-! ### Indexes that are alike -/

/-- The indexes have the same contents as far as they are compared. -/
structure UnitIndex.Alike (L : Likeness) (x y : UnitIndex) : Prop where
  scopes : x.scopes.map L.scope = y.scopes.map L.scope
  blocks : x.blocks = y.blocks
  bufferScopes : x.bufferScopes = y.bufferScopes
  symbols : x.symbols.map L.symbol = y.symbols.map L.symbol
  tables : x.tables.map L.table = y.tables.map L.table
  fields : x.fields.map L.field = y.fields.map L.field
  indexes : x.indexes.map L.tableIndex = y.indexes.map L.tableIndex
  schemaTables : x.schemaTables = y.schemaTables
  unresolved : x.unresolved.map L.unresolved = y.unresolved.map L.unresolved
  defaulted : L.defaults x.defaulted y.defaulted
  diagnostics : x.diagnostics.all.map L.diagnostic = y.diagnostics.all.map L.diagnostic
  /-- Tables are defined at nodes that both trees have. -/
  shared : ∀ t table, x.tables.get? t = some table → ∀ n, table.definitionNode = some n → L.nodes n

namespace NameTable

variable {L : Likeness}

theorem isFor_entry (e : NameEntry) (space : Namespace) (name : String) :
    (L.entry e).isFor space name = e.isFor space name := by
  have same : Text.same (L.entry e).name name = Text.same e.name name :=
    Text.same_congr (L.fold_text e.name) rfl
  unfold NameEntry.isFor
  rw [same]
  rfl

theorem isFor_congr (e : NameEntry) (space : Namespace) {name name' : String}
    (h : Text.fold name = Text.fold name') : e.isFor space name = e.isFor space name' := by
  unfold NameEntry.isFor
  rw [Text.same_congr rfl h]

theorem find?_of_map_eq {t t' : NameTable} (h : t.entries.map L.entry = t'.entries.map L.entry)
    (space : Namespace) {name name' : String} (hname : Text.fold name = Text.fold name') :
    t.find? space name = t'.find? space name' := by
  have seen : ∀ (t : NameTable) (name : String), t.find? space name =
      ((t.entries.map L.entry).find? (·.isFor space name)).map (·.symbol) := by
    intro t name
    rw [List.find?_map, Option.map_map]
    simp only [Function.comp_def, isFor_entry]
    rfl
  rw [seen, seen t', h]
  simp only [isFor_congr _ space hname]

theorem map_put (e : NameEntry) (entries : List NameEntry) :
    (put e entries).2.map L.entry = (put (L.entry e) (entries.map L.entry)).2 := by
  induction entries with
  | nil => rfl
  | cons old rest ih =>
    have same : (L.entry old).isFor (L.entry e).space (L.entry e).name =
        old.isFor e.space e.name := by
      rw [isFor_entry]
      exact isFor_congr old e.space (L.fold_text e.name)
    rw [List.map_cons, put, put, same]
    split
    · rfl
    · rw [List.map_cons, ih]

end NameTable

namespace UnitIndex.Alike

variable {L : Likeness} {x y : UnitIndex} (h : x.Alike L y)
include h

/-! ### Questions about scopes -/

theorem parentScope? (s : ScopeId) : x.parentScope? s = y.parentScope? s :=
  Arena.bind_of_map_eq h.scopes (fun _ _ hv => congrArg Scope.parent hv) s

theorem scopeChain (s : ScopeId) : x.scopeChain s = y.scopeChain s := by
  obtain ⟨n⟩ := s
  induction n using Nat.strongRecOn with
  | ind n ih =>
    rw [UnitIndex.scopeChain, UnitIndex.scopeChain, h.parentScope?]
    cases y.parentScope? ⟨n⟩ with
    | none => rfl
    | some p =>
      dsimp only
      split
      · rw [ih p.val ‹_›]
      · rfl

theorem findIn? (s : ScopeId) (space : Namespace) {name name' : String}
    (hname : Text.fold name = Text.fold name') : x.findIn? s space name = y.findIn? s space name' :=
  Arena.bind_of_map_eq h.scopes (fun _ _ hv =>
    NameTable.find?_of_map_eq (congrArg (fun s => s.names.entries) hv) space hname) s

theorem resolve? (s : ScopeId) (space : Namespace) {name name' : String}
    (hname : Text.fold name = Text.fold name') :
    x.resolve? s space name = y.resolve? s space name' := by
  unfold UnitIndex.resolve?
  rw [h.scopeChain]
  simp only [h.findIn? _ space hname]

theorem enclosingRoutine? (s : ScopeId) : x.enclosingRoutine? s = y.enclosingRoutine? s := by
  have routine : ∀ s, (x.scopes.get? s).bind (·.routine) = (y.scopes.get? s).bind (·.routine) :=
    Arena.bind_of_map_eq h.scopes fun _ _ hv => (congrArg Scope.routine hv :)
  unfold UnitIndex.enclosingRoutine?
  rw [h.scopeChain]
  simp only [routine]

theorem classShortName? : x.classShortName?.map L.text = y.classShortName?.map L.text := by
  have named : ((x.scopes.get? rootScope).bind (·.className)).map L.text =
      ((y.scopes.get? rootScope).bind (·.className)).map L.text := by
    rw [Option.map_bind, Option.map_bind]
    exact Arena.bind_of_map_eq h.scopes (fun _ _ hv => congrArg Scope.className hv) _
  unfold UnitIndex.classShortName?
  cases hx : (x.scopes.get? rootScope).bind (·.className) <;>
    cases hy : (y.scopes.get? rootScope).bind (·.className) <;> simp_all
  exact Likeness.lastSegment_congr named

omit h in
theorem buffers_scope (s : Scope) : (L.scope s).buffers = s.buffers := by
  have symbols : ∀ space, ((L.scope s).names.inNamespace space).map (·.symbol) =
      (s.names.inNamespace space).map (·.symbol) := by
    intro space
    show (((s.names.entries.map L.entry).filter _).map _) = _
    rw [List.filter_map, List.map_map]
    rfl
  unfold Scope.buffers
  rw [symbols, symbols]
  rfl

theorem visibleBuffers (s : ScopeId) : x.visibleBuffers s = y.visibleBuffers s := by
  unfold UnitIndex.visibleBuffers
  rw [h.scopeChain]
  congr
  funext s
  rcases Arena.get?_of_map_eq h.scopes s with ⟨hx, hy⟩ | ⟨v, v', hx, hy, hv⟩
  · rw [hx, hy]
  · rw [hx, hy]
    have same := congrArg Scope.buffers hv
    rwa [buffers_scope, buffers_scope] at same

/-! ### Questions about blocks -/

theorem blockChain (b : BlockId) : x.blockChain b = y.blockChain b := by
  have parent : ∀ b, x.parentBlock? b = y.parentBlock? b := fun b => by
    rw [UnitIndex.parentBlock?, h.blocks, UnitIndex.parentBlock?]
  obtain ⟨n⟩ := b
  induction n using Nat.strongRecOn with
  | ind n ih =>
    rw [UnitIndex.blockChain, UnitIndex.blockChain, parent]
    cases y.parentBlock? ⟨n⟩ with
    | none => rfl
    | some p =>
      dsimp only
      split
      · rw [ih p.val ‹_›]
      · rfl

theorem bufferScopesOf : x.bufferScopesOf = y.bufferScopesOf := by
  funext b
  rw [UnitIndex.bufferScopesOf, h.blocks, UnitIndex.bufferScopesOf]

theorem scopesBuffer : x.scopesBuffer = y.scopesBuffer := by
  funext buffer id
  rw [UnitIndex.scopesBuffer, h.bufferScopes, UnitIndex.scopesBuffer]

theorem enclosingBufferScopes (b : BlockId) :
    x.enclosingBufferScopes b = y.enclosingBufferScopes b := by
  rw [UnitIndex.enclosingBufferScopes, h.blockChain, h.bufferScopesOf,
    UnitIndex.enclosingBufferScopes]

theorem enclosingBufferScope? (b : BlockId) (buffer : SymbolId) :
    x.enclosingBufferScope? b buffer = y.enclosingBufferScope? b buffer := by
  rw [UnitIndex.enclosingBufferScope?, h.enclosingBufferScopes, h.scopesBuffer,
    UnitIndex.enclosingBufferScope?]

theorem recordBlock? (b : BlockId) : x.recordBlock? b = y.recordBlock? b := by
  rw [UnitIndex.recordBlock?, h.blockChain, h.blocks, UnitIndex.recordBlock?]

/-! ### Questions about symbols -/

omit h in
/-- What kind of symbol two symbols are. -/
theorem kind_congr {s s' : Symbol} (hs : L.symbol s = L.symbol s') :
    L.kind s.kind = L.kind s'.kind := congrArg Symbol.kind hs

omit h in
theorem asTableBuffer?_congr {s s' : Symbol} (hs : L.symbol s = L.symbol s') :
    s.asTableBuffer? = s'.asTableBuffer? := by
  have seen : ∀ s : Symbol, (L.symbol s).asTableBuffer? = s.asTableBuffer? := by
    intro s
    unfold Symbol.asTableBuffer? Likeness.symbol
    cases s.kind <;> rfl
  rw [← seen, hs, seen]

omit h in
theorem asRoutine?_congr {s s' : Symbol} (hs : L.symbol s = L.symbol s') :
    s.asRoutine?.map (·.body) = s'.asRoutine?.map (·.body) := by
  have seen : ∀ s : Symbol,
      (L.symbol s).asRoutine?.map (·.body) = s.asRoutine?.map (·.body) := by
    intro s
    unfold Symbol.asRoutine? Likeness.symbol
    cases s.kind <;> rfl
  rw [← seen, hs, seen]

theorem typeOf {s s' : Symbol} (hs : L.symbol s = L.symbol s') :
    L.valueType (x.typeOf s) = L.valueType (y.typeOf s') := by
  have hkind := kind_congr hs
  unfold UnitIndex.typeOf
  cases hk : s.kind <;> cases hk' : s'.kind <;> simp only [hk, hk', Likeness.kind, reduceCtorEq,
    SymbolKind.variable.injEq, SymbolKind.fieldBuffer.injEq] at hkind ⊢
  · exact congrArg Variable.type hkind
  · subst hkind
    rcases Arena.get?_of_map_eq h.fields _ with ⟨hx, hy⟩ | ⟨v, v', hx, hy, hv⟩
    · rw [hx, hy]
    · rw [hx, hy]
      exact congrArg Field.type hv

theorem bufferTable? (s : SymbolId) : x.bufferTable? s = y.bufferTable? s := by
  unfold UnitIndex.bufferTable?
  rw [Arena.bind_of_map_eq h.symbols fun _ _ => asTableBuffer?_congr]

/-! ### Questions about tables -/

theorem fieldCandidates {t t' : Table} (ht : t.fields = t'.fields) :
    Text.foldKeys (x.fieldCandidates t) = Text.foldKeys (y.fieldCandidates t') := by
  have named : ∀ f, ((x.fields.get? f).map fun field => (field.name, f)).map
        (fun c => (Text.fold c.1, c.2)) =
      ((y.fields.get? f).map fun field => (field.name, f)).map fun c => (Text.fold c.1, c.2) := by
    intro f
    rcases Arena.get?_of_map_eq h.fields f with ⟨hx, hy⟩ | ⟨v, v', hx, hy, hv⟩
    · rw [hx, hy]
    · rw [hx, hy]
      have := Likeness.fold_congr (congrArg Field.name hv)
      simp [this]
  unfold Text.foldKeys UnitIndex.fieldCandidates
  rw [List.map_filterMap, List.map_filterMap, ht]
  simp only [named]

theorem fieldNamed? (t : TableId) {name name' : String} (hname : Text.fold name = Text.fold name') :
    x.fieldNamed? t name = y.fieldNamed? t name' := by
  refine Arena.bind_of_map_eq h.tables (fun v v' hv => ?_) t
  have hkind : v.kind = v'.kind := (congrArg Table.kind hv :)
  rw [hkind]
  exact Text.matchName_congr hname (h.fieldCandidates (congrArg Table.fields hv :))

theorem bufferField? (buffer : SymbolId) {name name' : String}
    (hname : Text.fold name = Text.fold name') :
    x.bufferField? buffer name = y.bufferField? buffer name' := by
  unfold UnitIndex.bufferField?
  rw [h.bufferTable?]
  simp only [h.fieldNamed? _ hname]

theorem indexNamed? (t : TableId) {name name' : String} (hname : Text.fold name = Text.fold name') :
    x.indexNamed? t name = y.indexNamed? t name' := by
  refine Arena.bind_of_map_eq h.tables (fun v v' hv => ?_) t
  have hindexes : v.indexes = v'.indexes := (congrArg Table.indexes hv :)
  rw [hindexes]
  congr
  funext i
  rcases Arena.get?_of_map_eq h.indexes i with ⟨hx, hy⟩ | ⟨v, v', hx, hy, hv⟩
  · rw [hx, hy]
  · rw [hx, hy]
    exact Text.same_congr (Likeness.fold_congr (congrArg TableIndex.name hv)) hname

theorem schemaTable? (e : Catalog.Entry) : x.schemaTable? e = y.schemaTable? e := by
  rw [UnitIndex.schemaTable?, h.schemaTables, UnitIndex.schemaTable?]

/-! ### Looking up names -/

theorem plainSymbol? (scope : ScopeId) {name name' : String}
    (hname : Text.fold name = Text.fold name') :
    Walk.plainSymbol? x scope name = Walk.plainSymbol? y scope name' := by
  unfold Walk.plainSymbol? UnitIndex.resolveVariable?
  simp only [h.resolve? scope _ hname]

theorem boundField? (block : BlockId) {name name' : String}
    (hname : Text.fold name = Text.fold name') :
    Walk.boundField? x block name = Walk.boundField? y block name' := by
  unfold Walk.boundField?
  rw [h.enclosingBufferScopes, h.bufferScopes]
  simp only [h.bufferField? _ hname]

theorem visibleField? (scope : ScopeId) {name name' : String}
    (hname : Text.fold name = Text.fold name') :
    Walk.visibleField? x scope name = Walk.visibleField? y scope name' := by
  unfold Walk.visibleField?
  rw [h.visibleBuffers]
  simp only [h.bufferField? _ hname]

theorem isAbbreviatedTable (buffer : SymbolId) {name name' : String}
    (hname : L.text name = L.text name') :
    Walk.isAbbreviatedTable x buffer name = Walk.isAbbreviatedTable y buffer name' := by
  have size := Likeness.utf8ByteSize_congr (Likeness.lastSegment_congr hname)
  unfold Walk.isAbbreviatedTable
  rw [Arena.bind_of_map_eq h.symbols fun _ _ => asTableBuffer?_congr]
  cases (y.symbols.get? buffer).bind (·.asTableBuffer?) with
  | none => rfl
  | some b =>
    dsimp only
    rcases Arena.get?_of_map_eq h.tables b.table with ⟨hx, hy⟩ | ⟨v, v', hx, hy, hv⟩
    · rw [hx, hy]
    · have hkind : v.kind = v'.kind := (congrArg Table.kind hv :)
      rw [hx, hy]
      dsimp only
      rw [size, Likeness.utf8ByteSize_congr (congrArg Table.name hv), hkind]

end UnitIndex.Alike

end AblResolve
