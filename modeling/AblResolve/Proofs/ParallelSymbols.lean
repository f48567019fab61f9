import AblResolve.Proofs.Parallel
import AblResolve.Walk.Perform
/-!
Defining symbols and tables, looking names up and performing actions, side by side. The two sides
may spell a name differently wherever it comes from the tree.
-/
namespace AblResolve

namespace Likeness

variable {L : Likeness} {s s' : Symbol}

theorem symbol_congr (h : L.symbol s = L.symbol s') {k k' : SymbolKind}
    (hk : L.kind k = L.kind k') :
    L.symbol { s with kind := k } = L.symbol { s' with kind := k' } := by
  simp only [symbol, Symbol.mk.injEq] at h ⊢
  exact ⟨h.1, h.2.1, h.2.2.1, h.2.2.2.1, h.2.2.2.2.1, hk⟩

theorem symbol_noteReference (h : L.symbol s = L.symbol s') (q : Qualifier) :
    L.symbol (s.noteReference q) = L.symbol (s'.noteReference q) := by
  simp only [symbol, Symbol.mk.injEq, Symbol.noteReference] at h ⊢
  obtain ⟨name, scope, node, attached, references, kind⟩ := h
  refine ⟨name, scope, node, attached, ?_, kind⟩
  split
  · rename_i counts
    rw [if_pos counts, if_pos counts] at references
    rw [references]
  · rfl

theorem scope_insert {v v' : Scope} (h : L.scope v = L.scope v') (space : Namespace)
    {name name' : String} (hname : L.text name = L.text name') (i : SymbolId) :
    L.scope { v with names := (v.names.insert space name i).2 } =
      L.scope { v' with names := (v'.names.insert space name' i).2 } := by
  have entries : v.names.entries.map L.entry = v'.names.entries.map L.entry :=
    (congrArg (fun s => s.names.entries) h :)
  have put : ((NameTable.put ⟨space, name, i⟩ v.names.entries).2).map L.entry =
      ((NameTable.put ⟨space, name', i⟩ v'.names.entries).2).map L.entry := by
    rw [NameTable.map_put, NameTable.map_put, entries]
    simp only [entry, hname]
  simp only [scope, Scope.mk.injEq, NameTable.mk.injEq] at h ⊢
  obtain ⟨parent, kind, node, rootBlock, routine, className, typeInfo, -, unnamed⟩ := h
  exact ⟨parent, kind, node, rootBlock, routine, className, typeInfo, put, unnamed⟩

end Likeness

namespace Walk

variable {L : Likeness} {α β : Type}

namespace Parallel

/-! ### Symbols -/

theorem createSymbol (scope : ScopeId) (n : Option NodeId) {name name' : String}
    {kind kind' : SymbolKind} (hname : L.text name = L.text name')
    (hkind : L.kind kind = L.kind kind') (attached : Bool) :
    Parallel L Eq (createSymbol scope n name kind attached)
      (createSymbol scope n name' kind' attached) := by
  refine .bind .theIndex fun x y hx => ?_
  have next := Arena.next_of_map_eq hx.symbols
  dsimp only
  rw [next]
  refine .seq (.modifyIndex fun x y hx => { hx with
    symbols := Arena.map_push_congr hx.symbols ?_ }) fun _ => ?_
  · simp only [Likeness.symbol, hname, hkind]
  · cases n with
    | none => exact .seq (.pure rfl) fun _ => .pure rfl
    | some n => exact .seq (.annotate n _) fun _ => .pure rfl

theorem beginDefinition (s : SymbolId) :
    Parallel L Eq (beginDefinition s) (beginDefinition s) :=
  .modify fun _ _ hw => { hw with openDefinitions := by rw [hw.openDefinitions] }

theorem endDefinition (s : SymbolId) : Parallel L Eq (endDefinition s) (endDefinition s) := by
  refine .bind .get fun w w' hw => ?_
  rw [hw.openDefinitions]
  rcases w'.openDefinitions with _ | ⟨innermost, outer⟩
  · exact .breach _
  · refine .ite Iff.rfl (.modify fun _ _ hw => ?_) (.breach _)
    exact { hw with openDefinitions := rfl }

theorem define (n : NodeId) {name name' : String} {kind kind' : SymbolKind}
    (hname : L.text name = L.text name') (hkind : L.kind kind = L.kind kind') :
    Parallel L Eq (define n name kind) (define n name' kind') :=
  .seq .currentScope fun scope => .seq (.createSymbol scope n hname hkind false) fun s =>
    .seq (.beginDefinition s) fun _ => .pure rfl

theorem namespaceOf {k k' : SymbolKind} (h : L.kind k = L.kind k') :
    Parallel L Eq (namespaceOf k) (namespaceOf k') := by
  have seen : ∀ k, Walk.namespaceOf (L.kind k) = Walk.namespaceOf k := by
    intro k
    cases k <;> rfl
  rw [← seen, h, seen]
  cases k' with
  | fieldBuffer => exact .breach _
  | _ => exact .pure rfl

theorem attach (s : SymbolId) : Parallel L Eq (attach s) (attach s) := by
  refine .bind (.symbolAt s) fun v v' hv => ?_
  have name : L.text v.name = L.text v'.name := (congrArg Symbol.name hv :)
  have scope : v.scope = v'.scope := (congrArg Symbol.scope hv :)
  refine .seq (.updateSymbol s fun u u' hu =>
    (congrArg (fun u => { u with attached := true }) hu :)) fun _ => ?_
  refine .ite (by simpa using not_congr (Likeness.eq_empty_congr name)) ?_ (.pure rfl)
  refine .seq (.namespaceOf (congrArg Symbol.kind hv :)) fun space => ?_
  rw [scope]
  exact .updateScope v'.scope fun u u' hu => Likeness.scope_insert hu space name s

theorem noteReference (s : SymbolId) (q : Qualifier) :
    Parallel L Eq (noteReference s q) (noteReference s q) :=
  .updateSymbol s fun _ _ h => Likeness.symbol_noteReference h q

theorem updateType (s : SymbolId) {f f' : ValueType → ValueType}
    (hf : ∀ t t', L.valueType t = L.valueType t' → L.valueType (f t) = L.valueType (f' t')) :
    Parallel L Eq (updateType s f) (updateType s f') := by
  refine .bind (.symbolAt s) fun v v' hv => ?_
  have hkind : L.kind v.kind = L.kind v'.kind := (congrArg Symbol.kind hv :)
  cases hk : v.kind <;> cases hk' : v'.kind <;> simp only [hk, hk', Likeness.kind, reduceCtorEq,
    SymbolKind.variable.injEq, SymbolKind.fieldBuffer.injEq] at hkind ⊢
  case variable.variable u u' =>
    refine .updateSymbol s fun _ _ h => Likeness.symbol_congr h ?_
    simp only [Likeness.kind, Variable.mk.injEq, SymbolKind.variable.injEq] at hkind ⊢
    exact ⟨hf _ _ hkind.1, hkind.2⟩
  case fieldBuffer.fieldBuffer b b' =>
    subst hkind
    refine .updateField b.field fun u u' h => ?_
    simp only [Likeness.field, Field.mk.injEq] at h ⊢
    exact ⟨h.1, h.2.1, hf _ _ h.2.2⟩
  all_goals exact .pure rfl

theorem setDataType (s : SymbolId) (type : DataType) {className className' : Option String}
    (h : className.map L.text = className'.map L.text) :
    Parallel L Eq (setDataType s type className) (setDataType s type className') := by
  refine .updateType s fun t t' ht => ?_
  simp only [Likeness.valueType, ValueType.mk.injEq] at ht ⊢
  exact ⟨trivial, h, ht.2.2⟩

theorem setExtent (s : SymbolId) (extent : Extent) :
    Parallel L Eq (setExtent s extent) (setExtent s extent) :=
  .updateType s fun _ _ ht => (congrArg (fun t => { t with extent }) ht :)

theorem copyType (source target : SymbolId) :
    Parallel L Eq (copyType source target) (copyType source target) := by
  refine .bind .theIndex fun x y hx => .bind (.symbolAt source) fun v v' hv => ?_
  have type := hx.typeOf hv
  have dataType : (x.typeOf v).dataType = (y.typeOf v').dataType :=
    (congrArg ValueType.dataType type :)
  have extent : (x.typeOf v).extent = (y.typeOf v').extent := (congrArg ValueType.extent type :)
  dsimp only
  rw [dataType, extent]
  cases (y.typeOf v').dataType with
  | none => exact .setExtent target _
  | some t =>
    exact .seq (.setDataType target t (congrArg ValueType.className type :)) fun _ =>
      .setExtent target _

/-! ### Routines and parameters -/

theorem createRoutine (scope : ScopeId) (n : NodeId) {name name' : String}
    (hname : L.text name = L.text name') (routine : Routine) :
    Parallel L Eq (createRoutine scope n name routine) (createRoutine scope n name' routine) := by
  refine .seq (.createSymbol scope n hname rfl false) fun s => ?_
  refine .seq (.updateScope routine.body fun _ _ h =>
    (congrArg (fun v => { v with routine := some s }) h :)) fun _ => ?_
  exact .seq (.attach s) fun _ => .pure rfl

theorem updateRoutine (s : SymbolId) {f f' : Routine → Routine}
    (hf : ∀ r r', L.kind (.routine r) = L.kind (.routine r') →
      L.kind (.routine (f r)) = L.kind (.routine (f' r'))) :
    Parallel L Eq (updateRoutine s f) (updateRoutine s f') := by
  refine .updateSymbol s fun v v' hv => ?_
  have hkind : L.kind v.kind = L.kind v'.kind := (congrArg Symbol.kind hv :)
  cases hk : v.kind <;> cases hk' : v'.kind <;> simp only [hk, hk'] at hkind ⊢ <;>
    first
    | exact Likeness.symbol_congr hv (hf _ _ hkind)
    | exact hv
    | cases hkind

theorem addParameter (s : SymbolId) (mode : ParameterMode) (attaching : Bool) :
    Parallel L Eq (addParameter s mode attaching) (addParameter s mode attaching) := by
  refine .bind .get fun w w' hw => ?_
  rw [hw.openEvent]
  cases w'.openEvent with
  | some event =>
    refine .updateSymbol event fun v v' hv => ?_
    have hkind : L.kind v.kind = L.kind v'.kind := (congrArg Symbol.kind hv :)
    cases hk : v.kind <;> cases hk' : v'.kind <;> simp only [hk, hk', Likeness.kind, reduceCtorEq,
      SymbolKind.event.injEq] at hkind ⊢
    case event.event ps ps' =>
      subst hkind
      exact Likeness.symbol_congr hv rfl
    all_goals exact hv
  | none =>
    let add : WalkM Unit := do
      Walk.updateRoutine (← Walk.currentRoutine) fun r =>
        { r with parameters := r.parameters ++ [(s, mode)] }
    have add : Parallel L Eq add add := by
      refine .seq .currentRoutine fun r => .updateRoutine r fun r r' h => ?_
      simp only [Likeness.kind, SymbolKind.routine.injEq, Routine.mk.injEq] at h ⊢
      obtain ⟨kind, body, parameters, returnType, returnClass, forwardNode⟩ := h
      exact ⟨kind, body, by rw [parameters], returnType, returnClass, forwardNode⟩
    cases attaching with
    | true => exact .seq (.attach s) fun _ => add
    | false => exact add

/-! ### Looking names up -/

theorem namedBuffer? {name name' : String} (h : L.text name = L.text name') :
    Parallel L Eq (namedBuffer? name) (namedBuffer? name') :=
  .bind .theIndex fun _ _ hx => .seq .currentScope fun scope =>
    .pure (hx.resolve? scope .buffer (Likeness.fold_congr h))

theorem tempTableBuffer? {name name' : String} (h : L.text name = L.text name') :
    Parallel L Eq (tempTableBuffer? name) (tempTableBuffer? name') :=
  .bind .theIndex fun _ _ hx => .pure (hx.findIn? _ .table (Likeness.fold_congr h))

theorem schemaTable (e : Catalog.Entry) : Parallel L Eq (schemaTable e) (schemaTable e) := by
  refine .bind .theIndex fun x y hx => ?_
  have next := Arena.next_of_map_eq hx.tables
  rw [hx.schemaTable?, next]
  cases y.schemaTable? e with
  | some t => exact .pure rfl
  | none =>
    refine .seq (.modifyIndex fun x y hx => ?_) fun _ => .pure rfl
    have table := Arena.next_of_map_eq hx.tables
    have fields : ∀ k, x.fields.nextIds k = y.fields.nextIds k := fun k => by
      rw [Arena.nextIds, Arena.size_of_map_eq hx.fields, Arena.nextIds]
    have indexes : ∀ k, x.indexes.nextIds k = y.indexes.nextIds k := fun k => by
      rw [Arena.nextIds, Arena.size_of_map_eq hx.indexes, Arena.nextIds]
    have shared : ∀ t table, (x.loadTable e).tables.get? t = some table →
        ∀ n, table.definitionNode = some n → L.nodes n := by
      intro t table ht n hn
      rcases Arena.get?_push_cases ht with ⟨-, rfl⟩ | hold
      · cases hn
      · exact hx.shared t table hold n hn
    unfold UnitIndex.loadTable at shared ⊢
    dsimp only at shared ⊢
    rw [table, fields, indexes, hx.schemaTables] at *
    exact { hx with
      fields := Arena.map_pushAll_congr hx.fields rfl
      indexes := Arena.map_pushAll_congr hx.indexes rfl
      tables := Arena.map_push_congr hx.tables rfl
      schemaTables := rfl
      shared := shared }

theorem defaultBuffer (t : TableId) : Parallel L Eq (defaultBuffer t) (defaultBuffer t) := by
  refine .bind (.scopeAt _) fun root root' hroot => ?_
  have unnamed : root.unnamedBuffer? t = root'.unnamedBuffer? t := by
    have : root.unnamedBuffers = root'.unnamedBuffers := (congrArg Scope.unnamedBuffers hroot :)
    rw [Scope.unnamedBuffer?, this, Scope.unnamedBuffer?]
  rw [unnamed]
  cases root'.unnamedBuffer? t with
  | some buffer => exact .pure rfl
  | none =>
    refine .bind (.tableAt t) fun table table' ht => ?_
    refine .seq (.createSymbol _ none (congrArg Table.name ht.1 :) rfl true) fun buffer => ?_
    refine .seq (.updateScope _ fun _ _ h => ?_) fun _ => .pure rfl
    exact (congrArg (fun s => { s with unnamedBuffers := s.unnamedBuffers ++ [(t, buffer)] }) h :)

theorem schemaBuffer? {env env' : Env} (catalog : env.catalog = env'.catalog)
    {name name' : String} (h : L.text name = L.text name') :
    Parallel L Eq (schemaBuffer? env name) (schemaBuffer? env' name') := by
  unfold Walk.schemaBuffer?
  rw [catalog, Catalog.table?_congr _ (Likeness.fold_congr h)]
  cases env'.catalog.table? name' with
  | some e =>
    exact .seq (.schemaTable e) fun t => .seq (.defaultBuffer t) fun _ => .pure rfl
  | none => exact .pure rfl

theorem findBuffer? {env env' : Env} (catalog : env.catalog = env'.catalog)
    {name name' : String} (h : L.text name = L.text name') (lookup : RecordLookup) :
    Parallel L Eq (findBuffer? env name lookup) (findBuffer? env' name' lookup) := by
  cases lookup with
  | buffer =>
    refine .seq (.namedBuffer? h) fun found => ?_
    cases found with
    | some buffer => exact .pure rfl
    | none =>
      refine .seq (.tempTableBuffer? h) fun found => ?_
      cases found with
      | some buffer => exact .pure rfl
      | none => exact .schemaBuffer? catalog h
  | tempTable => exact .tempTableBuffer? h
  | schemaTable => exact .schemaBuffer? catalog h

theorem fieldBuffer (buffer : SymbolId) (f : FieldId) :
    Parallel L Eq (fieldBuffer buffer f) (fieldBuffer buffer f) := by
  refine .bind (.symbolAt buffer) fun owner owner' howner => ?_
  have scope : owner.scope = owner'.scope := (congrArg Symbol.scope howner :)
  rw [UnitIndex.Alike.asTableBuffer?_congr howner]
  cases owner'.asTableBuffer? with
  | none => exact .breach _
  | some b =>
    dsimp only
    cases b.field? f with
    | some s => exact .pure rfl
    | none =>
      refine .bind (.fieldAt f) fun field field' hfield => ?_
      rw [scope]
      refine .seq (.createSymbol _ none (congrArg Field.name hfield :) rfl true) fun s => ?_
      exact .seq (.updateSymbol buffer fun _ _ h => Likeness.symbol_congr h rfl) fun _ => .pure rfl

theorem fieldOfBuffer? (buffer : SymbolId) {name name' : String} (h : L.text name = L.text name') :
    Parallel L Eq (fieldOfBuffer? buffer name) (fieldOfBuffer? buffer name') := by
  have last := Likeness.fold_congr (Likeness.lastSegment_congr h)
  have dotted : (Text.splitLast? name).isNone = (Text.splitLast? name').isNone := by
    have := congrArg Option.isNone (Likeness.splitLast?_congr h)
    simpa using this
  refine .bind .theIndex fun x y hx => ?_
  rw [hx.bufferField? buffer last, dotted]
  cases y.bufferField? buffer (Text.lastSegment name') with
  | some found => exact .seq (.fieldBuffer buffer found.item) fun _ => .pure rfl
  | none => exact .pure rfl

/-- The buffer is bound if that is asked for; either way it goes on. -/
theorem bindIf {V : α → β → Prop} (binding : Bool) (buffer : SymbolId)
    {k : Option BufferScopeId → WalkM α} {k' : Option BufferScopeId → WalkM β}
    (h : ∀ id, Parallel L V (k id) (k' id)) :
    Parallel L V
      (if binding then some <$> Walk.bindReference buffer >>= k else Pure.pure none >>= k)
      (if binding then some <$> Walk.bindReference buffer >>= k' else Pure.pure none >>= k') :=
  .ite Iff.rfl (.seq (.map (.bindReference buffer) fun _ _ h => congrArg some h) h)
    (.seq (.pure rfl) h)

theorem lookupQualified? {env env' : Env} (catalog : env.catalog = env'.catalog)
    {buffer buffer' field field' : String} (hbuffer : L.text buffer = L.text buffer')
    (hfield : L.text field = L.text field') (binding : Bool) :
    Parallel L Eq (lookupQualified? env buffer field binding)
      (lookupQualified? env' buffer' field' binding) := by
  refine .seq (.findBuffer? catalog hbuffer .buffer) fun found => ?_
  cases found with
  | none => exact .pure rfl
  | some b =>
    refine .bind .theIndex fun x y hx => ?_
    rw [hx.bufferField? b (Likeness.fold_congr hfield)]
    cases y.bufferField? b field' with
    | none => exact .pure rfl
    | some found =>
      refine .bindIf binding b fun bufferScope => ?_
      refine .seq (.fieldBuffer b found.item) fun s => .bind .theIndex fun x y hx => ?_
      rw [hx.isAbbreviatedTable b hbuffer]
      exact .pure rfl

theorem lookupBare? {name name' : String} (h : L.text name = L.text name') (binding : Bool) :
    Parallel L Eq (lookupBare? name binding) (lookupBare? name' binding) := by
  have fold := Likeness.fold_congr h
  refine .bind .theIndex fun x y hx => .seq .currentScope fun scope => ?_
  rw [hx.plainSymbol? scope fold]
  cases plainSymbol? y scope name' with
  | some s => exact .pure rfl
  | none =>
    refine .seq .currentBlock fun block => ?_
    rw [hx.boundField? block fold]
    cases boundField? y block name' with
    | some found => exact .seq (.fieldBuffer found.1 found.2.1.item) fun _ => .pure rfl
    | none =>
      dsimp only
      rw [hx.visibleField? scope fold]
      cases visibleField? y scope name' with
      | some found =>
        exact .bindIf binding found.1 fun _ =>
          .seq (.fieldBuffer found.1 found.2.item) fun _ => .pure rfl
      | none => exact .pure rfl

theorem lookupField? {env env' : Env} (catalog : env.catalog = env'.catalog)
    {name name' : String} (h : L.text name = L.text name') (binding : Bool) :
    Parallel L Eq (lookupField? env name binding) (lookupField? env' name' binding) := by
  have split := Likeness.splitLast?_congr h
  unfold Walk.lookupField?
  cases hp : Text.splitLast? name with
  | none =>
    cases hp' : Text.splitLast? name' with
    | none => exact .lookupBare? h binding
    | some p => rw [hp, hp'] at split; cases split
  | some p =>
    cases hp' : Text.splitLast? name' with
    | none => rw [hp, hp'] at split; cases split
    | some p' =>
      rw [hp, hp'] at split
      simp only [Option.map_some, Option.some.injEq, Prod.mk.injEq] at split
      exact .lookupQualified? catalog split.1 split.2 binding

end Parallel

end Walk

end AblResolve
