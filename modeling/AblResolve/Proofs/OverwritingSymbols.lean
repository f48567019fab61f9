import AblResolve.Proofs.Overwriting
/-!
Opening scopes and blocks, defining symbols and tables and looking names up, whatever was written
on the tree before. All of it is blind, and writes on no node but the one it is done for.
-/
namespace AblResolve

namespace Annotation.Overwrites

theorem symbol (s : SymbolId) : Overwrites fun a => { a with symbol := some s } :=
  fun _ _ _ _ h => { h with symbol := .same _ }

theorem scope (s : ScopeId) : Overwrites fun a => { a with scope := some s } :=
  fun _ _ _ _ h => { h with scope := .same _ }

theorem block (b : BlockId) : Overwrites fun a => { a with block := some b } :=
  fun _ _ _ _ h => { h with block := .same _ }

theorem place (s : ScopeId) (b : BlockId) :
    Overwrites fun a => { a with scope := some s, block := some b } :=
  fun _ _ _ _ h => { h with scope := .same _, block := .same _ }

theorem bufferScope (b : BufferScopeId) : Overwrites fun a => { a with bufferScope := some b } :=
  fun _ _ _ _ h => { h with bufferScope := .same _ }

theorem qualifier (q : Qualifier) : Overwrites fun a => { a with qualifier := some q } :=
  fun _ _ _ _ h => { h with qualifier := .same _ }

theorem member (s : SymbolId) (q : Qualifier) :
    Overwrites fun a => { a with symbol := some s, qualifier := some q } :=
  fun _ _ _ _ h => { h with symbol := .same _, qualifier := .same _ }

end Annotation.Overwrites

namespace Walk

open Annotation (Overwrites)

variable {α β : Type} (env : Env)

namespace Confined

variable {P : NodeId → Prop}

/-! ### Scopes and blocks -/

theorem currentScope : Confined P currentScope := by
  refine .get (fun _ _ => rfl) fun w => ?_
  cases w.scopeStack with
  | nil => exact .breach _
  | cons s _ => exact .pure s

theorem currentBlock : Confined P currentBlock := by
  refine .get (fun _ _ => rfl) fun w => ?_
  cases w.blockStack with
  | nil => exact .breach _
  | cons b _ => exact .pure b

theorem currentRoutine : Confined P currentRoutine := by
  refine .bind .theIndex fun x => .bind .currentScope fun s => ?_
  cases x.enclosingRoutine? s with
  | none => exact .breach _
  | some r => exact .pure r

theorem enterScope (s : ScopeId) {n : NodeId} (here : P n) : Confined P (enterScope s n) :=
  .bind (.scopeAt s) fun _ => .bind (.modify (fun _ _ => rfl) fun _ => rfl) fun _ =>
    .annotate here (.place s _)

theorem openScope (kind : ScopeKind) {n : NodeId} (here : P n) : Confined P (openScope kind n) :=
  .bind .currentScope fun _ => .bind .currentBlock fun _ => .bind .theIndex fun _ =>
    .bind (.modifyIndex _) fun _ => .bind (.enterScope _ here) fun _ => .pure _

theorem leaveScope : Confined P leaveScope := by
  refine .get (fun _ _ => rfl) fun w => .get (fun _ _ => rfl) fun v => ?_
  rcases w.scopeStack with _ | ⟨scope, scopes⟩
  · exact .breach _
  rcases v.blockStack with _ | ⟨block, blocks⟩
  · exact .breach _
  refine .bind (.modify (fun _ _ => rfl) fun _ => rfl) fun _ => ?_
  exact .bind (.scopeAt scope) fun _ => .bind (.demand _ _) fun _ => .demand _ _

theorem openBlock (kind : BlockKind) {n : NodeId} (here : P n) : Confined P (openBlock kind n) := by
  refine .bind .currentBlock fun _ => .bind .currentScope fun _ => .bind (.scopeAt _) fun _ => ?_
  refine .bind .theIndex fun _ => .bind (.demand _ _) fun _ => .bind .theIndex fun _ => ?_
  refine .bind (.modifyIndex _) fun _ => .bind (.modify (fun _ _ => rfl) fun _ => rfl) fun _ => ?_
  exact .annotate here (.block _)

theorem leaveBlock : Confined P leaveBlock := by
  refine .get (fun _ _ => rfl) fun w => ?_
  rcases w.blockStack with _ | ⟨block, blocks⟩
  · exact .breach _
  · refine .bind (.modify (fun _ _ => rfl) fun _ => rfl) fun _ => ?_
    exact .bind (.blockAt block) fun _ => .demand _ _

theorem addBufferScope (block : BlockId) (buffer : SymbolId) (strength : Strength) :
    Confined P (addBufferScope block buffer strength) :=
  .bind .theIndex fun _ => .bind (.modifyIndex _) fun _ => .bind (.updateBlock block _) fun _ =>
    .pure _

theorem bindReference (buffer : SymbolId) : Confined P (bindReference buffer) := by
  refine .bind .currentBlock fun block => .bind .theIndex fun x => ?_
  cases x.enclosingBufferScope? block buffer with
  | some id => exact .pure id
  | none =>
    cases x.recordBlock? block with
    | some target => exact .addBufferScope target buffer .reference
    | none => exact .breach _

theorem bindWeakly (buffer : SymbolId) : Confined P (bindWeakly buffer) := by
  refine .bind .currentBlock fun block => .bind .theIndex fun x => ?_
  cases (x.bufferScopesOf block).find? (x.scopesBuffer buffer) with
  | some id => exact .pure id
  | none => exact .addBufferScope block buffer .weak

/-! ### Symbols -/

/-- A symbol that is defined at no node. -/
theorem createHidden (scope : ScopeId) (name : String) (kind : SymbolKind) (attached : Bool) :
    Confined P (createSymbol scope none name kind attached) :=
  .bind .theIndex fun _ => .bind (.modifyIndex _) fun _ => .bind (.pure _) fun _ => .pure _

theorem createDefined (scope : ScopeId) {n : NodeId} (here : P n) (name : String)
    (kind : SymbolKind) (attached : Bool) :
    Confined P (createSymbol scope (some n) name kind attached) :=
  .bind .theIndex fun _ => .bind (.modifyIndex _) fun _ =>
    .bind (.annotate here (.symbol _)) fun _ => .pure _

theorem beginDefinition (s : SymbolId) : Confined P (beginDefinition s) :=
  .modify (fun _ _ => rfl) fun _ => rfl

theorem endDefinition (s : SymbolId) : Confined P (endDefinition s) := by
  refine .get (fun _ _ => rfl) fun w => ?_
  rcases w.openDefinitions with _ | ⟨innermost, outer⟩
  · exact .breach _
  · exact .ite (.modify (fun _ _ => rfl) fun _ => rfl) (.breach _)

theorem define {n : NodeId} (here : P n) (name : String) (kind : SymbolKind) :
    Confined P (define n name kind) :=
  .bind .currentScope fun _ => .bind (.createDefined _ here _ _ _) fun s =>
    .bind (.beginDefinition s) fun _ => .pure s

theorem namespaceOf (kind : SymbolKind) : Confined P (namespaceOf kind) := by
  cases kind with
  | fieldBuffer => exact .breach _
  | _ => exact .pure _

theorem attach (s : SymbolId) : Confined P (attach s) :=
  .bind (.symbolAt s) fun _ => .bind (.updateSymbol s _) fun _ =>
    .when (.bind (.namespaceOf _) fun _ => .updateScope _ _)

theorem noteReference (s : SymbolId) (q : Qualifier) : Confined P (noteReference s q) :=
  .updateSymbol s _

theorem updateType (s : SymbolId) (f : ValueType → ValueType) : Confined P (updateType s f) := by
  refine .bind (.symbolAt s) fun v => ?_
  cases v.kind with
  | «variable» => exact .updateSymbol s _
  | fieldBuffer => exact .updateField _ _
  | _ => exact .pure _

theorem setDataType (s : SymbolId) (type : DataType) (className : Option String) :
    Confined P (setDataType s type className) :=
  .updateType s _

theorem setExtent (s : SymbolId) (extent : Extent) : Confined P (setExtent s extent) :=
  .updateType s _

theorem copyType (source target : SymbolId) : Confined P (copyType source target) := by
  refine .bind .theIndex fun x => .bind (.symbolAt source) fun v => ?_
  dsimp only
  cases (x.typeOf v).dataType with
  | none => exact .setExtent target _
  | some t => exact .bind (.setDataType target t _) fun _ => .setExtent target _

theorem createRoutine (scope : ScopeId) {n : NodeId} (here : P n) (name : String)
    (routine : Routine) : Confined P (createRoutine scope n name routine) :=
  .bind (.createDefined _ here _ _ _) fun s => .bind (.updateScope _ _) fun _ =>
    .bind (.attach s) fun _ => .pure s

theorem updateRoutine (s : SymbolId) (f : Routine → Routine) : Confined P (updateRoutine s f) :=
  .updateSymbol s _

theorem addParameter (s : SymbolId) (mode : ParameterMode) (attaching : Bool) :
    Confined P (addParameter s mode attaching) := by
  refine .get (fun _ _ => rfl) fun w => ?_
  cases w.openEvent with
  | some event => exact .updateSymbol event _
  | none =>
    exact .after (.attach s) fun _ => .bind .currentRoutine fun r => .updateRoutine r _

/-! ### Looking names up -/

theorem namedBuffer? (name : String) : Confined P (namedBuffer? name) :=
  .bind .theIndex fun _ => .bind .currentScope fun _ => .pure _

theorem tempTableBuffer? (name : String) : Confined P (tempTableBuffer? name) :=
  .bind .theIndex fun _ => .pure _

theorem schemaTable (e : Catalog.Entry) : Confined P (schemaTable e) := by
  refine .bind .theIndex fun x => ?_
  cases x.schemaTable? e with
  | some t => exact .pure t
  | none => exact .bind (.modifyIndex _) fun _ => .pure _

theorem defaultBuffer (t : TableId) : Confined P (defaultBuffer t) := by
  refine .bind (.scopeAt _) fun root => ?_
  cases root.unnamedBuffer? t with
  | some buffer => exact .pure buffer
  | none =>
    exact .bind (.tableAt t) fun _ => .bind (.createHidden _ _ _ _) fun _ =>
      .bind (.updateScope _ _) fun _ => .pure _

theorem schemaBuffer? (name : String) : Confined P (schemaBuffer? env name) := by
  unfold Walk.schemaBuffer?
  cases env.catalog.table? name with
  | some e => exact .bind (.schemaTable e) fun t => .bind (.defaultBuffer t) fun _ => .pure _
  | none => exact .pure none

theorem findBuffer? (name : String) (lookup : RecordLookup) :
    Confined P (findBuffer? env name lookup) := by
  cases lookup with
  | buffer =>
    refine .bind (.namedBuffer? name) fun found => ?_
    cases found with
    | some buffer => exact .pure _
    | none =>
      refine .bind (.tempTableBuffer? name) fun found => ?_
      cases found with
      | some buffer => exact .pure _
      | none => exact .schemaBuffer? env name
  | tempTable => exact .tempTableBuffer? name
  | schemaTable => exact .schemaBuffer? env name

theorem fieldBuffer (buffer : SymbolId) (f : FieldId) : Confined P (fieldBuffer buffer f) := by
  refine .bind (.symbolAt buffer) fun owner => ?_
  cases owner.asTableBuffer? with
  | none => exact .breach _
  | some b =>
    dsimp only
    cases b.field? f with
    | some s => exact .pure s
    | none =>
      exact .bind (.fieldAt f) fun _ => .bind (.createHidden _ _ _ _) fun _ =>
        .bind (.updateSymbol buffer _) fun _ => .pure _

theorem fieldOfBuffer? (buffer : SymbolId) (name : String) :
    Confined P (fieldOfBuffer? buffer name) := by
  refine .bind .theIndex fun x => ?_
  cases x.bufferField? buffer (Text.lastSegment name) with
  | some found => exact .bind (.fieldBuffer buffer found.item) fun _ => .pure _
  | none => exact .pure none

/-- The buffer is bound if that is asked for; either way it goes on. -/
theorem bindIf (binding : Bool) (buffer : SymbolId) {k : Option BufferScopeId → WalkM α}
    (h : ∀ id, Confined P (k id)) :
    Confined P
      (if binding then some <$> Walk.bindReference buffer >>= k else Pure.pure none >>= k) :=
  .ite (.bind (.map some (.bindReference buffer)) h) (.bind (.pure none) h)

theorem lookupQualified? (buffer field : String) (binding : Bool) :
    Confined P (lookupQualified? env buffer field binding) := by
  refine .bind (.findBuffer? env buffer .buffer) fun found => ?_
  cases found with
  | none => exact .pure none
  | some b =>
    refine .bind .theIndex fun x => ?_
    cases x.bufferField? b field with
    | none => exact .pure none
    | some found =>
      refine .bindIf binding b fun bufferScope => ?_
      exact .bind (.fieldBuffer b found.item) fun _ => .bind .theIndex fun _ => .pure _

theorem lookupBare? (name : String) (binding : Bool) : Confined P (lookupBare? name binding) := by
  refine .bind .theIndex fun x => .bind .currentScope fun scope => ?_
  cases plainSymbol? x scope name with
  | some s => exact .pure _
  | none =>
    refine .bind .currentBlock fun block => ?_
    cases boundField? x block name with
    | some found => exact .bind (.fieldBuffer found.1 found.2.1.item) fun _ => .pure _
    | none =>
      dsimp only
      cases visibleField? x scope name with
      | some found =>
        exact .bindIf binding found.1 fun _ =>
          .bind (.fieldBuffer found.1 found.2.item) fun _ => .pure _
      | none => exact .pure none

theorem lookupField? (name : String) (binding : Bool) :
    Confined P (lookupField? env name binding) := by
  unfold Walk.lookupField?
  cases Text.splitLast? name with
  | none => exact .lookupBare? name binding
  | some p => exact .lookupQualified? env p.1 p.2 binding

/-! ### Tables -/

theorem openTable : Confined P openTable := by
  refine .get (fun _ _ => rfl) fun w => ?_
  cases w.tableDefinition with
  | some d => exact .pure d
  | none => exact .misplaced _

theorem updateOpenTable (f : TableDefinition → TableDefinition) : Confined P (updateOpenTable f) :=
  .bind .openTable fun _ => .modify (fun _ _ => rfl) fun _ => rfl

theorem takeOpenTable : Confined P takeOpenTable := by
  refine .get (fun _ _ => rfl) fun w => ?_
  cases w.tableDefinition with
  | some d => exact .bind (.modify (fun _ _ => rfl) fun _ => rfl) fun _ => .pure d
  | none => exact .breach _

theorem beginTable {n : NodeId} (here : P n) (name : String) (kind : TableKind) :
    Confined P (beginTable n name kind) := by
  refine .get (fun _ _ => rfl) fun w => ?_
  refine .after (.misplaced _) fun _ => ?_
  refine .bind .theIndex fun _ => .bind (.modifyIndex _) fun _ => ?_
  refine .bind (.createDefined _ here _ _ _) fun b => .bind (.attach b) fun _ => ?_
  exact .bind (.beginDefinition b) fun _ => .bind (.modify (fun _ _ => rfl) fun _ => rfl) fun _ =>
    .pure b

theorem appendFields (t : TableId) (fields : List FieldId) : Confined P (appendFields t fields) :=
  .bind (.tableAt t) fun _ => .after (.breach _) fun _ => .updateTable t _

theorem appendIndex (index : TableIndex) : Confined P (appendIndex index) :=
  .bind (.tableAt _) fun _ => .after (.breach _) fun _ => .bind .theIndex fun _ =>
    .bind (.modifyIndex _) fun _ => .bind (.updateTable _ _) fun _ => .pure _

theorem copyFields (source : TableId) : Confined P (copyFields source) := by
  refine .bind (.updateOpenTable _) fun _ => .bind .openTable fun _ => ?_
  refine .bind (.tableAt source) fun _ => .bind (.mapM fun f => .fieldAt f) fun _ => ?_
  exact .bind .theIndex fun _ => .bind (.modifyIndex _) fun _ => .appendFields _ _

theorem beginField {n : NodeId} (here : P n) (name : String) : Confined P (beginField n name) := by
  refine .bind .openTable fun d => .bind .theIndex fun _ => .bind (.modifyIndex _) fun _ => ?_
  refine .bind (.fieldBuffer _ _) fun s => .bind (.annotate here (.symbol s)) fun _ => ?_
  exact .bind (.updateSymbol s _) fun _ => .bind (.beginDefinition s) fun _ => .pure _

theorem joinField (f : FieldId) (s : SymbolId) : Confined P (joinField f s) :=
  .bind (.endDefinition s) fun _ => .bind .openTable fun _ => .bind (.updateField f _) fun _ =>
    .appendFields _ _

theorem addIndex (n : NodeId) : Confined P (addIndex env n) :=
  .bind .openTable fun _ => .bind (.appendIndex _) fun _ => .updateOpenTable _

theorem correspondingFields (t : TableId) (index : TableIndex) (location : Location)
    (fields : List FieldId) : Confined P (correspondingFields t index location fields) := by
  induction fields with
  | nil => exact .pure []
  | cons f fields ih =>
    refine .bind (.fieldAt f) fun field => .bind .theIndex fun x => ?_
    cases x.fieldNamed? t field.name with
    | some found => exact .bind ih fun _ => .pure _
    | none => exact .bind (.report _) fun _ => ih

theorem copyIndex (source : IndexId) (t : TableId) : Confined P (copyIndex env source t) := by
  refine .bind (.indexAt source) fun index => .bind (.tableAt t) fun table => ?_
  cases table.definitionNode with
  | none => exact .breach _
  | some n =>
    exact .bind (.correspondingFields _ _ _ _) fun _ => .bind (.appendIndex _) fun _ => .pure _

theorem inheritIndexes (d : TableDefinition) : Confined P (inheritIndexes env d) := by
  unfold Walk.inheritIndexes
  cases d.like with
  | none =>
    exact .forM fun _ _ => .bind (.tableAt _) fun _ => .report _
  | some source =>
    refine .ite (.forM fun p _ => .bind .theIndex fun x => ?_) (.when ?_)
    · cases x.indexNamed? source p.1 with
      | some index => exact .copyIndex env index d.table
      | none => exact .bind (.tableAt source) fun _ => .report _
    · exact .bind (.tableAt source) fun _ => .forM fun index _ => .copyIndex env index d.table

theorem finishTable (d : TableDefinition) : Confined P (finishTable env d) := by
  refine .bind (.inheritIndexes env d) fun _ => .bind (.forM fun p _ => ?_) fun _ =>
    .updateTable _ _
  refine .bind .theIndex fun x => ?_
  cases x.fieldNamed? d.table p.name with
  | some found => exact .updateTableIndex _ _
  | none => exact .bind (.indexAt _) fun _ => .report _

end Confined

end Walk

end AblResolve
