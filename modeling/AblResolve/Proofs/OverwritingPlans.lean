import Mathlib.Data.List.Basic
import AblResolve.Proofs.OverwritingSymbols
import AblResolve.Proofs.ReadBack
import AblResolve.Proofs.Visit
/-!
Entering nodes and doing actions, whatever was written on the tree before. To enter a node is
blind, and so are the actions that ask nothing. An action that asks what a node stands for gets the
same answer on both trees if the node has been found to stand for something, or if nothing was
written on it at first. All of them write on the node they belong to and on its children alone.
-/
namespace AblResolve.Walk

open Annotation (Overwrites)

variable {α β : Type} (env : Env) (n : NodeId)

namespace Confined

variable {P : NodeId → Prop}

/-! ### References -/

theorem bindRecord (buffer : SymbolId) (q : Qualifier) : Confined P (bindRecord buffer q) := by
  cases q with
  | init | ref | refUp | updating => exact .map some (.bindReference buffer)
  | initWeak => exact .map some (.bindWeakly buffer)
  | _ => exact .pure none

theorem bufferStore (buffer : SymbolId) : Confined P (bufferStore buffer) := by
  refine .bind .theIndex fun x => ?_
  cases x.bufferTable? buffer with
  | some t => exact .bind (.tableAt t) fun _ => .pure _
  | none => exact .breach _

theorem enterRecord (here : P n) : Confined P (enterRecord env n) := by
  refine .bind (.takeQualifier env n) fun q => .bind (.findBuffer? env _ _) fun found => ?_
  cases found with
  | none => exact .throw _
  | some buffer =>
    refine .bind (.bindRecord buffer q) fun _ => .bind (.noteReference buffer q) fun _ => ?_
    refine .bind (.bufferStore buffer) fun _ => .bind .theIndex fun _ => ?_
    refine .bind (.annotate here fun _ _ _ _ h => ?_) fun _ =>
      .bind (.modify (fun _ _ => rfl) fun _ => rfl) fun _ => .pure _
    exact { h with
      symbol := .same _
      qualifier := .same _
      store := .same _
      bufferScope := .same _
      abbreviated := h.abbreviated.or _ }

theorem storeOf (s : SymbolId) : Confined P (storeOf s) := by
  refine .bind (.symbolAt s) fun v => ?_
  cases v.kind with
  | fieldBuffer f => exact .map some (.bufferStore f.buffer)
  | _ => exact .pure _

theorem annotateField (here : P n) (found : FieldLookup) (q : Qualifier) :
    Confined P (annotateField n found q) := by
  refine .bind (.storeOf found.symbol) fun store => ?_
  refine .bind (.annotate here fun _ _ _ _ h => ?_) fun _ =>
    .bind (.noteReference found.symbol q) fun _ => .bind (.symbolAt found.symbol) fun v => ?_
  · exact { h with
      symbol := .same _
      qualifier := .same _
      store := .same _
      bufferScope := .same _
      unqualified := h.unqualified.or _
      abbreviated := h.abbreviated.or _ }
  · cases v.kind with
    | fieldBuffer f => exact .noteReference f.buffer q
    | _ => exact .pure _

theorem addUnresolved (name : String) : Confined P (addUnresolved n name) :=
  .bind .currentScope fun _ => .modifyIndex _

theorem missingField (buffer : SymbolId) (name : String) :
    Confined P (missingField env n buffer name) :=
  .when (.bind (.symbolAt buffer) fun _ => .bind (.report _) fun _ => .addUnresolved n name)

theorem defineInline (here : P n) : Confined P (defineInline env n) :=
  .bind .currentScope fun _ => .bind (.createDefined _ here _ _ _) fun s => .attach s

theorem hintedBuffer? (h : TableHint) : Confined P (hintedBuffer? h) := by
  cases h with
  | any => exact .pure none
  | last => exact .get (fun _ _ => rfl) fun _ => .pure _
  | previous => exact .get (fun _ _ => rfl) fun _ => .pure _

theorem resolveField (here : P n) (q : Qualifier) (h : TableHint) :
    Confined P (resolveField env n q h) := by
  refine .bind (.hintedBuffer? h) fun hinted => ?_
  cases hinted with
  | some buffer =>
    refine .bind (.fieldOfBuffer? buffer _) fun found => ?_
    cases found with
    | some found => exact .annotateField n here found q
    | none => exact .missingField env n buffer _
  | none =>
    refine .bind (.lookupField? env _ _) fun found => ?_
    cases found with
    | some found => exact .annotateField n here found q
    | none => exact .addUnresolved n _

theorem enterField (here : P n) : Confined P (enterField env n) := by
  refine .bind (.takeQualifier env n) fun q => .bind (.takeHint n) fun h => ?_
  have sought : Confined P (do Walk.resolveField env n q h; return Plan.plain env.tree n) :=
    .bind (.resolveField env n here q h) fun _ => .pure _
  exact .ite (.after (.defineInline env n here) fun _ => sought) (.pure _)

theorem widgetSymbol? : Confined P (widgetSymbol? env n) := by
  refine .bind .theIndex fun x => .bind .currentScope fun scope => ?_
  refine .ite ?_ (.ite (.pure _) (.ite (.pure _) (.pure _)))
  split
  · exact .pure _
  · exact .bind (.report _) fun _ => .pure _

theorem enterWidgetName (here : P n) : Confined P (enterWidgetName env n) := by
  refine .bind (.widgetSymbol? env n) fun found => ?_
  cases found with
  | some s =>
    exact .bind (.noteReference s .symbol) fun _ => .bind (.annotate here (.symbol s)) fun _ =>
      .pure _
  | none => exact .pure _

theorem referToMember {member : NodeId} (there : P member) (q : Qualifier) :
    Confined P (referToMember env member q) := by
  refine .bind .theIndex fun x => .bind .currentScope fun scope => ?_
  cases x.resolveVariable? scope (env.tree.text member) with
  | some s => exact .bind (.noteReference s q) fun _ => .annotate there (.member s q)
  | none => exact .pure _

theorem enterWidgetAttribute (below : ∀ c ∈ env.tree.children n, P c) :
    Confined P (enterWidgetAttribute env n) := by
  refine .bind (.takeQualifier env n) fun q => ?_
  cases env.tree.childList n with
  | nil => exact .pure _
  | cons target rest =>
    refine .bind .theIndex fun x => .ite ?_ (.pure _)
    cases hmember : memberNode? env n rest with
    | some member =>
      have there := below member (memberNode?_eq_some env n hmember).1
      exact .bind (.referToMember env there q) fun _ => .pure _
    | none => exact .pure _

/-! ### Routines and blocks -/

theorem enterRoutine (here : P n) (name : String) (kind : RoutineKind) (scopeKind : ScopeKind) :
    Confined P (enterRoutine env n name kind scopeKind) :=
  .bind .currentScope fun _ => .bind (.openScope _ here) fun _ =>
    .bind (.createRoutine _ here name _) fun _ => .pure _

theorem takeForward (key : String) : Confined P (takeForward key) :=
  .get (fun _ _ => rfl) fun _ => .bind (.modify (fun _ _ => rfl) fun _ => rfl) fun _ => .pure _

theorem enterForwardBody (here : P n) (routine : SymbolId) :
    Confined P (enterForwardBody env n routine) := by
  refine .bind (.symbolAt routine) fun s => ?_
  cases s.asRoutine? with
  | none => exact .breach _
  | some r =>
    exact .bind (.updateSymbol routine _) fun _ => .bind (.annotate here (.symbol routine)) fun _ =>
      .bind (.enterScope r.body here) fun _ => .pure _

theorem enterFreshFunction (here : P n) (forwardNode : Option NodeId) :
    Confined P (enterFreshFunction env n forwardNode) :=
  .bind .currentScope fun _ => .bind (.openScope _ here) fun _ =>
    .bind (.createRoutine _ here _ _) fun _ => .pure _

theorem enterFunction (here : P n) : Confined P (enterFunction env n) := by
  have fresh : ∀ forwardNode,
      Confined P (do return (← Walk.enterFreshFunction env n forwardNode).2) :=
    fun forwardNode => .bind (.enterFreshFunction env n here forwardNode) fun _ => .pure _
  refine .ite ?_ (.bind (.takeForward _) fun found => ?_)
  · exact .bind (.enterFreshFunction env n here _) fun _ =>
      .bind (.modify (fun _ _ => rfl) fun _ => rfl) fun _ => .pure _
  · cases found with
    | none => exact fresh none
    | some routine =>
      exact .ite (.bind (.symbolAt routine) fun _ => fresh _) (.enterForwardBody env n here routine)

theorem enterTrigger (here : P n) : Confined P (enterTrigger env n) :=
  .bind (.openScope _ here) fun _ => .pure _

theorem enterCatch (here : P n) : Confined P (enterCatch env n) :=
  .bind (.openScope _ here) fun _ => .bind (.define here _ _) fun _ => .pure _

theorem enterClass (here : P n) (kind : ScopeKind) : Confined P (enterClass env n kind) :=
  .after (.report _) fun _ => .bind (.updateScope _ _) fun _ => .bind (.annotate here (.scope _))
    fun _ => .pure _

theorem enterBlock (here : P n) (kind : BlockKind) (steps : List (Step env.tree n)) :
    Confined P (enterBlock env n kind steps) :=
  .bind (.openBlock kind here) fun _ => .pure _

/-! ### Definitions and their clauses -/

theorem enterDefinition (here : P n) (kind : SymbolKind) (complete : SymbolId → List Action) :
    Confined P (enterDefinition env n kind complete) :=
  .bind (.define here _ kind) fun _ => .pure _

theorem enterProperty (here : P n) : Confined P (enterProperty env n) := by
  refine .bind (.define here _ _) fun s => ?_
  dsimp only
  split <;> exact .pure _

theorem enterEvent (here : P n) : Confined P (enterEvent env n) :=
  .bind (.define here _ _) fun _ => .get (fun _ _ => rfl) fun _ =>
    .bind (.modify (fun _ _ => rfl) fun _ => rfl) fun _ => .pure _

theorem enterWidget (here : P n) (kind : WidgetKind) : Confined P (enterWidget env n kind) :=
  .bind (.define here _ _) fun _ => .pure _

theorem enterAggregate (here : P n) : Confined P (enterAggregate env n) :=
  .bind .currentScope fun _ => .bind (.createDefined _ here _ _ _) fun s =>
    .bind (.attach s) fun _ => .pure _

theorem clauseTarget (m : Misplacement) : Confined P (clauseTarget m) := by
  refine .get (fun _ _ => rfl) fun w => ?_
  cases w.openDefinitions with
  | nil => exact .misplaced m
  | cons s _ => exact .pure s

theorem enterAs : Confined P (enterAs env n) := by
  refine .bind (.clauseTarget _) fun s => ?_
  cases clauseType? env n with
  | some type => exact .bind (.setDataType s type.1 type.2) fun _ => .pure _
  | none => exact .pure _

theorem enterReturns : Confined P (enterReturns env n) := by
  unfold Walk.enterReturns
  cases clauseType? env n with
  | some type => exact .bind .currentRoutine fun r => .bind (.updateRoutine r _) fun _ => .pure _
  | none => exact .pure _

theorem enterLike : Confined P (enterLike env n) := by
  refine .bind (.clauseTarget _) fun s => ?_
  cases env.tree.childOfKind? n .field <;> exact .pure _

theorem enterExtent : Confined P (enterExtent env n) :=
  .bind (.clauseTarget _) fun s => .bind (.setExtent s _) fun _ => .pure _

theorem enterTable (here : P n) (kind : TableKind) : Confined P (enterTable env n kind) :=
  .bind (.beginTable here _ kind) fun _ => .pure _

theorem enterTableLike : Confined P (enterTableLike env n) := by
  unfold Walk.enterTableLike
  cases env.tree.childOfKind? n .record <;> exact .pure _

theorem enterTableField (here : P n) : Confined P (enterTableField env n) :=
  .bind (.beginField here _) fun _ => .pure _

/-! ### Phrases -/

theorem enterFieldList (q : Qualifier) : Confined P (enterFieldList env n q) :=
  .get (fun _ _ => rfl) fun _ => .pure _

theorem enterExpression (here : P n) : Confined P (enterExpression env n) :=
  .bind (.takeQualifier env n) fun q => .bind (.annotate here (.qualifier q)) fun _ => .pure _

theorem enterMemoryFunction (here : P n) : Confined P (enterMemoryFunction env n) :=
  .bind (.takeQualifier env n) fun q => .bind (.annotate here (.qualifier q)) fun _ => .pure _

/-! ### All kinds -/

/-- To enter a node is to write on it, or on a child that is the member of an object. -/
theorem enter (here : P n) (below : ∀ c ∈ env.tree.children n, P c) :
    Confined P (enter env n) := by
  unfold Walk.enter
  dsimp only
  cases env.tree.kind n with
  | classStatement | interfaceStatement => exact .enterClass env n here _
  | doBlock | repeatBlock | forBlock => exact .enterBlock env n here _ _
  | procedureStatement | methodStatement | constructorStatement | destructorStatement
  | propertyAccessor => exact .enterRoutine env n here _ _ _
  | functionStatement => exact .enterFunction env n here
  | onStatement => exact .enterTrigger env n here
  | catchBlock => exact .enterCatch env n here
  | defineVariable | defineParameter | functionParameter | defineBrowse =>
    exact .enterDefinition env n here _ _
  | defineProperty => exact .enterProperty env n here
  | defineTempTable | defineWorkTable => exact .enterTable env n here _
  | defineEvent => exact .enterEvent env n here
  | defineWidget widget => exact .enterWidget env n here widget
  | asClause => exact .enterAs env n
  | likeClause => exact .enterLike env n
  | extentClause => exact .enterExtent env n
  | returnsClause => exact .enterReturns env n
  | tableLike => exact .enterTableLike env n
  | tableUseIndex => exact .bind (.updateOpenTable _) fun _ => .pure _
  | tableField => exact .enterTableField env n here
  | tableIndex => exact .bind (.addIndex env n) fun _ => .pure _
  | keyFields | fieldsPhrase | exceptPhrase | usingPhrase => exact .enterFieldList env n _
  | aggregateOption => exact .enterAggregate env n here
  | recordPhrase => exact .bind (.takeQualifier env n) fun _ => .pure _
  | formItem | expression => exact .enterExpression env n here
  | memoryManagementFunction => exact .enterMemoryFunction env n here
  | widgetAttribute => exact .enterWidgetAttribute env n below
  | widgetName => exact .enterWidgetName env n here
  | field => exact .enterField env n here
  | record => exact .enterRecord env n here
  | _ => exact .pure _

theorem prepare {n : NodeId} (step : Step env.tree n) : Confined P (prepare env step) := by
  unfold Walk.prepare
  cases step.qualifier with
  | none =>
    cases step.hint with
    | none => exact .pure ()
    | some h => exact .hint _ h
  | some q =>
    refine .bind (.qualify env _ q) fun _ => ?_
    cases step.hint with
    | none => exact .pure ()
    | some h => exact .hint _ h

end Confined

theorem blind_enter : Blind (enter env n) :=
  (Confined.enter (P := fun _ => True) env n trivial fun _ _ => trivial).blind

theorem blind_prepare {n : NodeId} (step : Step env.tree n) : Blind (prepare env step) :=
  (Confined.prepare (P := fun _ => True) env step).blind

/-! ### What nodes stand for -/

/-- What node `f` stands for is the same on both trees: it has been found out since, or the same
was written on it at first. -/
def Known (o o' : Annotations) (w : Walk) (f : NodeId) : Prop :=
  (w.notes.get f).symbol ≠ (o.get f).symbol ∨ (o'.get f).symbol = (o.get f).symbol

section Known

variable {env n} {o o' : Annotations} {w w' : Walk} {f : NodeId}

theorem Known.symbol_eq (h : Known o o' w f) {N : Annotations}
    (kept : Annotations.Kept o o' w.notes N) : (N.get f).symbol = (w.notes.get f).symbol := by
  rcases (kept.get f).symbol with same | ⟨old, old'⟩
  · exact same.symm
  · exact h.elim (absurd old) fun hsame => old'.trans (hsame.trans old.symm)

theorem Known.of_eq (h : Known o o' w f)
    (same : (w'.notes.get f).symbol = (w.notes.get f).symbol) : Known o o' w' f := by
  rwa [Known, same]

/-- A node that has been found to stand for something, if the symbols written on the first tree are
written on the other, too. -/
theorem Known.of_some {s : SymbolId} (sub : o.SymbolsIn o')
    (found : (w.notes.get f).symbol = some s) : Known o o' w f := by
  cases old : (o.get f).symbol with
  | none => exact .inl (by rw [found, old]; exact nofun)
  | some t => exact .inr ((sub f t old).trans old.symm)

end Known

/-- The computation asks nothing that is written on the tree but what the nodes in `A` stand for,
and writes on nodes in `P` only. -/
structure Asking (A P : NodeId → Prop) (m : WalkM α) : Prop where
  repeats : ∀ {o o' : Annotations} {w : Walk}, (∀ f, A f → Known o o' w f) → Repeats o o' m w
  writes : Writes P m

namespace Asking

variable {A P : NodeId → Prop} {f : NodeId}

theorem of_confined {m : WalkM α} (h : Confined P m) : Asking A P m :=
  ⟨fun _ => h.blind.repeats, h.writes⟩

theorem confined {m : WalkM α} (h : Asking A P m) (none : ∀ f, ¬ A f) : Confined P m :=
  ⟨fun _ _ _ => h.repeats fun f hf => absurd hf (none f), h.writes⟩

theorem bind {m : WalkM β} {k : β → WalkM α} (h : Asking A P m) (rest : ∀ b, Confined P (k b)) :
    Asking A P (m >>= k) :=
  ⟨fun known => (h.repeats known).bind fun b _ _ => (rest b).blind.repeats,
    .bind h.writes fun b => (rest b).writes⟩

/-- What a node stands for is asked, and then nothing else that is written on the tree. -/
theorem reading (asked : A f) {k : Annotation → WalkM α}
    (only : ∀ a a', a.symbol = a'.symbol → k a = k a') (rest : ∀ a, Confined P (k a)) :
    Asking A P (do k (← annotation f)) := by
  refine ⟨fun {o o' w} known N kept => ?_, .bind (.get fun _ => .pure _) fun a => (rest a).writes⟩
  show Concur o o' (k (w.notes.get f) w) (k (N.get f) { w with notes := N })
  rw [only _ _ ((known f asked).symbol_eq kept)]
  exact (rest _).blind o o' w N kept

theorem recordBuffer (asked : A f) : Asking A P (recordBuffer f) := by
  refine .reading asked (fun a a' same => ?_) fun a => ?_
  · rw [same]
  · cases a.symbol with
    | some b => exact .pure b
    | none => exact .breach _

end Asking

/-! ### Actions -/

/-- The records that an action asks what they stand for. -/
def Action.records : Action → List NodeId
  | .copyFields r | .addTableParameter r _ | .bindStrongly r => [r]
  | .defineBuffer _ r | .addBufferParameter _ r => r.toList
  | _ => []

/-- The nodes that an action writes on. -/
def Action.sites : Action → List NodeId
  | .bindStrongly r => [r]
  | .defineBuffer definition _ | .addBufferParameter definition _ => [definition]
  | _ => []

theorem Confined.bufferTable {P : NodeId → Prop} (buffer : SymbolId) :
    Confined P (bufferTable buffer) := by
  refine .bind .theIndex fun x => ?_
  cases x.bufferTable? buffer with
  | some t => exact .pure t
  | none => exact .breach _

section Actions

variable {env n} {A P : NodeId → Prop} {o o' : Annotations} {w : Walk}

theorem asking_createBuffer (here : P n) {record : Option NodeId}
    (asked : ∀ r ∈ record.toList, A r) : Asking A P (createBuffer env n record) := by
  cases record with
  | none => exact .of_confined (.misplaced _)
  | some r =>
    refine .bind (.recordBuffer (asked r (by simp))) fun b => ?_
    exact .bind (.bufferTable b) fun _ => .bind .currentScope fun _ => .createDefined _ here _ _ _

theorem asking_setColumns {browse : SymbolId} {columns : List NodeId}
    (asked : ∀ f ∈ columns, A f) : Asking A P (setColumns browse columns) := by
  have update : ∀ f, Confined P (updateSymbol browse f) := .updateSymbol browse
  refine ⟨fun {o o' w} known N kept => ?_, .get fun _ => (update _).writes⟩
  have same : columns.filterMap (fun c => (N.get c).symbol) =
      columns.filterMap fun c => (w.notes.get c).symbol :=
    List.filterMap_congr fun c hc => (known c (asked c hc)).symbol_eq kept
  show Concur o o' _ (updateSymbol browse _ { w with notes := N })
  rw [same]
  exact (update _).blind o o' w N kept

/-- What an action asks and where it writes. -/
theorem asking_perform {action : Action} (fields : ∀ f ∈ action.fields, A f)
    (records : ∀ r ∈ action.records, A r) (sites : ∀ m ∈ action.sites, P m) :
    Asking A P (perform env action) := by
  have asksNothing : ∀ {m : WalkM Unit}, Confined P m → Asking A P m := .of_confined
  cases action with
  | leaveScope => exact asksNothing .leaveScope
  | leaveBlock => exact asksNothing .leaveBlock
  | endDefinition s => exact asksNothing (.endDefinition s)
  | attach s => exact asksNothing (.attach s)
  | addParameter s mode => exact asksNothing (.addParameter s mode true)
  | closeEvent outer => exact asksNothing (.modify (fun _ _ => rfl) fun _ => rfl)
  | joinField f s => exact asksNothing (.joinField f s)
  | closeTable b =>
    exact asksNothing (.bind .takeOpenTable fun d => .bind (.endDefinition b) fun _ =>
      .finishTable env d)
  | abandonTable b => exact asksNothing (.bind .takeOpenTable fun _ => .endDefinition b)
  | copyType f target =>
    refine .reading (fields f (List.mem_singleton_self _)) (fun a a' same => ?_) fun a => ?_
    · rw [same]
    · cases a.symbol with
      | some s => exact .copyType s target
      | none => exact .report _
  | countUse f q =>
    refine .reading (fields f (List.mem_singleton_self _)) (fun a a' same => ?_) fun a => ?_
    · rw [same]
    · cases a.symbol with
      | some s => exact .noteReference s q
      | none => exact .pure _
  | setColumns browse columns => exact asking_setColumns fields
  | copyFields r =>
    exact .bind (.recordBuffer (records r (List.mem_singleton_self _))) fun b =>
      .bind (.bufferTable b) fun t => .copyFields t
  | defineBuffer definition record =>
    exact .bind (asking_createBuffer (sites _ (List.mem_singleton_self _)) records) fun b =>
      .attach b
  | addBufferParameter definition record =>
    refine .bind (asking_createBuffer (sites _ (List.mem_singleton_self _)) records) fun b => ?_
    refine .bind (.addParameter b .buffer true) fun _ => ?_
    exact .bind .currentScope fun s => .bind (.scopeAt s) fun scope =>
      .bind (.addBufferScope _ b .reference) fun _ => .pure _
  | addTableParameter r mode =>
    refine .bind (.recordBuffer (records r (List.mem_singleton_self _))) fun b => ?_
    exact .bind (.symbolAt b) fun _ => .bind (.demand _ _) fun _ => .addParameter b mode false
  | bindStrongly r =>
    refine .bind (.recordBuffer (records r (List.mem_singleton_self _))) fun b => ?_
    refine .bind .currentBlock fun _ => .bind (.addBufferScope _ b .strong) fun id => ?_
    exact .annotate (sites r (List.mem_singleton_self _)) (.bufferScope id)

/-- An action comes to the same if the nodes that it asks are known. -/
theorem repeats_perform {action : Action} (fields : ∀ f ∈ action.fields, Known o o' w f)
    (records : ∀ r ∈ action.records, Known o o' w r) : Repeats o o' (perform env action) w :=
  (asking_perform (P := fun _ => True) fields records fun _ _ => trivial).repeats fun _ => id

theorem writes_performAll {actions : List Action} (sites : ∀ a ∈ actions, ∀ m ∈ a.sites, P m) :
    Writes P (performAll env actions) :=
  .forM fun a ha => (asking_perform (A := fun _ => True) (fun _ _ => trivial) (fun _ _ => trivial)
    (sites a ha)).writes

/-- An action asks only records that have been visited. -/
theorem Act.records_done {x : UnitIndex} {F₀ F F' : Frame} {done : List NodeId} {action : Action}
    (act : Act env n x F₀ done F action F') : ∀ r ∈ action.records, r ∈ done := by
  intro r hr
  cases act with
  | copyFields kind visited | addTableParameter F mode visited
  | bindStrongly kind child record visited =>
    exact List.mem_singleton.1 hr ▸ visited
  | defineBuffer F kind same visited | addBufferParameter F kind same visited =>
    exact visited r (Option.mem_toList.1 hr)
  | _ => simp [Action.records] at hr

/-- What closes a node again after a failure asks nothing and writes on no node. -/
theorem Opened.confined {x : UnitIndex} {F F' : Frame} {undo : List Action}
    (h : Opened env.tree x F F' undo) : Confined P (performAll env undo) := by
  have quiet : ∀ a ∈ undo, a.fields = [] ∧ a.records = [] ∧ a.sites = [] := by
    cases h <;> simp [Action.fields, Action.records, Action.sites]
  refine .forM fun a ha => ?_
  obtain ⟨fields, records, sites⟩ := quiet a ha
  refine (asking_perform (A := fun _ => False) ?_ ?_ ?_).confined fun _ => id
  · simp [fields]
  · simp [records]
  · simp [sites]

theorem Opened.confined_undo {x : UnitIndex} {F F' : Frame} {step : Step env.tree n}
    (h : Opened env.tree x F F' step.onFailure) (f : Fault) : Confined P (step.undo env f) :=
  .after h.confined fun _ => .throw f

/-- Several actions come to the same if the fields that they ask are known. The records that they
ask have been visited and so stand for something. -/
theorem Acts.repeats {x : UnitIndex} {F₀ F F' : Frame} {done : List NodeId}
    {actions : List Action} (sub : o.SymbolsIn o')
    (acts : Acts env n x F₀ done F actions F') (ext : x.Extends w.index) (hs : Sound w)
    (hframe : w.frame = F) (hscope : F₀.scope.val < w.index.scopes.size)
    (resolved : ∀ r ∈ done, env.tree.kind r = .record ∧ Resolved w F₀.scope r)
    (fields : ∀ a ∈ actions, ∀ f ∈ a.fields, f ≠ n ∧ Known o o' w f) :
    Repeats o o' (performAll env actions) w := by
  induction acts generalizing w with
  | nil F => exact Blind.repeats (.pure _)
  | cons act rest ih =>
    subst hframe
    refine Repeats.bind (repeats_perform (fun f hf => (fields _ List.mem_cons_self f hf).2)
      fun r hr => ?_) fun _ w₁ hfirst => ?_
    · obtain ⟨b, hb, -⟩ := (resolved r (act.records_done r hr)).2
      exact .of_some sub hb
    have ends := ends_perform env n hs (act.extends ext) fun r hr => (resolved r hr).2
    obtain ⟨first, hframe₁⟩ := ends.ok hfirst
    have loc := first.isLocal
    refine ih (ext.trans loc.ext) (loc.sound hs) hframe₁ (loc.ext.scopes.lt_size hscope) ?_ ?_
    · intro r hr
      obtain ⟨hkind, h⟩ := resolved r hr
      exact ⟨hkind, h.of_ext hs hscope loc.ext (loc.meaning r (.inr (by simp [hkind])))⟩
    · intro a ha f hf
      obtain ⟨hne, known⟩ := fields a (List.mem_cons_of_mem _ ha) f hf
      exact ⟨hne, known.of_eq (congrArg (·.1) (loc.meaning f (.inl hne)))⟩

end Actions

end AblResolve.Walk
