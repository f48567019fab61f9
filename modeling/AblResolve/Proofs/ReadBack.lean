import AblResolve.Proofs.Steps
/-!
What plans read back. A plan writes about the node it belongs to and about its children, and
mostly asks nothing of what is written there. The fields below LIKE clauses, the columns of browses
and the handles that a call writes to are asked, after their visit, what they stand for. Every plan
is gone through once: `enter_honest` says of each what it reads back and whom it gives a hint.
-/
namespace AblResolve.Walk

variable {α β : Type} {env : Env} {n : NodeId}

/-- A field that is asked, after its visit, what it stands for. -/
inductive ReadBack (env : Env) : NodeId → Prop
  /-- The source of a LIKE clause. -/
  | like {n f : NodeId} (kind : env.tree.kind n = .likeClause)
      (first : env.tree.childOfKind? n .field = some f) : ReadBack env f
  /-- A column of a browse. -/
  | column {n f : NodeId} (kind : env.tree.kind n = .defineBrowse)
      (column : f ∈ browseColumns env n) : ReadBack env f
  /-- A handle that is passed in a mode that writes. -/
  | handle {n f : NodeId} (kind : (env.tree.kind n).isHandle) (child : f ∈ env.tree.children n)
      (field : env.tree.kind f = .field) (writes : (handleMode env n).isWrite) : ReadBack env f

/-- The fields that an action asks what they stand for. -/
def Action.fields : Action → List NodeId
  | .copyType field _ | .countUse field _ => [field]
  | .setColumns _ columns => columns
  | _ => []

/-! ### Plans that read nothing back -/

/-- A step that reads nothing back and gives no hint. -/
structure Step.Silent {t : ParseTree} (s : Step t n) : Prop where
  before : ∀ a ∈ s.before, a.fields = []
  after : ∀ a ∈ s.after, a.fields = []
  hint : s.hint = none

/-- A plan that reads nothing back and gives no hint. -/
structure Plan.Silent {t : ParseTree} (p : Plan t n) : Prop where
  steps : ∀ s ∈ p.steps, s.Silent
  leave : ∀ a ∈ p.leave, a.fields = []

section Silent

variable {t : ParseTree} {steps : List (Step t n)} {leave : List Action}

theorem Step.Silent.told (c : t.Child n) (q : Option Qualifier) :
    ({ child := c, qualifier := q } : Step t n).Silent :=
  ⟨by simp, by simp, rfl⟩

theorem Step.Silent.guard {s : Step t n} (h : s.Silent) (undo : List Action) :
    (s.guard undo).Silent :=
  ⟨h.before, h.after, h.hint⟩

theorem silent_map {f : t.Child n → Step t n} {cs : List (t.Child n)} (h : ∀ c, (f c).Silent) :
    ∀ s ∈ cs.map f, s.Silent := by
  intro s hs
  obtain ⟨c, -, rfl⟩ := List.mem_map.1 hs
  exact h c

theorem silent_plainSteps : ∀ s ∈ plainSteps t n, s.Silent := silent_map fun c => .told c none

theorem silent_operandSteps (first rest : Qualifier) :
    ∀ s ∈ operandSteps t n first rest, s.Silent := by
  unfold operandSteps
  generalize t.childList n = cs
  induction cs generalizing first with
  | nil => simp [operandSteps.go]
  | cons c cs ih =>
    intro s hs
    unfold operandSteps.go at hs
    split at hs
    · rcases List.mem_cons.1 hs with rfl | hs
      · exact .told c _
      · exact ih rest s hs
    · rcases List.mem_cons.1 hs with rfl | hs
      · exact .told c none
      · exact ih first s hs

theorem Plan.Silent.done : (Plan.done : Plan t n).Silent :=
  ⟨by simp [Plan.done], by simp [Plan.done]⟩

theorem Plan.Silent.of_steps (h : ∀ s ∈ steps, s.Silent) : ({ steps } : Plan t n).Silent :=
  ⟨h, by simp⟩

theorem Plan.Silent.around (h : ∀ s ∈ steps, s.Silent) (undo : List Action)
    (quiet : ∀ a ∈ leave, a.fields = []) : (Plan.around steps undo leave).Silent := by
  refine ⟨fun s hs => ?_, quiet⟩
  obtain ⟨s', hs', rfl⟩ := List.mem_map.1 hs
  exact (h s' hs').guard undo

end Silent

/-! ### What a computation gives -/

/-- If the computation gives a result, it is such. -/
def Yields (m : WalkM α) (P : α → Prop) : Prop := ∀ w, Ends m w (fun _ _ => True) fun a _ => P a

namespace Yields

variable {P : α → Prop} {U : β → Prop} {m : WalkM β} {f : β → WalkM α}

theorem pure {a : α} (h : P a) : Yields (pure a) P := fun _ => h

theorem throw (fault : Fault) : Yields (throw fault : WalkM α) P := fun _ => trivial

theorem seq (h : Yields m U) (k : ∀ b, U b → Yields (f b) P) : Yields (m >>= f) P := by
  intro w
  rw [ends_bind]
  exact (h w).mono (fun _ _ => id) fun b w' hb => k b hb w'

/-- What goes before does not matter. -/
theorem bind (h : ∀ b, Yields (f b) P) : Yields (m >>= f) P := by
  refine seq (U := fun _ => True) (fun w => ?_) fun b _ => h b
  unfold Ends
  split <;> trivial

theorem ok {w w' : Walk} {b : β} (h : Yields m U) (hm : m w = .ok b w') : U b := (h w).ok hm

end Yields

/-! ### Nodes that read nothing back -/

section Enter

variable (env n)

theorem silent_scopedPlan : (scopedPlan env n).Silent :=
  .around silent_plainSteps _ (by simp [Action.fields])

/-! Many handlers give the same plan whatever they come to. -/

section Handlers

variable {P : Plan env.tree n → Prop}

theorem yields_enterRoutine (h : P (scopedPlan env n)) (name : String) (kind : RoutineKind)
    (scopeKind : ScopeKind) : Yields (enterRoutine env n name kind scopeKind) P :=
  .bind fun _ => .bind fun _ => .bind fun _ => .pure h

theorem yields_enterFreshFunction (h : P (scopedPlan env n)) (forwardNode : Option NodeId) :
    Yields (enterFreshFunction env n forwardNode) fun p => P p.2 :=
  .bind fun _ => .bind fun _ => .bind fun _ => .pure h

theorem yields_enterForwardBody (h : P (scopedPlan env n)) (routine : SymbolId) :
    Yields (enterForwardBody env n routine) P := by
  refine .bind fun symbol => ?_
  cases symbol.asRoutine? with
  | none => exact .throw _
  | some r => exact .bind fun _ => .bind fun _ => .bind fun _ => .pure h

theorem yields_enterFunction (h : P (scopedPlan env n)) : Yields (enterFunction env n) P := by
  have fresh : ∀ forwardNode, Yields (do return (← enterFreshFunction env n forwardNode).2) P :=
    fun forwardNode => .seq (yields_enterFreshFunction env n h forwardNode) fun _ h => .pure h
  unfold enterFunction
  dsimp only
  split
  · exact .seq (yields_enterFreshFunction env n h _) fun _ h => .bind fun _ => .pure h
  · refine .bind fun found => ?_
    cases found with
    | none => exact fresh none
    | some routine =>
      dsimp only
      split
      · exact .bind fun _ => fresh _
      · exact yields_enterForwardBody env n h routine

theorem yields_enterTrigger (h : P (scopedPlan env n)) : Yields (enterTrigger env n) P :=
  .bind fun _ => .pure h

theorem yields_enterClass (h : P (.plain env.tree n)) (kind : ScopeKind) :
    Yields (enterClass env n kind) P := by
  have rest : ∀ (name : String) typeInfo, Yields (do
      updateScope UnitIndex.rootScope fun s => { s with kind, className := some name, typeInfo }
      annotate n fun a => { a with scope := some UnitIndex.rootScope }
      return Plan.plain env.tree n) P :=
    fun _ _ => .bind fun _ => .bind fun _ => .pure h
  unfold enterClass
  dsimp only
  split
  · exact .bind fun _ => rest _ _
  · exact rest _ _

theorem yields_enterAggregate (h : P (.plain env.tree n)) : Yields (enterAggregate env n) P :=
  .bind fun _ => .bind fun _ => .bind fun _ => .pure h

theorem yields_enterRecord (h : P (.plain env.tree n)) : Yields (enterRecord env n) P := by
  refine .bind fun q => .bind fun found => ?_
  cases found with
  | none => exact .throw _
  | some buffer =>
    exact .bind fun _ => .bind fun _ => .bind fun _ => .bind fun _ => .bind fun _ =>
      .bind fun _ => .pure h

theorem yields_enterField (h : P (.plain env.tree n)) : Yields (enterField env n) P := by
  have plain : Yields (pure (Plan.plain env.tree n)) P := .pure h
  refine .bind fun q => .bind fun h => ?_
  split
  · split
    · exact .bind fun _ => .bind fun _ => plain
    · exact .bind fun _ => plain
  · exact plain

theorem yields_enterAs (h : P .done) : Yields (enterAs env n) P := by
  refine .bind fun s => ?_
  split
  · exact .bind fun _ => .pure h
  · exact .pure h

theorem yields_enterReturns (h : P .done) : Yields (enterReturns env n) P := by
  unfold enterReturns
  split
  · exact .bind fun _ => .bind fun _ => .pure h
  · exact .pure h

theorem yields_enterWidgetName (h : P .done) : Yields (enterWidgetName env n) P := by
  refine .bind fun found => ?_
  cases found with
  | none => exact .pure h
  | some symbol => exact .bind fun _ => .bind fun _ => .pure h

end Handlers

theorem yields_enterCatch : Yields (enterCatch env n) Plan.Silent := by
  refine .bind fun _ => .bind fun d => .pure (.around (silent_map fun c => ⟨?_, ?_, rfl⟩) _ ?_)
  · simp
  · dsimp only
    split <;> simp [Action.fields]
  · split <;> simp [Action.fields]

theorem yields_enterBlock (kind : BlockKind) {steps : List (Step env.tree n)}
    (h : ∀ s ∈ steps, s.Silent) : Yields (enterBlock env n kind steps) Plan.Silent :=
  .bind fun _ => .pure (.around h _ (by simp [Action.fields]))

theorem yields_enterDefinition (kind : SymbolKind) {complete : SymbolId → List Action}
    (h : ∀ s, ∀ a ∈ complete s, a.fields = []) :
    Yields (enterDefinition env n kind complete) Plan.Silent := by
  refine .bind fun s => .pure (.around silent_plainSteps _ fun a ha => ?_)
  rcases List.mem_cons.1 ha with rfl | ha
  · rfl
  · exact h s a ha

theorem yields_enterProperty : Yields (enterProperty env n) Plan.Silent := by
  have clauses : ∀ (s : SymbolId) (cs : List (env.tree.Child n)), ∀ step ∈ cs.map
      fun c => ({ child := c, onFailure := [.endDefinition s] } : Step env.tree n), step.Silent :=
    fun _ _ => silent_map fun _ => ⟨by simp, by simp, rfl⟩
  refine .bind fun s => ?_
  dsimp only
  split
  · exact .pure ⟨clauses s _, by simp [Action.fields]⟩
  · refine .pure (.of_steps fun step hstep => ?_)
    rcases List.mem_append.1 hstep with hstep | hstep
    · exact clauses s _ step hstep
    · rcases List.mem_cons.1 hstep with rfl | hstep
      · exact ⟨by simp [Action.fields], by simp, rfl⟩
      · exact silent_map (fun c => Step.Silent.told c none) step hstep

theorem yields_enterEvent : Yields (enterEvent env n) Plan.Silent :=
  .bind fun _ => .bind fun _ => .bind fun _ =>
    .pure (.around silent_plainSteps _ (by simp [Action.fields]))

theorem yields_enterWidget (kind : WidgetKind) : Yields (enterWidget env n kind) Plan.Silent := by
  refine .bind fun widget => .pure (.around ?_ _ (by simp [Action.fields]))
  split
  · exact silent_map fun c => Step.Silent.told c _
  · exact silent_plainSteps

theorem yields_enterTable (kind : TableKind) : Yields (enterTable env n kind) Plan.Silent :=
  .bind fun _ => .pure (.around silent_plainSteps _ (by simp [Action.fields]))

theorem yields_enterTableLike : Yields (enterTableLike env n) Plan.Silent := by
  unfold enterTableLike
  split
  · exact .pure ⟨silent_map fun c => Step.Silent.told c _, by simp [Action.fields]⟩
  · exact .pure (.of_steps silent_plainSteps)

theorem yields_enterTableField : Yields (enterTableField env n) Plan.Silent :=
  .bind fun _ => .pure (.around silent_plainSteps _ (by simp [Action.fields]))

theorem yields_enterWidgetAttribute : Yields (enterWidgetAttribute env n) Plan.Silent := by
  refine .bind fun q => ?_
  cases env.tree.childList n with
  | nil => exact .pure .done
  | cons target rest =>
    have plain : ∀ s ∈ rest.map Step.plain, s.Silent :=
      silent_map fun c => Step.Silent.told c none
    refine .bind fun x => ?_
    split
    · cases memberNode? env n rest with
      | none => exact .pure (.of_steps plain)
      | some member => exact .bind fun _ => .pure (.of_steps plain)
    · refine .pure (.of_steps fun s hs => ?_)
      rcases List.mem_cons.1 hs with rfl | hs
      · exact Step.Silent.told target _
      · exact plain s hs

theorem yields_enterTableParameter : Yields (enterTableParameter env n) Plan.Silent := by
  refine .pure ⟨silent_map fun c => .told c _, ?_⟩
  dsimp only
  split <;> simp [Action.fields]

theorem silent_messagePlan : (messagePlan env n).Silent := by
  unfold messagePlan
  split
  · exact .of_steps (silent_map fun c => .told c _)
  · exact .of_steps silent_plainSteps

theorem silent_blockForPlan : (blockForPlan env n).Silent := by
  refine .of_steps (silent_map fun c => ?_)
  split
  · exact ⟨by simp, by simp [Action.fields], rfl⟩
  · exact .told c none

end Enter

/-! ### What every plan reads back -/

/-- The steps of a plan reach field `f`: they visit it, or the list of a browse that shows it. -/
inductive Plan.Reaches (p : Plan env.tree n) (f : NodeId) : Prop
  | child (target : f ∈ targets p.steps)
  | column (all : ∀ c ∈ env.tree.children n, c ∈ targets p.steps)
      (column : f ∈ browseColumns env n)

/-- What is read back by a plan has been visited, and only fields are given hints. -/
structure Plan.Honest (p : Plan env.tree n) : Prop where
  before : ∀ s ∈ p.steps, ∀ a ∈ s.before, a.fields = []
  after : ∀ s ∈ p.steps, ∀ a ∈ s.after, ∀ f ∈ a.fields, f = s.child.val ∧ ReadBack env f
  leave : ∀ a ∈ p.leave, ∀ f ∈ a.fields, ReadBack env f ∧ p.Reaches f
  hint : ∀ s ∈ p.steps, s.hint ≠ none → env.tree.kind s.child.val = .field

section Honest

variable (env n)

theorem Plan.Silent.honest {p : Plan env.tree n} (h : p.Silent) : p.Honest where
  before s hs := (h.steps s hs).before
  after s hs a ha f hf := by simp [(h.steps s hs).after a ha] at hf
  leave a ha f hf := by simp [h.leave a ha] at hf
  hint s hs hne := absurd (h.steps s hs).hint hne

/-- A plan that gives hints to fields and does nothing else. -/
theorem Plan.Honest.of_hints {steps : List (Step env.tree n)}
    (h : ∀ s ∈ steps, s.before = [] ∧ s.after = [] ∧
      (s.hint ≠ none → env.tree.kind s.child.val = .field)) :
    ({ steps } : Plan env.tree n).Honest where
  before s hs := by simp [(h s hs).1]
  after s hs := by simp [(h s hs).2.1]
  leave := by simp
  hint s hs := (h s hs).2.2

theorem yields_enterFieldList (q : Qualifier) : Yields (enterFieldList env n q) Plan.Honest := by
  refine .bind fun w => .pure (.of_hints env n fun s hs => ?_)
  obtain ⟨c, -, rfl⟩ := List.mem_map.1 hs
  split
  · rename_i hkind
    exact ⟨rfl, rfl, fun _ => hkind⟩
  · exact ⟨rfl, rfl, fun h => absurd rfl h⟩

theorem honest_relationPlan : (relationPlan env n).Honest := by
  refine .of_hints env n fun s hs => ?_
  generalize env.tree.childList n = cs at hs
  generalize TableHint.previous = h at hs
  induction cs generalizing h with
  | nil => simp [relationSteps] at hs
  | cons c cs ih =>
    unfold relationSteps at hs
    split at hs
    · rename_i hkind
      rcases List.mem_cons.1 hs with rfl | hs
      · exact ⟨rfl, rfl, fun _ => hkind⟩
      · exact ih _ hs
    · rcases List.mem_cons.1 hs with rfl | hs
      · exact ⟨rfl, rfl, fun h => absurd rfl h⟩
      · exact ih _ hs

theorem honest_handlePlan (hkind : (env.tree.kind n).isHandle) : (handlePlan env n).Honest := by
  have step : ∀ s ∈ (handlePlan env n).steps, s.before = [] ∧ s.hint = none ∧
      ∀ a ∈ s.after, ∀ f ∈ a.fields, f = s.child.val ∧ ReadBack env f := by
    intro s hs
    obtain ⟨c, -, rfl⟩ := List.mem_map.1 hs
    split
    · rename_i hfield
      refine ⟨rfl, rfl, fun a ha f hf => ?_⟩
      dsimp only at ha
      split at ha
      · rename_i writes
        rw [List.mem_singleton.1 ha] at hf
        rw [List.mem_singleton.1 hf]
        exact ⟨rfl, .handle hkind c.property hfield writes⟩
      · simp at ha
    · exact ⟨rfl, rfl, by simp [Step.plain]⟩
  refine ⟨fun s hs => ?_, fun s hs => (step s hs).2.2, by simp [handlePlan], fun s hs hne => ?_⟩
  · simp [(step s hs).1]
  · exact absurd (step s hs).2.1 hne

theorem yields_enterLike (hkind : env.tree.kind n = .likeClause) :
    Yields (enterLike env n) Plan.Honest := by
  refine .bind fun target => ?_
  cases hsource : env.tree.childOfKind? n .field with
  | none => exact .pure (Plan.Silent.of_steps silent_plainSteps).honest
  | some source =>
    have silent : ∀ s ∈ onlySteps env.tree n .field .symbol, s.Silent :=
      silent_map fun c => .told c _
    refine .pure ⟨fun s hs => (silent s hs).before, fun s hs a ha f hf => ?_, fun a ha f hf => ?_,
      fun s hs hne => absurd (silent s hs).hint hne⟩
    · simp [(silent s hs).after a ha] at hf
    · rw [List.mem_singleton.1 ha] at hf
      rw [List.mem_singleton.1 hf]
      refine ⟨.like hkind hsource, .child (List.mem_map.2 ?_)⟩
      have child := List.mem_of_find?_eq_some hsource
      refine ⟨_, List.mem_map.2 ⟨⟨source, child⟩, List.mem_filter.2 ⟨?_, ?_⟩, rfl⟩, rfl⟩
      · exact List.mem_attach _ _
      · simpa using hsource

/-- All children are visited, whatever is done if they fail. -/
theorem mem_targets_plainSteps {t : ParseTree} {c : NodeId} (hc : c ∈ t.children n)
    (undo : List Action) : c ∈ targets ((plainSteps t n).map (Step.guard undo)) :=
  List.mem_map.2 ⟨_, List.mem_map_of_mem (List.mem_map_of_mem (List.mem_attach _ ⟨c, hc⟩)), rfl⟩

theorem yields_enterBrowse (hkind : env.tree.kind n = .defineBrowse) :
    Yields (enterBrowse env n) Plan.Honest := by
  refine .bind fun browse => .pure ?_
  have silent : (Plan.around (plainSteps env.tree n) [.endDefinition browse] []).Silent :=
    .around silent_plainSteps _ (by simp)
  have honest := silent.honest
  refine { honest with leave := fun a ha f hf => ?_ }
  rcases List.mem_cons.1 ha with rfl | ha
  · simp [Action.fields] at hf
  · rcases List.mem_cons.1 ha with rfl | ha
    · exact ⟨.column hkind hf, .column (fun c hc => mem_targets_plainSteps n hc _) hf⟩
    · rw [List.mem_singleton.1 ha] at hf
      simp [Action.fields] at hf

/-- What a plan reads back, and whom it gives a hint, for nodes of every kind. -/
theorem enter_honest : Yields (enter env n) Plan.Honest := by
  have silent : ∀ {m : WalkM (Plan env.tree n)}, Yields m Plan.Silent → Yields m Plan.Honest :=
    fun h w => (h w).mono (fun _ _ => id) fun _ _ h => h.honest
  have told : ∀ {steps : List (Step env.tree n)}, (∀ s ∈ steps, s.Silent) →
      Yields (pure { steps } : WalkM (Plan env.tree n)) Plan.Silent :=
    fun h => .pure (.of_steps h)
  have plain := told (silent_plainSteps (t := env.tree) (n := n))
  unfold enter
  dsimp only
  cases hkind : env.tree.kind n with
  | program | statement | aggregatePhrase | messageStatement | runStatement =>
    exact silent plain
  | classStatement | interfaceStatement =>
    exact silent (yields_enterClass env n (.of_steps silent_plainSteps) _)
  | doBlock | repeatBlock => exact silent (yields_enterBlock env n _ silent_plainSteps)
  | forBlock => exact silent (yields_enterBlock env n _ (silent_map fun c => .told c _))
  | blockFor => exact silent (.pure (silent_blockForPlan env n))
  | blockIterator | assignEqual | bufferCompare | bufferCopy | rawTransfer =>
    exact silent (told (silent_operandSteps _ _))
  | blockWhile | browseDisplay | browseEnable | displayStatement | formStatement
  | enableStatement | promptForStatement | setStatement | updateStatement | systemDialog
  | runSet | runParameter => exact silent (told (silent_map fun c => .told c _))
  | blockPreselect | dataRelation | parentIdRelation | sourceBufferPhrase | assignStatement
  | createStatement | deleteStatement | releaseStatement | validateStatement | recordFunction
  | findStatement | openQuery | parameterTable | parameterBuffer =>
    exact silent (told (silent_map fun c => .told c _))
  | procedureStatement | methodStatement | constructorStatement | destructorStatement
  | propertyAccessor => exact silent (yields_enterRoutine env n (silent_scopedPlan env n) _ _ _)
  | functionStatement => exact silent (yields_enterFunction env n (silent_scopedPlan env n))
  | onStatement => exact silent (yields_enterTrigger env n (silent_scopedPlan env n))
  | catchBlock => exact silent (yields_enterCatch env n)
  | defineVariable | defineParameter | functionParameter =>
    exact silent (yields_enterDefinition env n _ (by simp [Action.fields]))
  | defineProperty => exact silent (yields_enterProperty env n)
  | defineTempTable | defineWorkTable => exact silent (yields_enterTable env n _)
  | defineBuffer | bufferParameter =>
    exact silent (.pure ⟨silent_map fun c => .told c _, by simp [Action.fields]⟩)
  | defineEvent => exact silent (yields_enterEvent env n)
  | defineBrowse => exact yields_enterBrowse env n hkind
  | defineWidget widget => exact silent (yields_enterWidget env n widget)
  | tableParameter => exact silent (yields_enterTableParameter env n)
  | asClause => exact silent (yields_enterAs env n .done)
  | likeClause => exact yields_enterLike env n hkind
  | extentClause => exact silent (.bind fun _ => .bind fun _ => plain)
  | returnsClause => exact silent (yields_enterReturns env n .done)
  | tableLike => exact silent (yields_enterTableLike env n)
  | tableUseIndex | tableIndex => exact silent (.bind fun _ => .pure .done)
  | tableField => exact silent (yields_enterTableField env n)
  | relationFields => exact .pure (honest_relationPlan env n)
  | keyFields | fieldsPhrase | exceptPhrase | usingPhrase => exact yields_enterFieldList env n _
  | aggregateOption => exact silent (yields_enterAggregate env n (.of_steps silent_plainSteps))
  | messageOption => exact silent (.pure (silent_messagePlan env n))
  | parameterTableHandle | parameterDatasetHandle =>
    exact .pure (honest_handlePlan env n (by rw [hkind]; rfl))
  | recordPhrase => exact silent (.bind fun _ => told (silent_map fun c => .told c _))
  | formItem | expression =>
    exact silent (.bind fun _ => .bind fun _ => told (silent_map fun c => .told c _))
  | memoryManagementFunction =>
    exact silent (.bind fun _ => .bind fun _ => told (silent_operandSteps _ _))
  | widgetAttribute => exact silent (yields_enterWidgetAttribute env n)
  | widgetName => exact silent (yields_enterWidgetName env n .done)
  | field => exact silent (yields_enterField env n (.of_steps silent_plainSteps))
  | record => exact silent (yields_enterRecord env n (.of_steps silent_plainSteps))
  | indexField | identifier | typeName | literal | datatype | keyword => exact silent (.pure .done)

end Honest

end AblResolve.Walk
