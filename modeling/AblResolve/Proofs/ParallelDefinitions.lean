import AblResolve.Proofs.ParallelPlans
/-!
Entering definitions and routines at nodes that two trees share. From states that are alike, the
same node is entered alike on both sides: it changes the states in the same way and gives plans that
are alike.
-/
namespace AblResolve

namespace Walk.Parallel

variable {L : Likeness} {env env' : Env} {n : NodeId}

section Handlers

variable (h : env.Alike L env') (hn : L.nodes n)
include h hn

/-! ### Definitions -/

theorem enterDefinition {kind kind' : SymbolKind} (hkind : L.kind kind = L.kind kind')
    {complete : SymbolId → List Action} (shared : ∀ s, ∀ a ∈ complete s, a.Shared L) :
    Parallel L (Plan.Alike L) (enterDefinition env n kind complete)
      (enterDefinition env' n kind' complete) := by
  refine .seq (.define n (h.definedName hn) hkind) fun s => .pure ?_
  refine .around (plainSteps_alike h hn) (by simp [Action.Shared]) fun a ha => ?_
  rcases List.mem_cons.1 ha with rfl | ha
  · trivial
  · exact shared s a ha

theorem parameterMode : parameterMode env n = Walk.parameterMode env' n := by
  unfold Walk.parameterMode
  simp only [h.hasKeyword hn]

theorem enterParameter :
    Parallel L (Plan.Alike L) (enterParameter env n) (enterParameter env' n) := by
  unfold Walk.enterParameter
  rw [parameterMode h hn]
  exact enterDefinition h hn rfl (by simp [Action.Shared])

/-- A property has the same clauses before its first accessor. -/
theorem span_accessors {cs : List (env.tree.Child n)} {cs' : List (env'.tree.Child n)}
    (hcs : List.Forall₂ (fun c c' => c.val = c'.val) cs cs') :
    let p := cs.span fun c => env.tree.kind c.val ≠ .propertyAccessor
    let p' := cs'.span fun c => env'.tree.kind c.val ≠ .propertyAccessor
    List.Forall₂ (fun c c' => c.val = c'.val) p.1 p'.1 ∧
      List.Forall₂ (fun c c' => c.val = c'.val) p.2 p'.2 := by
  rw [List.span_eq_takeWhile_dropWhile, List.span_eq_takeWhile_dropWhile]
  induction hcs with
  | nil => exact ⟨.nil, .nil⟩
  | cons hc rest ih =>
    simp only [List.takeWhile_cons, List.dropWhile_cons, kind_child h hn hc] at ih ⊢
    split
    · exact ⟨.cons hc ih.1, ih.2⟩
    · exact ⟨.nil, .cons hc rest⟩

theorem enterProperty :
    Parallel L (Plan.Alike L) (enterProperty env n) (enterProperty env' n) := by
  refine .seq (.define n (h.definedName hn) rfl) fun property => ?_
  have spans := span_accessors h hn (childList_alike h hn)
  revert spans
  dsimp only
  generalize List.span _ (env.tree.childList n) = p
  generalize List.span _ (env'.tree.childList n) = p'
  obtain ⟨clauses, accessors⟩ := p
  obtain ⟨clauses', accessors'⟩ := p'
  rintro ⟨hclauses, haccessors⟩
  have clauseSteps : List.Forall₂ (Step.Alike L)
      (clauses.map fun c =>
        ({ child := c, onFailure := [.endDefinition property] } : Step env.tree n))
      (clauses'.map fun c =>
        ({ child := c, onFailure := [.endDefinition property] } : Step env'.tree n)) := by
    rw [List.forall₂_map_left_iff, List.forall₂_map_right_iff]
    exact hclauses.imp fun c c' hc =>
      ⟨hc, rfl, rfl, .nil, .inl .nil, .refl (by simp [Action.Shared])⟩
  cases haccessors with
  | nil => exact .pure ⟨clauseSteps, .refl (by simp [Action.Shared])⟩
  | @cons first first' rest rest' hfirst hrest =>
    refine .pure ⟨List.rel_append clauseSteps (.cons ?_ ?_), .nil⟩
    · exact ⟨hfirst, rfl, rfl, .refl (by simp [Action.Shared]), .inl .nil, .nil⟩
    · rw [List.forall₂_map_left_iff, List.forall₂_map_right_iff]
      exact hrest.imp fun _ _ hc => .plain hc

theorem enterEvent : Parallel L (Plan.Alike L) (enterEvent env n) (enterEvent env' n) := by
  refine .seq (.define n (h.definedName hn) rfl) fun event => .bind .get fun w w' hw => ?_
  have outer := hw.openEvent
  dsimp only
  rw [outer]
  refine .seq (.modify fun _ _ hw => { hw with openEvent := rfl }) fun _ => .pure ?_
  exact .around (plainSteps_alike h hn) (by simp [Action.Shared]) (by simp [Action.Shared])

theorem browseColumns : browseColumns env n = Walk.browseColumns env' n := by
  unfold Walk.browseColumns
  dsimp only
  rw [← h.childrenOfKind hn, List.flatMap, List.flatMap]
  congr 1
  refine List.map_congr_left fun display hd => ?_
  have shared := h.nodes_childrenOfKind hn hd
  rw [← h.children shared]
  refine List.filterMap_congr fun item hi => ?_
  have item := h.below shared _ hi
  rw [← h.kind item, h.childOfKind? item]

theorem enterBrowse : Parallel L (Plan.Alike L) (enterBrowse env n) (enterBrowse env' n) := by
  unfold Walk.enterBrowse
  dsimp only
  rw [browseColumns h hn, ← h.childrenOfKind hn]
  refine .enterDefinition h hn ?_ (by simp [Action.Shared])
  simp only [Likeness.kind, SymbolKind.browse.injEq, Browse.mk.injEq, and_true,
    Option.map_map]
  cases hc : (env.tree.childrenOfKind n .identifier)[1]? with
  | none => rfl
  | some c =>
    have shared := h.nodes_childrenOfKind hn (List.mem_of_getElem? hc)
    simp only [Option.map_some, Function.comp_apply, h.text shared]

theorem enterWidget (kind : WidgetKind) :
    Parallel L (Plan.Alike L) (enterWidget env n kind) (enterWidget env' n kind) := by
  refine .seq (.define n (h.definedName hn) rfl) fun widget => .pure ?_
  refine .around ?_ (by simp [Action.Shared]) (by simp [Action.Shared])
  cases widgetQualifier? kind with
  | some q => exact qualifiedSteps_alike h hn q
  | none => exact plainSteps_alike h hn

theorem enterAggregate :
    Parallel L (Plan.Alike L) (enterAggregate env n) (enterAggregate env' n) :=
  .seq .currentScope fun scope => .seq (.createSymbol scope _ rfl rfl false) fun s =>
    .seq (.attach s) fun _ => .pure (.plain h hn)

/-! ### Clauses -/

omit h hn in
theorem clauseTarget (m : Misplacement) : Parallel L Eq (clauseTarget m) (clauseTarget m) := by
  refine .bind .get fun w w' hw => ?_
  rw [hw.openDefinitions]
  rcases w'.openDefinitions with _ | ⟨s, _⟩
  · exact .misplaced _
  · exact .pure rfl

/-- A clause names the same type on both sides. -/
theorem clauseType? : (clauseType? env n).map (fun p => (p.1, p.2.map L.text)) =
    (Walk.clauseType? env' n).map fun p => (p.1, p.2.map L.text) := by
  unfold Walk.clauseType?
  rw [List.map_findSome?, List.map_findSome?, ← h.children hn]
  have shared := h.below hn
  generalize env.tree.children n = cs at shared
  induction cs with
  | nil => rfl
  | cons c cs ih =>
    have hc := shared c List.mem_cons_self
    rw [List.findSome?_cons, List.findSome?_cons,
      ih fun c hc => shared c (List.mem_cons_of_mem _ hc)]
    simp only [Function.comp_apply, h.kind hc]
    cases env'.tree.kind c with
    | typeName => simp only [Option.map_some, h.text hc]
    | _ => rfl

theorem enterAs : Parallel L (Plan.Alike L) (enterAs env n) (enterAs env' n) := by
  refine .seq (.clauseTarget _) fun s => ?_
  have type := clauseType? h hn
  cases hc : Walk.clauseType? env n <;> cases hc' : Walk.clauseType? env' n <;>
    rw [hc, hc'] at type <;>
    simp only [Option.map_some, Option.map_none, reduceCtorEq, Option.some.injEq,
      Prod.mk.injEq] at type
  · exact .pure .done
  · dsimp only
    rw [type.1]
    exact .seq (.setDataType s _ type.2) fun _ => .pure .done

theorem enterReturns : Parallel L (Plan.Alike L) (enterReturns env n) (enterReturns env' n) := by
  unfold Walk.enterReturns
  have type := clauseType? h hn
  cases hc : Walk.clauseType? env n <;> cases hc' : Walk.clauseType? env' n <;>
    rw [hc, hc'] at type <;>
    simp only [Option.map_some, Option.map_none, reduceCtorEq, Option.some.injEq,
      Prod.mk.injEq] at type
  · exact .pure .done
  · refine .seq .currentRoutine fun r => .seq (.updateRoutine r fun r r' hr => ?_) fun _ =>
      .pure .done
    simp only [Likeness.kind, SymbolKind.routine.injEq, Routine.mk.injEq] at hr ⊢
    obtain ⟨kind, body, parameters, -, -, forwardNode⟩ := hr
    exact ⟨kind, body, parameters, by rw [type.1], type.2, forwardNode⟩

theorem enterLike : Parallel L (Plan.Alike L) (enterLike env n) (enterLike env' n) := by
  refine .seq (.clauseTarget _) fun s => ?_
  rw [← h.childOfKind? hn]
  cases hc : env.tree.childOfKind? n .field with
  | some source =>
    refine .pure ⟨onlySteps_alike h hn _ _, .refl fun a ha => ?_⟩
    rw [List.mem_singleton] at ha
    exact ha ▸ h.nodes_childOfKind? hn hc
  | none => exact .pure (.plain h hn)

theorem clauseExtent : clauseExtent env n = Walk.clauseExtent env' n := by
  unfold Walk.clauseExtent
  rw [← h.childOfKind? hn]
  cases hc : env.tree.childOfKind? n .literal with
  | none => rfl
  | some c =>
    have shared := h.nodes_childOfKind? hn hc
    simp only [Option.bind_some]
    rw [← Text.numeralValue?_fold, Likeness.fold_congr (h.text shared), Text.numeralValue?_fold]

theorem enterExtent : Parallel L (Plan.Alike L) (enterExtent env n) (enterExtent env' n) := by
  refine .seq (.clauseTarget _) fun s => ?_
  rw [clauseExtent h hn]
  exact .seq (.setExtent s _) fun _ => .pure (.plain h hn)

/-! ### Routines -/

theorem scopedPlan : Plan.Alike L (scopedPlan env n) (Walk.scopedPlan env' n) :=
  .around (plainSteps_alike h hn) (by simp [Action.Shared]) (by simp [Action.Shared])

theorem enterRoutine {name name' : String} (hname : L.text name = L.text name')
    (kind : RoutineKind) (scopeKind : ScopeKind) :
    Parallel L (Plan.Alike L) (enterRoutine env n name kind scopeKind)
      (enterRoutine env' n name' kind scopeKind) :=
  .seq .currentScope fun outer => .seq (.openScope scopeKind n) fun _ =>
    .seq (.createRoutine outer n hname _) fun _ => .pure (scopedPlan h hn)

theorem listsParameters : listsParameters env n = Walk.listsParameters env' n := by
  unfold Walk.listsParameters
  rw [← h.children hn]
  have shared := h.below hn
  generalize env.tree.children n = cs at shared
  induction cs with
  | nil => rfl
  | cons c cs ih =>
    rw [List.any_cons, List.any_cons, ih fun c hc => shared c (List.mem_cons_of_mem _ hc),
      h.kind (shared c List.mem_cons_self)]

omit h hn in
theorem takeForward (key : String) : Parallel L Eq (takeForward key) (takeForward key) := by
  refine .bind .get fun w w' hw => ?_
  dsimp only
  rw [hw.forwards]
  exact .seq (.modify fun _ _ hw => { hw with forwards := rfl }) fun _ => .pure rfl

theorem enterForwardBody (routine : SymbolId) :
    Parallel L (Plan.Alike L) (enterForwardBody env n routine)
      (enterForwardBody env' n routine) := by
  refine .bind (.symbolAt routine) fun v v' hv => ?_
  have body := UnitIndex.Alike.asRoutine?_congr hv
  cases hr : v.asRoutine? <;> cases hr' : v'.asRoutine? <;> rw [hr, hr'] at body <;>
    simp only [Option.map_some, Option.map_none, reduceCtorEq, Option.some.injEq] at body
  · exact .breach _
  · dsimp only
    rw [body]
    refine .seq (.updateSymbol routine fun _ _ hv =>
      (congrArg (fun v => { v with definitionNode := some n }) hv :)) fun _ => ?_
    exact .seq (.annotate n _) fun _ => .seq (.enterScope _ n) fun _ => .pure (scopedPlan h hn)

theorem enterFreshFunction (forwardNode : Option NodeId) :
    Parallel L (fun p p' => p.1 = p'.1 ∧ p.2.Alike L p'.2) (enterFreshFunction env n forwardNode)
      (enterFreshFunction env' n forwardNode) :=
  .seq .currentScope fun outer => .seq (.openScope .function n) fun _ =>
    .seq (.createRoutine outer n (h.definedName hn) _) fun _ => .pure ⟨rfl, scopedPlan h hn⟩

theorem enterFunction :
    Parallel L (Plan.Alike L) (enterFunction env n) (enterFunction env' n) := by
  unfold Walk.enterFunction
  dsimp only
  rw [h.hasKeyword hn, Likeness.fold_congr (h.definedName hn), listsParameters h hn]
  refine .ite Iff.rfl ?_ ?_
  · refine .bind (enterFreshFunction h hn _) ?_
    rintro ⟨routine, plan⟩ ⟨_, plan'⟩ ⟨rfl, alike⟩
    refine .seq (.modify fun w w' hw => ?_) fun _ => .pure alike
    exact { hw with forwards := by rw [hw.forwards] }
  · refine .seq (.takeForward _) fun found => ?_
    cases found with
    | some routine =>
      refine .ite Iff.rfl ?_ (.enterForwardBody h hn routine)
      refine .bind (.symbolAt routine) fun v v' hv => ?_
      have node : v.definitionNode = v'.definitionNode := (congrArg Symbol.definitionNode hv :)
      rw [node]
      exact .bind (enterFreshFunction h hn _) fun _ _ hp => .pure hp.2
    | none => exact .bind (enterFreshFunction h hn _) fun _ _ hp => .pure hp.2

theorem enterTrigger : Parallel L (Plan.Alike L) (enterTrigger env n) (enterTrigger env' n) :=
  .seq (.openScope .trigger n) fun _ => .pure (scopedPlan h hn)

theorem enterCatch : Parallel L (Plan.Alike L) (enterCatch env n) (enterCatch env' n) := by
  refine .seq (.openScope .catch n) fun _ => .seq (.define n (h.definedName hn) rfl) fun v => ?_
  dsimp only
  rw [h.childOfKind? hn]
  refine .pure (.around (steps_alike h hn fun c c' hc => ?_) (by simp [Action.Shared]) ?_)
  · rw [hc]
    refine ⟨hc, rfl, rfl, .nil, .inl (.refl ?_), .nil⟩
    split <;> simp [Action.Shared]
  · split <;> simp [Action.Shared]

theorem enterClass (kind : ScopeKind) :
    Parallel L (Plan.Alike L) (enterClass env n kind) (enterClass env' n kind) := by
  have name : L.text (((env.tree.childOfKind? n .typeName).map env.tree.text).getD "") =
      L.text (((env'.tree.childOfKind? n .typeName).map env'.tree.text).getD "") := by
    rw [← h.childOfKind? hn]
    cases hc : env.tree.childOfKind? n .typeName with
    | none => rfl
    | some c => exact h.text (h.nodes_childOfKind? hn hc)
  unfold Walk.enterClass
  dsimp only
  rw [h.types, TypeRegistry.find?_congr _ (Likeness.fold_congr name), h.location hn]
  refine .ite Iff.rfl (.seq (.report (Likeness.diagnostic_missingTypeInfo name _)) fun _ => ?_) ?_
  all_goals
    refine .seq (.updateScope _ fun v v' hv => ?_) fun _ => .seq (.annotate n _) fun _ =>
      .pure (.plain h hn)
    simp only [Likeness.scope, Scope.mk.injEq, Option.map_some, name] at hv ⊢
    obtain ⟨parent, -, node, rootBlock, routine, -, -, names, unnamed⟩ := hv
    exact ⟨parent, trivial, node, rootBlock, routine, trivial, trivial, names, unnamed⟩

/-! ### Tables and buffers -/

theorem enterTable (kind : TableKind) :
    Parallel L (Plan.Alike L) (enterTable env n kind) (enterTable env' n kind) :=
  .seq (.beginTable hn (h.definedName hn) kind) fun _ =>
    .pure (.around (plainSteps_alike h hn) (by simp [Action.Shared]) (by simp [Action.Shared]))

theorem enterTableLike :
    Parallel L (Plan.Alike L) (enterTableLike env n) (enterTableLike env' n) := by
  unfold Walk.enterTableLike
  rw [← h.childOfKind? hn]
  cases env.tree.childOfKind? n .record with
  | some record => exact .pure ⟨onlySteps_alike h hn _ _, .refl (by simp [Action.Shared])⟩
  | none => exact .pure (.plain h hn)

theorem enterUseIndex :
    Parallel L (Plan.Alike L) (enterUseIndex env n) (enterUseIndex env' n) := by
  refine .seq (.updateOpenTable fun d d' hd => ⟨?_, ?_, hd.2.2⟩) fun _ => .pure .done
  · have useIndex : d.useIndex.map (fun p => (L.text p.1, p.2)) =
        d'.useIndex.map fun p => (L.text p.1, p.2) := (congrArg TableDefinition.useIndex hd.1 :)
    have indexFields := (congrArg TableDefinition.indexFields hd.1 :)
    simp only [Likeness.definition, TableDefinition.mk.injEq, List.map_append, useIndex,
      List.map_singleton, h.definedName hn]
    exact ⟨hd.table, hd.buffer, hd.like, trivial, hd.hasExplicitIndex, indexFields⟩
  · intro p hp
    rcases List.mem_append.1 hp with hp | hp
    · exact hd.2.1 p hp
    · rw [List.mem_singleton] at hp
      exact hp ▸ hn

theorem enterTableField :
    Parallel L (Plan.Alike L) (enterTableField env n) (enterTableField env' n) := by
  refine .seq (.beginField n (h.definedName hn)) fun p => .pure ?_
  exact .around (plainSteps_alike h hn) (by simp [Action.Shared]) (by simp [Action.Shared])

theorem enterTableIndex :
    Parallel L (Plan.Alike L) (enterTableIndex env n) (enterTableIndex env' n) :=
  .seq (.addIndex h hn) fun _ => .pure .done

theorem bufferSteps :
    List.Forall₂ (Step.Alike L) (bufferSteps env n) (Walk.bufferSteps env' n) := by
  unfold Walk.bufferSteps
  rw [h.hasKeyword hn]
  exact firstSteps_alike h hn _ _

theorem enterBuffer : Parallel L (Plan.Alike L) (enterBuffer env n) (enterBuffer env' n) := by
  refine .pure ⟨bufferSteps h hn, ?_⟩
  dsimp only
  rw [h.childOfKind? hn]
  exact .refl (by simpa [Action.Shared] using hn)

theorem enterBufferParameter :
    Parallel L (Plan.Alike L) (enterBufferParameter env n) (enterBufferParameter env' n) := by
  refine .pure ⟨bufferSteps h hn, ?_⟩
  dsimp only
  rw [h.childOfKind? hn]
  exact .refl (by simpa [Action.Shared] using hn)

theorem enterTableParameter :
    Parallel L (Plan.Alike L) (enterTableParameter env n) (enterTableParameter env' n) := by
  refine .pure ⟨firstSteps_alike h hn _ _, ?_⟩
  dsimp only
  rw [h.childOfKind? hn, parameterMode h hn]
  cases env'.tree.childOfKind? n .record with
  | some record => exact .refl (by simp [Action.Shared])
  | none => exact .nil

end Handlers

end Walk.Parallel

end AblResolve
