import AblResolve.Proofs.EnterDefinitions
/-!
Entering a node of any kind.
-/
namespace AblResolve.Walk

open UnitIndex

variable (env : Env) (n : NodeId) {w : Walk}

/-! ### Routines -/

section Scope

variable {env n} {w' : Walk} {s : ScopeId} {b : BlockId}

/-- A node with a scope around all its children. -/
theorem Admitted.of_scope (hs : Sound w) (runs : Runs env n w w')
    (around : w'.index.IsAround b s)
    (frame : w'.frame =
      { w.frame with scopes := s :: w.frame.scopes, blocks := b :: w.frame.blocks })
    (hkind : (env.tree.kind n).isOrdinary) (hasks : (env.tree.kind n).consumesQualifier = false) :
    Admitted env n w (scopedPlan env n) w' := by
  have standing := hs.standing.extends runs.extends
  refine .of_runs runs ?_ hasks
  rw [frame]
  refine course_around (.scope around) bareSteps_plain
    (NodeKind.not_isHandle_of_isOrdinary hkind) ?_
    (by simp [scopedPlan, Plan.around, Action.isLate])
    fun done => .cons (.leaveScope around standing) (.nil _)
  intro c hc wp h
  exact h.ordinary wp hc hkind rfl

end Scope

theorem ends_enterFreshFunction (hs : Sound w) (hkind : env.tree.kind n = .functionStatement)
    (forwardNode : Option NodeId) :
    Ends (enterFreshFunction env n forwardNode) w Never fun p w' => p.2 = scopedPlan env n ∧
      Runs env n w w' ∧ (∃ body, w'.index.IsRoutine p.1 body) ∧ ∃ s b,
        w'.index.IsAround b s ∧ w'.frame =
          { w.frame with scopes := s :: w.frame.scopes, blocks := b :: w.frame.blocks } := by
  have isBody : ScopeKind.isBody .function = true := rfl
  have opened := ends_openRoutine env n hs isBody (env.tree.definedName n)
    (fun body => { kind := .function, body, forwardNode }) (fun _ => rfl) (by simp [hkind])
  rw [ends_bind] at opened
  unfold enterFreshFunction
  rw [ends_bind, ends_currentScope hs, ends_bind]
  refine opened.imp fun body w₁ created => ?_
  rw [ends_bind]
  refine created.imp ?_
  rintro i w₂ ⟨runs, s, b, hroutine, around, frame⟩
  exact ⟨rfl, runs, ⟨s, hroutine⟩, s, b, around, frame⟩

theorem ends_enterRoutine (hs : Sound w) (hkind : (env.tree.kind n).isOrdinary)
    (hn : (env.tree.kind n).isName = false ∧ env.tree.kind n ≠ .field)
    (hasks : (env.tree.kind n).consumesQualifier = false) (name : String) (kind : RoutineKind)
    {scopeKind : ScopeKind} (isBody : scopeKind.isBody = true) :
    Ends (enterRoutine env n name kind scopeKind) w (Refused env n w) (Admitted env n w) := by
  have opened := ends_openRoutine env n hs isBody name (fun body => { kind, body })
    (fun _ => rfl) hn
  rw [ends_bind] at opened
  unfold enterRoutine
  rw [ends_bind, ends_currentScope hs, ends_bind]
  refine opened.imp fun body w₁ created => ?_
  rw [ends_bind]
  refine created.imp ?_
  rintro i w₂ ⟨runs, s, b, -, around, frame⟩
  exact .of_scope hs runs around frame hkind hasks

theorem ends_takeForward (hs : Sound w) (key : String) :
    Ends (takeForward key) w Never fun found w' => Moves env n w w' ∧
      ∀ s, found = some s → ∃ body, w'.index.IsRoutine s body := by
  unfold takeForward
  rw [ends_bind, ends_get, ends_bind, ends_modify, ends_pure]
  refine ⟨.single (.takeForward key), ?_⟩
  intro s h
  obtain ⟨p, hp, rfl⟩ := Option.map_eq_some_iff.1 h
  exact hs.forwards p (List.mem_of_find?_eq_some hp)

/-- A body that continues in the scope of its declaration. -/
theorem ends_enterForwardBody {w₀ : Walk} (hs₀ : Sound w₀) (moves₀ : Moves env n w₀ w)
    (hkind : env.tree.kind n = .functionStatement) {routine : SymbolId} {body : ScopeId}
    (h : w.index.IsRoutine routine body) :
    Ends (enterForwardBody env n routine) w (Refused env n w₀) (Admitted env n w₀) := by
  have hs := moves₀.runs.sound hs₀
  have hbody := hs.coherent.body_lt h
  obtain ⟨symbol, r, hsymbol, hroutine, rfl⟩ := h
  have hlt := Arena.lt_size_of_get? hsymbol
  unfold enterForwardBody
  rw [ends_bind, ends_symbolAt hsymbol]
  have has : symbol.asRoutine? = some r := by simp [Symbol.asRoutine?, hroutine]
  rw [has]
  dsimp only
  rw [ends_bind]
  have revision : ∀ v, w.index.symbols.get? routine = some v →
      v.Revision { v with definitionNode := some n } := by
    intro v hv
    rw [hsymbol] at hv
    cases hv
    exact .relocate (by simp [Symbol.asVariable?, hroutine])
      (by simp [Symbol.asTableBuffer?, hroutine]) n
  refine (ends_revise env n hlt revision).imp ?_
  rintro _ w₁ ⟨moves₁, -⟩
  have ext₁ := moves₁.runs.extends
  rw [ends_bind, ends_annotate]
  have marked : Move env n w₁ { w₁ with
      notes := w₁.notes.update n fun a => { a with symbol := some routine } } :=
    .mark (.define (ext₁.lt_symbols hlt) (by simp [hkind]) (by simp [hkind]))
  have moves : Moves env n w₀ _ := (moves₀.trans moves₁).tail marked
  rw [ends_bind]
  refine (ends_enterScope env n (moves.runs.sound hs₀) (ext₁.scopes.lt_size hbody)).imp ?_
  rintro _ w₂ ⟨runs, b, around, frame⟩
  rw [moves.frame] at frame
  exact .of_scope hs₀ (moves.runs.trans runs) around frame (by rw [hkind]; rfl) (by simp [hkind])

theorem ends_enterFunction (hs : Sound w) (hkind : env.tree.kind n = .functionStatement) :
    Ends (enterFunction env n) w (Refused env n w) (Admitted env n w) := by
  have hordinary : (env.tree.kind n).isOrdinary := by rw [hkind]; rfl
  have hasks : (env.tree.kind n).consumesQualifier = false := by simp [hkind]
  unfold enterFunction
  dsimp only
  split
  · rw [ends_bind]
    refine (ends_enterFreshFunction env n hs hkind _).imp ?_
    rintro ⟨routine, plan⟩ w₁ ⟨hplan, runs, ⟨body, hroutine⟩, s, b, around, frame⟩
    dsimp only at hplan hroutine ⊢
    rw [ends_bind, ends_modify, ends_pure, hplan]
    exact .of_scope hs (runs.tail (.inl (.announce _ hroutine))) around frame hordinary hasks
  · rw [ends_bind]
    refine (ends_takeForward env n hs _).imp ?_
    rintro found w₁ ⟨moves, hfound⟩
    have fresh : ∀ forwardNode,
        Ends (do return (← enterFreshFunction env n forwardNode).2) w₁ (Refused env n w)
          (Admitted env n w) := by
      intro forwardNode
      rw [ends_bind]
      refine (ends_enterFreshFunction env n (moves.runs.sound hs) hkind _).imp ?_
      rintro ⟨routine, plan⟩ w₂ ⟨hplan, runs, -, s, b, around, frame⟩
      dsimp only at hplan ⊢
      rw [moves.frame] at frame
      rw [ends_pure, hplan]
      exact .of_scope hs (moves.runs.trans runs) around frame hordinary hasks
    cases found with
    | none => exact fresh none
    | some routine =>
      obtain ⟨body, hroutine⟩ := hfound routine rfl
      dsimp only
      split
      · obtain ⟨symbol, -, hsymbol, -⟩ := hroutine
        rw [ends_bind, ends_symbolAt hsymbol]
        exact fresh _
      · exact ends_enterForwardBody env n hs moves hkind hroutine

theorem ends_enterTrigger (hs : Sound w) (hkind : env.tree.kind n = .onStatement) :
    Ends (enterTrigger env n) w (Refused env n w) (Admitted env n w) := by
  unfold enterTrigger
  rw [ends_bind]
  refine (ends_openScope env n hs rfl).imp ?_
  rintro s w₁ ⟨runs, b, around, frame⟩
  exact .of_scope hs runs around frame (by rw [hkind]; rfl) (by simp [hkind])

theorem ends_enterClass (hs : Sound w) (hkind : (env.tree.kind n).isOrdinary)
    (hasks : (env.tree.kind n).consumesQualifier = false) {kind : ScopeKind}
    (isBody : kind.isBody = true) :
    Ends (enterClass env n kind) w (Refused env n w) (Admitted env n w) := by
  have rest : ∀ {v}, Moves env n w v → ∀ name typeInfo,
      Ends (do
        updateScope rootScope fun s => { s with kind, className := some name, typeInfo }
        annotate n fun a => { a with scope := some rootScope }
        return Plan.plain env.tree n) v (Refused env n w) (Admitted env n w) := by
    intro v moves name typeInfo
    have coherent := (moves.runs.sound hs).coherent
    obtain ⟨root, hroot, hsome⟩ := coherent.root
    have same : kind.isBody = root.kind.isBody :=
      isBody.trans (hsome.symm.trans (coherent.scopes hroot).body)
    rw [ends_bind, ends_updateScope coherent.root_lt, ends_bind, ends_annotate, ends_pure]
    exact .of_moves ((moves.tail (.index (.setClass hroot same _ _))).tail (.mark (.place _ _)))
      hkind hasks bareSteps_plain
  unfold enterClass
  dsimp only
  split
  · rw [ends_bind, ends_report]
    exact rest (.single (.index (.report (.missingTypeInfo _ _) nofun nofun nofun))) _ _
  · exact rest .refl _ _

/-! ### Blocks -/

theorem ends_enterBlock (hs : Sound w) (hkind : (env.tree.kind n).isOrdinary)
    (hasks : (env.tree.kind n).consumesQualifier = false) {kind : BlockKind} (hroot : kind ≠ .root)
    {steps : List (Step env.tree n)} (bare : BareSteps steps) :
    Ends (enterBlock env n kind steps) w (Refused env n w) (Admitted env n w) := by
  unfold enterBlock
  rw [ends_bind]
  refine (ends_openBlock env n hs hroot).imp ?_
  rintro _ w₁ ⟨runs, b, control, frame⟩
  have standing := hs.standing.extends runs.extends
  refine .of_runs runs ?_ hasks
  rw [frame]
  refine course_around (.block control) bare (NodeKind.not_isHandle_of_isOrdinary hkind) ?_
    (by simp [Plan.around, Action.isLate]) fun done => .cons (.leaveBlock control standing) (.nil _)
  intro c hc wp h
  exact h.ordinary wp hc hkind rfl

theorem admitted_blockFor (hkind : env.tree.kind n = .blockFor) :
    Admitted env n w (blockForPlan env n) w := by
  have hhandle : (env.tree.kind n).isHandle = false := by rw [hkind]; rfl
  refine .of_runs .refl ?_ (by simp [hkind])
  refine course_level .nothing ?_ ?_ ?_ (by simp [blockForPlan]) fun done _ => .nil _
  · intro s hs
    obtain ⟨c, -, rfl⟩ := List.mem_map.1 hs
    split
    · rename_i hrecord
      refine ⟨rfl, rfl, by simp, by rw [handleUses_eq_nil hhandle]; rfl, fun done visited => ?_⟩
      exact .cons (.bindStrongly hkind c.property hrecord (visited hrecord rfl) rfl) (.nil _)
    · have bare : (Step.plain c).Bare := ⟨rfl, rfl, rfl, by simp [Step.plain]⟩
      exact bare.level hhandle
  · intro s _ wp h
    exact h.ordinary wp s.child.property (by rw [hkind]; rfl) rfl
  · refine nodup_map_child fun c => ?_
    split <;> rfl

theorem admitted_handle (hkind : (env.tree.kind n).isHandle) :
    Admitted env n w (handlePlan env n) w := by
  have hkind' : env.tree.kind n = .parameterTableHandle ∨
      env.tree.kind n = .parameterDatasetHandle := by
    revert hkind
    cases env.tree.kind n <;> simp [NodeKind.isHandle]
  have hasks : (env.tree.kind n).consumesQualifier = false := by
    rcases hkind' with hk | hk <;> simp [hk]
  refine .of_runs .refl ?_ hasks
  refine course_level .nothing ?_ ?_ ?_ (by simp [handlePlan]) fun done _ => .nil _
  · intro s hs
    obtain ⟨c, -, rfl⟩ := List.mem_map.1 hs
    split
    · rename_i hfield
      refine ⟨rfl, rfl, by simp, ?_, fun done _ => ?_⟩
      · simp only [handleUses, hkind', hfield, true_and]
        split <;> rfl
      · dsimp only
        split
        · exact .cons (.countUse _ _) (.nil _)
        · exact .nil _
    · rename_i hfield
      refine ⟨rfl, rfl, by simp [Step.plain], ?_, fun done _ => .nil _⟩
      simp [handleUses, Step.plain, hfield]
  · intro s _ wp h
    refine h.child wp s.child.property ?_ (.inl ⟨rfl, ?_⟩)
    · intro hopen
      cases hopen <;> rcases hkind' with hk | hk <;> simp_all [NodeKind.takesClauses]
    · rcases hkind' with hk | hk <;> rw [hk] <;> rfl
  · refine nodup_map_child fun c => ?_
    split <;> rfl

/-! ### Tables and buffers -/

theorem ends_enterTable (hs : Sound w) (hkind : (env.tree.kind n).isTableDefinition)
    {kind : TableKind} (own : kind ≠ .schema) :
    Ends (enterTable env n kind) w (Refused env n w) (Admitted env n w) := by
  have hkind' : env.tree.kind n = .defineTempTable ∨ env.tree.kind n = .defineWorkTable := by
    revert hkind
    cases env.tree.kind n <;> simp [NodeKind.isTableDefinition]
  have hn : (env.tree.kind n).isName = false ∧ env.tree.kind n ≠ .field := by
    rcases hkind' with hk | hk <;> simp [hk]
  have shapes : (env.tree.kind n).shapesTable := by
    rcases hkind' with hk | hk <;> rw [hk] <;> rfl
  unfold enterTable
  rw [ends_bind]
  cases hd : w.tableDefinition with
  | some d =>
    rw [ends_beginTable_nested n _ _ hd]
    refine .misplaced (.nestedTable hkind ?_)
    simp [Walk.frame, hd]
  | none =>
    refine (ends_beginTable env n hs _ own hd hn).imp ?_
    rintro b w₁ ⟨runs, hbuffer, t, frame⟩
    have closed : w.frame.table = none := by simp [Walk.frame, hd]
    refine .of_runs runs ?_ (by rcases hkind' with hk | hk <;> simp [hk])
    rw [frame]
    refine course_around (.table t hbuffer.isPlain (not_caught_of_isBuffer hbuffer) closed)
      bareSteps_plain ?_ ?_ (by simp [Plan.around, Action.isLate])
      fun done => .cons (.closeTable t b closed shapes) (.nil _)
    · rcases hkind' with hk | hk <;> rw [hk] <;> rfl
    · intro c hc wp h
      exact h.child wp hc (fun _ => by simp) (.inr ⟨rfl, hkind⟩)

theorem frame_table_none (h : w.tableDefinition = none) : w.frame.table = none := by
  simp [Walk.frame, h]

theorem ends_enterTableField (hs : Sound w) (hkind : env.tree.kind n = .tableField) :
    Ends (enterTableField env n) w (Refused env n w) (Admitted env n w) := by
  unfold enterTableField
  rw [ends_bind]
  cases hd : w.tableDefinition with
  | none =>
    unfold beginField
    rw [ends_bind, ends_openTable_none hd]
    exact .misplaced (.tableClause (by rw [hkind]; rfl) (frame_table_none hd))
  | some d =>
    refine (ends_beginField env n hs _ hd hkind).imp ?_
    rintro ⟨f, s⟩ w₁ ⟨runs, reaches, frame⟩
    dsimp only at reaches frame ⊢
    have table : w.frame.table = some (d.table, d.buffer) := by simp [Walk.frame, hd]
    refine .of_runs runs ?_ (by simp [hkind])
    rw [frame]
    refine course_around (.field reaches table) bareSteps_plain (by rw [hkind]; rfl) ?_
      (by simp [Plan.around, Action.isLate]) fun done => .cons (.joinField reaches table) (.nil _)
    intro c hc wp h
    exact h.definition wp hc (by rw [hkind]; rfl) (by simp) rfl

theorem ends_enterUseIndex (hs : Sound w) (hkind : env.tree.kind n = .tableUseIndex) :
    Ends (enterUseIndex env n) w (Refused env n w) (Admitted env n w) := by
  unfold enterUseIndex
  rw [ends_bind]
  cases hd : w.tableDefinition with
  | none =>
    unfold updateOpenTable
    rw [ends_bind, ends_openTable_none hd]
    exact .misplaced (.tableClause (by rw [hkind]; rfl) (frame_table_none hd))
  | some d =>
    rw [ends_updateOpenTable hd, ends_pure]
    have deferred := hs.deferred d hd
    refine .of_moves (.single (.clause hd rfl rfl ?_ (by rw [hkind]; rfl))) (by rw [hkind]; rfl)
      (by simp [hkind]) bareSteps_nil
    exact ⟨deferred.like, deferred.indexFields⟩

theorem ends_enterTableIndex (hs : Sound w) (hkind : env.tree.kind n = .tableIndex) :
    Ends (enterTableIndex env n) w (Refused env n w) (Admitted env n w) := by
  unfold enterTableIndex
  rw [ends_bind]
  cases hd : w.tableDefinition with
  | none =>
    unfold addIndex
    rw [ends_bind, ends_openTable_none hd]
    exact .misplaced (.tableClause (by rw [hkind]; rfl) (frame_table_none hd))
  | some d =>
    refine (ends_addIndex env n hs hd (by rw [hkind]; rfl)).imp fun _ w₁ moves => ?_
    exact .of_moves moves (by rw [hkind]; rfl) (by simp [hkind]) bareSteps_nil

/-- The first record below a node is among the children that are visited. -/
theorem record_visited {steps : List (Step env.tree n)} {done : List NodeId}
    (all : ∀ r, env.tree.childOfKind? n .record = some r → ∃ s ∈ steps, s.child.val = r)
    (records : ∀ s ∈ steps, env.tree.kind s.child.val = .record → s.child.val ∈ done) :
    ∀ r, env.tree.childOfKind? n .record = some r → r ∈ done := by
  intro r hr
  obtain ⟨s, hs, rfl⟩ := all r hr
  have hkind := List.find?_some hr
  exact records s hs (by simpa using hkind)

theorem exists_child_of_childOfKind? {t : ParseTree} {m r : NodeId} {kind : NodeKind}
    (h : t.childOfKind? m kind = some r) : ∃ c ∈ t.childList m, c.val = r :=
  ⟨⟨r, List.mem_of_find?_eq_some h⟩, List.mem_attach _ _, rfl⟩

theorem exists_firstStep {t : ParseTree} {m r : NodeId} {kind : NodeKind} {q : Qualifier}
    (h : t.childOfKind? m kind = some r) : ∃ s ∈ firstSteps t m kind q, s.child.val = r := by
  obtain ⟨c, hc, rfl⟩ := exists_child_of_childOfKind? h
  exact ⟨_, List.mem_map_of_mem hc, rfl⟩

theorem exists_onlyStep {t : ParseTree} {m r : NodeId} {kind : NodeKind} {q : Qualifier}
    (h : t.childOfKind? m kind = some r) : ∃ s ∈ onlySteps t m kind q, s.child.val = r := by
  obtain ⟨c, hc, rfl⟩ := exists_child_of_childOfKind? h
  exact ⟨_, List.mem_map_of_mem (List.mem_filter.2 ⟨hc, by simpa using h⟩), rfl⟩

/-- A node at which nothing is opened and actions on the first record below it end the visit. -/
theorem admitted_record {steps : List (Step env.tree n)} {leave : List Action}
    (hkind : (env.tree.kind n).isOrdinary) (hasks : (env.tree.kind n).consumesQualifier = false)
    (bare : BareSteps steps)
    (all : ∀ r, env.tree.childOfKind? n .record = some r → ∃ s ∈ steps, s.child.val = r)
    (quiet : ∀ a ∈ leave, a.isLate = false)
    (acts : ∀ done, (∀ r, env.tree.childOfKind? n .record = some r → r ∈ done) →
      Acts env n w.index w.frame done w.frame leave w.frame) :
    Admitted env n w { steps, leave } w := by
  refine .of_runs .refl (course_plain hkind bare quiet ?_) hasks
  intro done records
  exact acts done (record_visited env n all records)

theorem bareSteps_buffer : BareSteps (bufferSteps env n) := by
  refine bareSteps_first _ ?_
  split <;> simp

theorem ends_enterTableLike (hkind : env.tree.kind n = .tableLike) :
    Ends (enterTableLike env n) w (Refused env n w) (Admitted env n w) := by
  have hordinary : (env.tree.kind n).isOrdinary := by rw [hkind]; rfl
  have hasks : (env.tree.kind n).consumesQualifier = false := by simp [hkind]
  unfold enterTableLike
  cases hr : env.tree.childOfKind? n .record with
  | none => exact .of_moves .refl hordinary hasks bareSteps_plain
  | some r =>
    refine admitted_record env n hordinary hasks (bareSteps_only _ (by simp))
      (fun r => exists_onlyStep) (by simp [Action.isLate]) fun done visited => ?_
    exact .cons (.copyFields hkind (visited r hr) rfl) (.nil _)

theorem ends_enterBuffer (hkind : env.tree.kind n = .defineBuffer) :
    Ends (enterBuffer env n) w (Refused env n w) (Admitted env n w) := by
  refine admitted_record env n (by rw [hkind]; rfl) (by simp [hkind]) (bareSteps_buffer env n)
    (fun r => exists_firstStep) (by simp [Action.isLate]) fun done visited => ?_
  exact .cons (.defineBuffer _ (by rw [hkind]; rfl) rfl visited) (.nil _)

theorem ends_enterBufferParameter (hkind : env.tree.kind n = .bufferParameter) :
    Ends (enterBufferParameter env n) w (Refused env n w) (Admitted env n w) := by
  refine admitted_record env n (by rw [hkind]; rfl) (by simp [hkind]) (bareSteps_buffer env n)
    (fun r => exists_firstStep) (by simp [Action.isLate]) fun done visited => ?_
  exact .cons (.addBufferParameter _ (by rw [hkind]; rfl) rfl visited) (.nil _)

theorem ends_enterTableParameter (hkind : env.tree.kind n = .tableParameter) :
    Ends (enterTableParameter env n) w (Refused env n w) (Admitted env n w) := by
  refine admitted_record env n (by rw [hkind]; rfl) (by simp [hkind])
    (bareSteps_first _ (by simp)) (fun r => exists_firstStep) ?_ fun done visited => ?_
  · split <;> simp [Action.isLate]
  · split
    · rename_i r hr
      exact .cons (.addTableParameter _ _ (visited r hr)) (.nil _)
    · exact .nil _

/-! ### Clauses -/

/-- A clause applies to the innermost open definition, or else it is misplaced. -/
theorem ends_clauseTarget {m : Misplacement}
    (misfit : w.frame.definitions = [] → Misfit env.tree n w.frame m) :
    Ends (clauseTarget m) w (Refused env n w) fun s w' => w' = w ∧ s ∈ w.openDefinitions := by
  unfold clauseTarget
  rw [ends_bind, ends_get]
  cases hd : w.openDefinitions with
  | nil => exact .misplaced (misfit hd)
  | cons s rest => exact ⟨rfl, List.mem_cons_self⟩

theorem ends_enterAs (hs : Sound w) (hkind : env.tree.kind n = .asClause) :
    Ends (enterAs env n) w (Refused env n w) (Admitted env n w) := by
  have hordinary : (env.tree.kind n).isOrdinary := by rw [hkind]; rfl
  have hasks : (env.tree.kind n).consumesQualifier = false := by simp [hkind]
  unfold enterAs
  rw [ends_bind]
  refine (ends_clauseTarget env n (.asClause hkind)).mono (fun _ _ => id) ?_
  rintro s w₁ ⟨hw, isOpen⟩
  rw [hw]
  split
  · rw [ends_bind]
    refine (ends_setDataType env n hs _ _ (by rw [hkind]; rfl) isOpen).imp fun _ w₂ moves => ?_
    exact .of_moves moves hordinary hasks bareSteps_nil
  · exact .of_moves .refl hordinary hasks bareSteps_nil

theorem ends_enterReturns (hs : Sound w) (hkind : env.tree.kind n = .returnsClause) :
    Ends (enterReturns env n) w (Refused env n w) (Admitted env n w) := by
  have hordinary : (env.tree.kind n).isOrdinary := by rw [hkind]; rfl
  have hasks : (env.tree.kind n).consumesQualifier = false := by simp [hkind]
  unfold enterReturns
  split
  · rw [ends_bind]
    refine (ends_currentRoutine hs).imp ?_
    rintro r w₁ ⟨hw, body, hroutine⟩
    rw [hw, ends_bind]
    refine (ends_updateRoutine env n hroutine.lt_size ?_).imp ?_
    · intro v r hv
      exact .returns hv _ _
    · rintro _ w₂ ⟨moves, -⟩
      exact .of_moves moves hordinary hasks bareSteps_nil
  · exact .of_moves .refl hordinary hasks bareSteps_nil

theorem ends_enterLike (hkind : env.tree.kind n = .likeClause) :
    Ends (enterLike env n) w (Refused env n w) (Admitted env n w) := by
  have hordinary : (env.tree.kind n).isOrdinary := by rw [hkind]; rfl
  have hasks : (env.tree.kind n).consumesQualifier = false := by simp [hkind]
  unfold enterLike
  rw [ends_bind]
  refine (ends_clauseTarget env n (.likeClause hkind)).mono (fun _ _ => id) ?_
  rintro s w₁ ⟨hw, isOpen⟩
  rw [hw]
  split
  · refine .of_runs .refl ?_ hasks
    refine course_plain hordinary (bareSteps_only _ (by simp)) (by simp [Action.isLate]) ?_
    intro done _
    exact .cons (.copyType _ hkind isOpen) (.nil _)
  · exact .of_moves .refl hordinary hasks bareSteps_plain

theorem ends_enterExtent (hs : Sound w) (hkind : env.tree.kind n = .extentClause) :
    Ends (enterExtent env n) w (Refused env n w) (Admitted env n w) := by
  unfold enterExtent
  rw [ends_bind]
  refine (ends_clauseTarget env n (.extentClause hkind)).mono (fun _ _ => id) ?_
  rintro s w₁ ⟨hw, isOpen⟩
  rw [hw, ends_bind]
  refine (ends_setExtent env n hs _ (by rw [hkind]; rfl) isOpen).imp fun _ w₂ moves => ?_
  exact .of_moves moves (by rw [hkind]; rfl) (by simp [hkind]) bareSteps_plain

theorem ends_enterAggregate (hs : Sound w) (hkind : env.tree.kind n = .aggregateOption) :
    Ends (enterAggregate env n) w (Refused env n w) (Admitted env n w) := by
  have initial : w.index.Initial (.variable { type := { dataType := some .decimal } }) :=
    fun _ => rfl
  unfold enterAggregate
  rw [ends_bind, ends_currentScope hs, ends_bind]
  refine (ends_createSymbol env n _ hs.scope_lt initial (by simp [hkind]) fun _ => rfl).imp ?_
  rintro s w₁ ⟨moves₁, hget, rfl, -⟩
  have closed : w.index.symbols.next ∉ w₁.openDefinitions :=
    (Moves.openDefinitions env n moves₁).symm ▸ hs.next_notMem
  rw [ends_bind]
  refine (ends_attach env n (moves₁.runs.sound hs) ⟨w.scope, .variable, _, hget, rfl, rfl⟩
    closed).imp ?_
  rintro _ w₂ ⟨moves₂, -⟩
  exact .of_moves (moves₁.trans moves₂) (by rw [hkind]; rfl) (by simp [hkind]) bareSteps_plain

/-! ### Phrases -/

theorem ends_enterFieldList (hkind : (env.tree.kind n).isOrdinary)
    (hasks : (env.tree.kind n).consumesQualifier = false) {q : Qualifier}
    (hq : q ≠ .schemaTableSymbol) :
    Ends (enterFieldList env n q) w (Refused env n w) (Admitted env n w) := by
  unfold enterFieldList
  rw [ends_bind, ends_get]
  refine .of_moves .refl hkind hasks (bareSteps_map ?_ ?_ (nodup_childList env.tree n))
  · intro c
    split <;> rfl
  · intro c
    split
    · exact ⟨rfl, rfl, rfl, by simpa using hq⟩
    · exact ⟨rfl, rfl, rfl, by simp [Step.plain]⟩

theorem ends_enterExpression (hs : Sound w)
    (hkind : env.tree.kind n = .expression ∨ env.tree.kind n = .formItem) :
    Ends (enterExpression env n) w (Refused env n w) (Admitted env n w) := by
  unfold enterExpression
  rw [ends_bind]
  refine (ends_takeQualifier env n).imp ?_
  rintro q w₁ ⟨rfl, moves, untold, -⟩
  rw [ends_bind, ends_annotate, ends_pure]
  refine .of_taken (moves.tail (.mark (.qualify _ ?_))) untold ?_ ?_
    (bareSteps_qualified (hs.qualifierAt_ne n))
  · exact hkind.imp_right .inl
  · rcases hkind with hk | hk <;> rw [hk] <;> rfl
  · rcases hkind with hk | hk <;> simp [hk]

theorem ends_enterRecordPhrase (hs : Sound w) (hkind : env.tree.kind n = .recordPhrase) :
    Ends (enterRecordPhrase env n) w (Refused env n w) (Admitted env n w) := by
  unfold enterRecordPhrase
  rw [ends_bind]
  refine (ends_takeQualifier env n).imp ?_
  rintro q w₁ ⟨rfl, moves, untold, -⟩
  exact .of_taken moves untold (by rw [hkind]; rfl) (by simp [hkind])
    (bareSteps_qualifying _ (hs.qualifierAt_ne n))

theorem ends_enterMemoryFunction (hkind : env.tree.kind n = .memoryManagementFunction) :
    Ends (enterMemoryFunction env n) w (Refused env n w) (Admitted env n w) := by
  unfold enterMemoryFunction
  rw [ends_bind]
  refine (ends_takeQualifier env n).imp ?_
  rintro q w₁ ⟨rfl, moves, untold, -⟩
  rw [ends_bind, ends_annotate, ends_pure]
  exact .of_taken (moves.tail (.mark (.qualify _ (.inr (.inr hkind))))) untold
    (by rw [hkind]; rfl) (by simp [hkind]) (bareSteps_operands (by simp) (by simp))

theorem admitted_message (hkind : env.tree.kind n = .messageOption) :
    Admitted env n w (messagePlan env n) w := by
  have hordinary : (env.tree.kind n).isOrdinary := by rw [hkind]; rfl
  have hasks : (env.tree.kind n).consumesQualifier = false := by simp [hkind]
  unfold messagePlan
  split
  · exact .of_moves .refl hordinary hasks (bareSteps_qualifying _ (by simp))
  · exact .of_moves .refl hordinary hasks bareSteps_plain

theorem argumentQualifier_ne (t : ParseTree) : argumentQualifier t n ≠ .schemaTableSymbol := by
  unfold argumentQualifier
  split
  · simp
  · split <;> simp

theorem usingQualifier_ne : usingQualifier env n ≠ .schemaTableSymbol := by
  unfold usingQualifier
  split <;> simp

/-! ### All kinds -/

/-- Entering a node of a sound walk. -/
theorem ends_enter (hs : Sound w) :
    Ends (enter env n) w (Refused env n w) (Admitted env n w) := by
  have stay : ∀ {steps : List (Step env.tree n)}, (env.tree.kind n).isOrdinary →
      (env.tree.kind n).consumesQualifier = false → BareSteps steps →
      Ends (pure { steps }) w (Refused env n w) (Admitted env n w) :=
    fun hkind hasks bare => .of_moves .refl hkind hasks bare
  unfold enter
  dsimp only
  cases hkind : env.tree.kind n with
  | program | statement | aggregatePhrase | messageStatement | runStatement =>
    exact stay (by rw [hkind]; rfl) (by simp [hkind]) bareSteps_plain
  | classStatement | interfaceStatement =>
    exact ends_enterClass env n hs (by rw [hkind]; rfl) (by simp [hkind]) rfl
  | doBlock | repeatBlock =>
    exact ends_enterBlock env n hs (by rw [hkind]; rfl) (by simp [hkind]) (by simp) bareSteps_plain
  | forBlock =>
    exact ends_enterBlock env n hs (by rw [hkind]; rfl) (by simp [hkind]) (by simp)
      (bareSteps_qualifying _ (by simp))
  | blockFor => exact admitted_blockFor env n hkind
  | blockIterator | assignEqual | bufferCompare | bufferCopy | rawTransfer =>
    exact stay (by rw [hkind]; rfl) (by simp [hkind]) (bareSteps_operands (by simp) (by simp))
  | blockWhile | browseDisplay | browseEnable | displayStatement | formStatement
  | enableStatement | promptForStatement | setStatement | updateStatement | systemDialog
  | runSet => exact stay (by rw [hkind]; rfl) (by simp [hkind]) (bareSteps_qualified (by simp))
  | blockPreselect | dataRelation | parentIdRelation | sourceBufferPhrase | assignStatement
  | createStatement | deleteStatement | releaseStatement | validateStatement | recordFunction
  | findStatement | openQuery | parameterTable | parameterBuffer =>
    exact stay (by rw [hkind]; rfl) (by simp [hkind]) (bareSteps_qualifying _ (by simp))
  | procedureStatement | methodStatement | constructorStatement | destructorStatement
  | propertyAccessor =>
    exact ends_enterRoutine env n hs (by rw [hkind]; rfl) (by simp [hkind]) (by simp [hkind]) _ _
      rfl
  | functionStatement => exact ends_enterFunction env n hs hkind
  | onStatement => exact ends_enterTrigger env n hs hkind
  | catchBlock => exact ends_enterCatch env n hs hkind
  | defineVariable => exact ends_enterVariable env n hs hkind
  | defineParameter => exact ends_enterParameter env n hs (.inl hkind)
  | functionParameter => exact ends_enterParameter env n hs (.inr hkind)
  | defineProperty => exact ends_enterProperty env n hs hkind
  | defineTempTable | defineWorkTable =>
    exact ends_enterTable env n hs (by rw [hkind]; rfl) (by simp)
  | defineBuffer => exact ends_enterBuffer env n hkind
  | defineEvent => exact ends_enterEvent env n hs hkind
  | defineBrowse => exact ends_enterBrowse env n hs hkind
  | defineWidget widget => exact ends_enterWidget env n hs hkind
  | bufferParameter => exact ends_enterBufferParameter env n hkind
  | tableParameter => exact ends_enterTableParameter env n hkind
  | asClause => exact ends_enterAs env n hs hkind
  | likeClause => exact ends_enterLike env n hkind
  | extentClause => exact ends_enterExtent env n hs hkind
  | returnsClause => exact ends_enterReturns env n hs hkind
  | tableLike => exact ends_enterTableLike env n hkind
  | tableUseIndex => exact ends_enterUseIndex env n hs hkind
  | tableField => exact ends_enterTableField env n hs hkind
  | tableIndex => exact ends_enterTableIndex env n hs hkind
  | relationFields => exact stay (by rw [hkind]; rfl) (by simp [hkind]) bareSteps_relation
  | keyFields | fieldsPhrase | exceptPhrase =>
    exact ends_enterFieldList env n (by rw [hkind]; rfl) (by simp [hkind]) (by simp)
  | usingPhrase =>
    exact ends_enterFieldList env n (by rw [hkind]; rfl) (by simp [hkind]) (usingQualifier_ne env n)
  | aggregateOption => exact ends_enterAggregate env n hs hkind
  | messageOption => exact admitted_message env n hkind
  | runParameter =>
    exact stay (by rw [hkind]; rfl) (by simp [hkind])
      (bareSteps_qualified (argumentQualifier_ne n env.tree))
  | parameterTableHandle | parameterDatasetHandle =>
    exact admitted_handle env n (by rw [hkind]; rfl)
  | recordPhrase => exact ends_enterRecordPhrase env n hs hkind
  | formItem => exact ends_enterExpression env n hs (.inr hkind)
  | expression => exact ends_enterExpression env n hs (.inl hkind)
  | memoryManagementFunction => exact ends_enterMemoryFunction env n hkind
  | widgetAttribute => exact ends_enterWidgetAttribute env n hs hkind
  | widgetName => exact ends_enterWidgetName env n hs hkind
  | field => exact ends_enterField env n hs hkind
  | record => exact ends_enterRecord env n hs hkind
  | indexField | identifier | typeName | literal =>
    exact stay (by rw [hkind]; rfl) (by simp [hkind]) bareSteps_nil
  | datatype type => exact stay (by rw [hkind]; rfl) (by simp [hkind]) bareSteps_nil
  | keyword name => exact stay (by rw [hkind]; rfl) (by simp [hkind]) bareSteps_nil

end AblResolve.Walk
