import AblResolve.Proofs.EnterReferences
import AblResolve.Proofs.TableDefinition
import Mathlib.Data.List.TakeDrop
/-!
Entering definitions, routines and blocks. What is opened on entering is closed by the actions at
the end, in the opposite order, and by those for the case of failure; only the variable of a CATCH
block is left open by the latter.
-/
namespace AblResolve

/-- The definitions of variables, properties, events, browses and widgets. -/
def NodeKind.definesSymbol : NodeKind → Bool
  | defineVariable | defineParameter | functionParameter | defineProperty | defineEvent
  | defineBrowse | defineWidget _ => true
  | _ => false

namespace Walk

open UnitIndex

variable (env : Env) (n : NodeId) {w : Walk}

/-! ### Definitions -/

section Caught

variable {t : ParseTree} {x : UnitIndex} {s : SymbolId} {symbol : Symbol}

theorem caught_of_node (h : x.symbols.get? s = some symbol)
    (node : symbol.definitionNode = some n) :
    caught t x s = (symbol.asVariable?.isSome && decide (t.kind n = .catchBlock)) := by
  simp only [caught, variableNode?, h, Option.bind_some, node]
  cases symbol.asVariable? <;> simp

theorem not_caught_of_isBuffer (h : x.IsBuffer s) : caught t x s = false := by
  obtain ⟨table, htable⟩ := h
  obtain ⟨symbol, b, hsymbol, hkind, -⟩ := bufferTable?_eq_some.1 htable
  simp [caught, variableNode?, hsymbol, Symbol.asVariable?, hkind]

end Caught

section Definition

variable {env n} {w' : Walk} {s : SymbolId} {symbol : Symbol} {steps : List (Step env.tree n)}
  {complete : List Action}

/-- A node that opens one definition around all its children. -/
theorem Admitted.of_definition (runs : Runs env n w w')
    (hn : (env.tree.kind n).definesSymbol)
    (frame : w'.frame = { w.frame with definitions := s :: w.frame.definitions })
    (hget : w'.index.symbols.get? s = some symbol) (node : symbol.definitionNode = some n)
    (plain : w'.index.IsPlain s) (bare : BareSteps steps) (quiet : ∀ a ∈ complete, a.isLate = false)
    (acts : ∀ done, Acts env n w'.index w.frame done w.frame complete w.frame) :
    Admitted env n w (.around steps [.endDefinition s] (.endDefinition s :: complete)) w' := by
  have hcatch : caught env.tree w'.index s = false := by
    rw [caught_of_node n hget node]
    cases hk : env.tree.kind n <;> simp_all [NodeKind.definesSymbol]
  have hhandle : (env.tree.kind n).isHandle = false := by
    cases hk : env.tree.kind n <;> simp_all [NodeKind.definesSymbol, NodeKind.isHandle]
  have htable : (env.tree.kind n).isTableDefinition = false := by
    cases hk : env.tree.kind n <;> simp_all [NodeKind.definesSymbol, NodeKind.isTableDefinition]
  have opened : Opened env.tree w'.index w.frame w'.frame [.endDefinition s] := by
    rw [frame]
    exact .definition plain hcatch
  have hasks : (env.tree.kind n).consumesQualifier = false := by
    cases hk : env.tree.kind n <;> simp_all [NodeKind.definesSymbol]
  refine .of_runs runs (course_around opened bare hhandle ?_ ?_ ?_) hasks
  · intro c hc wp h
    refine h.definition wp hc htable ?_ ?_ <;> simp [frame]
  · intro a ha
    rcases List.mem_cons.1 ha with rfl | ha
    · rfl
    · exact quiet a ha
  · intro done
    rw [frame]
    exact .cons (.endDefinition _ plain) (acts done)

theorem definesSymbol_ne (hn : (env.tree.kind n).definesSymbol) :
    (env.tree.kind n).isName = false := by
  revert hn
  cases env.tree.kind n <;> simp [NodeKind.definesSymbol]

end Definition

theorem ends_enterDefinition (hs : Sound w) (hn : (env.tree.kind n).definesSymbol)
    {kind : SymbolKind} {space : Namespace} {complete : SymbolId → List Action}
    (initial : w.index.Initial kind) (named : kind.space? = some space)
    (quiet : ∀ s, ∀ a ∈ complete s, a.isLate = false)
    (acts : ∀ x s done, x.Attachable s → s ∉ w.frame.definitions →
      Acts env n x w.frame done w.frame (complete s) w.frame) :
    Ends (enterDefinition env n kind complete) w (Refused env n w) (Admitted env n w) := by
  unfold enterDefinition
  rw [ends_bind]
  refine (ends_define env n hs _ initial (definesSymbol_ne hn)).imp ?_
  rintro s w₁ ⟨runs, frame, hget, closed⟩
  have attachable : w₁.index.Attachable s := ⟨w.scope, space, _, hget, rfl, named⟩
  refine .of_definition runs hn frame hget rfl attachable.isPlain bareSteps_plain (quiet s)
    fun done => ?_
  exact acts _ s done attachable closed

theorem ends_enterVariable (hs : Sound w) (hkind : env.tree.kind n = .defineVariable) :
    Ends (enterVariable env n) w (Refused env n w) (Admitted env n w) := by
  refine ends_enterDefinition env n hs (by rw [hkind]; rfl) (fun _ => rfl) rfl
    (by simp [Action.isLate]) ?_
  intro x s done attachable closed
  exact .cons (.attach _ attachable closed) (.nil _)

theorem ends_enterParameter (hs : Sound w)
    (hkind : env.tree.kind n = .defineParameter ∨ env.tree.kind n = .functionParameter) :
    Ends (enterParameter env n) w (Refused env n w) (Admitted env n w) := by
  have hn : (env.tree.kind n).definesSymbol := by rcases hkind with h | h <;> rw [h] <;> rfl
  refine ends_enterDefinition env n hs hn (fun _ => rfl) rfl (by simp [Action.isLate]) ?_
  intro x s done attachable closed
  exact .cons (.addParameter _ _ attachable closed) (.nil _)

theorem ends_enterBrowse (hs : Sound w) (hkind : env.tree.kind n = .defineBrowse) :
    Ends (enterBrowse env n) w (Refused env n w) (Admitted env n w) := by
  refine ends_enterDefinition env n hs (by rw [hkind]; rfl) trivial rfl (by simp [Action.isLate]) ?_
  intro x s done attachable closed
  exact .cons (.setColumns _ _ attachable.lt_size) (.cons (.attach _ attachable closed) (.nil _))

theorem ends_enterWidget (hs : Sound w) {widget : WidgetKind}
    (hkind : env.tree.kind n = .defineWidget widget) :
    Ends (enterWidget env n widget) w (Refused env n w) (Admitted env n w) := by
  have hn : (env.tree.kind n).definesSymbol := by rw [hkind]; rfl
  have initial : w.index.Initial (.widget widget) := trivial
  unfold enterWidget
  rw [ends_bind]
  refine (ends_define env n hs _ initial (definesSymbol_ne hn)).imp ?_
  rintro s w₁ ⟨runs, frame, hget, closed⟩
  have attachable : w₁.index.Attachable s := ⟨w.scope, _, _, hget, rfl, rfl⟩
  refine .of_definition runs hn frame hget rfl attachable.isPlain ?_ (by simp [Action.isLate])
    fun done => ?_
  · cases hq : widgetQualifier? widget with
    | none => exact bareSteps_plain
    | some q =>
      refine bareSteps_qualified ?_
      rintro rfl
      cases widget <;> simp [widgetQualifier?] at hq
  · exact .cons (.attach _ attachable closed) (.nil _)

theorem ends_enterEvent (hs : Sound w) (hkind : env.tree.kind n = .defineEvent) :
    Ends (enterEvent env n) w (Refused env n w) (Admitted env n w) := by
  have hn : (env.tree.kind n).definesSymbol := by rw [hkind]; rfl
  have initial : w.index.Initial (.event []) := trivial
  unfold enterEvent
  rw [ends_bind]
  refine (ends_define env n hs _ initial (definesSymbol_ne hn)).imp ?_
  rintro s w₁ ⟨runs, frame, hget, closed⟩
  have attachable : w₁.index.Attachable s := ⟨w.scope, .event, _, hget, rfl, rfl⟩
  have hs₁ := runs.sound hs
  have hevent : w₁.openEvent = w.openEvent := congrArg Frame.event frame
  rw [ends_bind, ends_get, ends_bind, ends_modify, ends_pure, hevent]
  have hframe : Walk.frame { w₁ with openEvent := some s } =
      { w.frame with definitions := s :: w.frame.definitions, event := some s } := by
    show { w₁.frame with event := some s } = _
    rw [frame]
  have standing : Standing w₁.index { w₁.frame with event := some s } := by
    refine { hs₁.standing with event := ?_ }
    rintro e ⟨⟩
    exact ⟨_, [], hget, rfl⟩
  refine .of_runs (runs.tail (.inr (.reframe standing))) ?_ (by simp [hkind])
  rw [hframe]
  refine course_around (.event attachable.isPlain ?_) bareSteps_plain (by rw [hkind]; rfl) ?_
    (by simp [Plan.around, Action.isLate]) ?_
  · rw [caught_of_node n hget rfl]
    simp [Symbol.asVariable?]
  · intro c hc wp h
    exact h.definition wp hc (by rw [hkind]; rfl) (by simp) rfl
  · intro done
    refine .cons (.closeEvent _ fun e he => ?_)
      (.cons (.endDefinition w.frame attachable.isPlain)
        (.cons (.attach _ attachable closed) (.nil _)))
    exact (hs.standing.event e he).extends runs.extends

/-! ### Properties and CATCH blocks -/

/-- A child is not both before and after the first for which a condition fails. -/
theorem not_mem_takeWhile_children {t : ParseTree} {m : NodeId} {p : NodeId → Bool}
    {c : t.Child m} (h : c ∈ (t.childList m).dropWhile fun c => p c.val) :
    c.val ∉ (t.children m).takeWhile p := by
  have hmap : (t.childList m).map (·.val) = t.children m := by
    rw [ParseTree.childList, List.attach_map_subtype_val]
  have htake : (t.children m).takeWhile p =
      ((t.childList m).takeWhile fun c => p c.val).map (·.val) :=
    (congrArg (List.takeWhile p) hmap).symm.trans List.takeWhile_map
  have once := nodup_childList t m
  rw [← List.takeWhile_append_dropWhile (p := fun c : t.Child m => p c.val) (l := t.childList m),
    List.map_append, List.nodup_append] at once
  rw [htake]
  intro hmem
  exact once.2.2 _ hmem _ (List.mem_map_of_mem h) rfl

section Property

variable {env n} {x : UnitIndex} {F₀ F : Frame} {s : SymbolId}

/-- A step that is bare but for what is done if it fails. -/
theorem level_guarded (hn : (env.tree.kind n).isHandle = false) (undo : List Action)
    (cs : List (env.tree.Child n)) :
    ∀ s ∈ cs.map fun c => ({ child := c, onFailure := undo } : Step env.tree n),
      s.Level env x F₀ F undo := by
  intro s hs
  obtain ⟨c, -, rfl⟩ := List.mem_map.1 hs
  have bare : (Step.plain c).Bare := ⟨rfl, rfl, rfl, by simp [Step.plain]⟩
  exact bare.guard hn undo

/-- A property with accessors: the property is complete before the first of them. -/
theorem course_property (hkind : env.tree.kind n = .defineProperty)
    (opened : Opened env.tree x F₀ F [.endDefinition s])
    (complete : ∀ done, Acts env n x F₀ done F [.endDefinition s, .attach s] F₀)
    {clauses rest : List (env.tree.Child n)} {first : env.tree.Child n}
    (fits : ∀ c ∈ env.tree.children n, env.tree.WellPlaced → Fits env.tree n F₀ →
      Fits env.tree c F)
    (once : ((clauses ++ first :: rest).map (·.val)).Nodup)
    (late : ∀ c ∈ first :: rest, ¬ env.tree.OpenFor n c.val) :
    Course env n x F₀ [] [] F
      (clauses.map (fun c => { child := c, onFailure := [.endDefinition s] }) ++
        { child := first, before := [.endDefinition s, .attach s] } :: rest.map Step.plain) := by
  have hhandle : (env.tree.kind n).isHandle = false := by rw [hkind]; rfl
  have below : ∀ c ∈ first :: rest, env.tree.WellPlaced → Fits env.tree n F₀ →
      Fits env.tree c.val F₀ := by
    intro c hc wp h
    exact h.child wp c.property (fun ho => absurd ho (late c hc)) (.inl ⟨rfl, by rw [hkind]; rfl⟩)
  refine course_append opened (level_guarded hhandle _ _) (fun s _ => fits _ s.child.property)
    (nodup_child (by simp [Function.comp_def, Step.plain]) once) ?_
  intro done _ _
  rw [List.map_append, List.nodup_append, List.map_cons, List.nodup_cons] at once
  obtain ⟨-, ⟨hfirst, hrest⟩, -⟩ := once
  refine .step (complete done) .nothing (fun r hr => .inl hr) (.nil _) (by simp [Action.isLate])
    (by rw [handleUses_eq_nil hhandle]; rfl) ?_ (by simp) (below first List.mem_cons_self) ?_
  · intro s' hs' heq
    obtain ⟨c, hc, rfl⟩ := List.mem_map.1 hs'
    exact hfirst (List.mem_map.2 ⟨c, hc, heq⟩)
  · refine course_level .nothing (level_guarded hhandle [] rest) ?_
      (nodup_child (by simp [Function.comp_def, Step.plain]) hrest) (by simp) fun done _ => .nil _
    intro s' hs'
    obtain ⟨c, hc, rfl⟩ := List.mem_map.1 hs'
    exact below c (List.mem_cons_of_mem _ hc)

end Property

theorem ends_enterProperty (hs : Sound w) (hkind : env.tree.kind n = .defineProperty) :
    Ends (enterProperty env n) w (Refused env n w) (Admitted env n w) := by
  have hn : (env.tree.kind n).definesSymbol := by rw [hkind]; rfl
  have initial : w.index.Initial (.variable { isProperty := true }) := fun _ => rfl
  unfold enterProperty
  dsimp only
  rw [ends_bind]
  refine (ends_define env n hs _ initial (definesSymbol_ne hn)).imp ?_
  rintro s w₁ ⟨runs, frame, hget, closed⟩
  have attachable : w₁.index.Attachable s := ⟨w.scope, .variable, _, hget, rfl, rfl⟩
  have opened : Opened env.tree w₁.index w.frame w₁.frame [.endDefinition s] := by
    rw [frame]
    refine .definition attachable.isPlain ?_
    rw [caught_of_node n hget rfl]
    simp [hkind]
  have complete : ∀ done, Acts env n w₁.index w.frame done w₁.frame
      [.endDefinition s, .attach s] w.frame := by
    intro done
    rw [frame]
    exact .cons (.endDefinition _ attachable.isPlain) (.cons (.attach _ attachable closed) (.nil _))
  have fits : ∀ c ∈ env.tree.children n, env.tree.WellPlaced → Fits env.tree n w.frame →
      Fits env.tree c w₁.frame := by
    intro c hc wp h
    refine h.definition wp hc (by rw [hkind]; rfl) ?_ ?_ <;> simp [frame]
  have late : ∀ c ∈ (env.tree.childList n).dropWhile fun c =>
      decide (env.tree.kind c.val ≠ .propertyAccessor), ¬ env.tree.OpenFor n c.val := by
    intro c hc hopen
    cases hopen with
    | definition kind => simp [hkind, NodeKind.takesClauses] at kind
    | property kind early => exact not_mem_takeWhile_children hc early
    | «catch» kind => simp [hkind] at kind
  have once := nodup_childList env.tree n
  rw [List.span_eq_takeWhile_dropWhile]
  rw [← List.takeWhile_append_dropWhile
    (p := fun c : env.tree.Child n => decide (env.tree.kind c.val ≠ .propertyAccessor))
    (l := env.tree.childList n)] at once
  revert late once
  dsimp only
  generalize (env.tree.childList n).takeWhile _ = clauses
  generalize (env.tree.childList n).dropWhile _ = accessors
  intro late once
  cases accessors with
  | nil =>
    rw [List.append_nil] at once
    refine .of_runs runs ?_ (by simp [hkind])
    exact course_level opened (level_guarded (by rw [hkind]; rfl) _ _)
      (fun s _ => fits _ s.child.property) (nodup_child (by simp [Function.comp_def]) once)
      (by simp [Action.isLate]) fun done _ => complete done
  | cons first rest =>
    exact .of_runs runs (course_property hkind opened complete fits once late) (by simp [hkind])

section Catch

variable {env n} {x : UnitIndex} {F₀ : Frame} {s : ScopeId} {b : BlockId} {d : SymbolId}

/-- The first child of a kind, with those before it and those after it. -/
theorem childList_split {t : ParseTree} {m c : NodeId} {kind : NodeKind}
    (h : t.childOfKind? m kind = some c) :
    ∃ early late, ∃ c' : t.Child m, c'.val = c ∧ t.childList m = early ++ c' :: late ∧
      c' :: late = (t.childList m).dropWhile fun c => decide (t.kind c.val ≠ kind) := by
  have hmap : (t.childList m).map (·.val) = t.children m := by
    rw [ParseTree.childList, List.attach_map_subtype_val]
  have hfind : ((t.childList m).map (·.val)).find? (fun c => decide (t.kind c = kind)) =
      some c := (congrArg (List.find? _) hmap).trans h
  rw [List.find?_map, Option.map_eq_some_iff] at hfind
  obtain ⟨c', hc', rfl⟩ := hfind
  obtain ⟨hkind, early, late, hsplit, hearly⟩ := List.find?_eq_some_iff_append.1 hc'
  refine ⟨early, late, c', rfl, hsplit, ?_⟩
  rw [hsplit, List.dropWhile_append_of_pos]
  · rw [List.dropWhile_cons_of_neg]
    simpa using hkind
  · intro a ha
    simpa using hearly a ha

/-- The visit of a child of a CATCH block with variable `d`. -/
def catchStep (clause : Option NodeId) (d : SymbolId) (c : env.tree.Child n) : Step env.tree n where
  child := c
  after := if clause = some c.val then [.endDefinition d, .attach d] else []

theorem level_catchStep (hn : (env.tree.kind n).isHandle = false) {clause : Option NodeId}
    {c : env.tree.Child n} (hne : clause ≠ some c.val) {F : Frame} :
    (Step.guard [.leaveScope] (catchStep clause d c)).Level env x F₀ F [.leaveScope] := by
  have bare : (catchStep clause d c).Bare := ⟨rfl, if_neg hne, rfl, by simp [catchStep]⟩
  exact bare.guard hn _

theorem acts_complete_catch (env : Env) (n : NodeId) (F₀ : Frame) (attachable : x.Attachable d)
    (done : List NodeId) (F : Frame) (closed : d ∉ F.definitions) :
    Acts env n x F₀ done { F with definitions := d :: F.definitions }
      [.endDefinition d, .attach d] F :=
  .cons (.endDefinition _ attachable.isPlain) (.cons (.attach _ attachable closed) (.nil _))

/-- A CATCH block is open for no child after its first AS clause. -/
theorem not_openFor_of_mem_late (hkind : env.tree.kind n = .catchBlock) {c c' : env.tree.Child n}
    {late : List (env.tree.Child n)} (hclause : env.tree.childOfKind? n .asClause = some c.val)
    (hdrop : c :: late =
      (env.tree.childList n).dropWhile fun c => decide (env.tree.kind c.val ≠ .asClause))
    (hc' : c' ∈ late) (hne : c'.val ≠ c.val) : ¬ env.tree.OpenFor n c'.val := by
  intro hopen
  cases hopen with
  | definition kind => simp [hkind, NodeKind.takesClauses] at kind
  | property kind => simp [hkind] at kind
  | «catch» kind early =>
    rcases early with early | hfirst
    · exact not_mem_takeWhile_children (hdrop ▸ List.mem_cons_of_mem _ hc') early
    · exact hne (Option.some.inj (hfirst.symm.trans hclause))

/-- What comes after the first AS clause of a CATCH block, in which its variable is complete. -/
theorem course_catch_late (hhandle : (env.tree.kind n).isHandle = false)
    (htable : (env.tree.kind n).isTableDefinition = false) (around : x.IsAround b s)
    (standing : Standing x F₀) {clause : Option NodeId} {late : List (env.tree.Child n)}
    (after : ∀ c ∈ late, clause ≠ some c.val) (shut : ∀ c ∈ late, ¬ env.tree.OpenFor n c.val)
    (once : (late.map (·.val)).Nodup) (done : List NodeId) :
    Course env n x F₀ [.leaveScope] done
      { F₀ with scopes := s :: F₀.scopes, blocks := b :: F₀.blocks }
      ((late.map (catchStep clause d)).map (Step.guard [.leaveScope])) := by
  rw [List.map_map]
  refine course_level (.scope around) ?_ ?_
    (nodup_child (by simp [Function.comp_def, Step.guard, catchStep]) once)
    (by simp [Action.isLate]) fun done _ => .cons (.leaveScope around standing) (.nil _)
  · intro step hstep
    obtain ⟨c', hc', rfl⟩ := List.mem_map.1 hstep
    exact level_catchStep hhandle (after c' hc')
  · intro step hstep wp h
    obtain ⟨c', hc', rfl⟩ := List.mem_map.1 hstep
    exact h.child wp c'.property (fun ho => absurd ho (shut c' hc')) (.inl ⟨rfl, htable⟩)

/-- A CATCH block with an AS clause: the variable is complete after the first one. -/
theorem course_catch (hkind : env.tree.kind n = .catchBlock) (around : x.IsAround b s)
    (found : d.val < x.symbols.size) (kept : caught env.tree x d = true)
    (attachable : x.Attachable d) (closed : d ∉ F₀.definitions) (standing : Standing x F₀)
    {clause : NodeId} (hclause : env.tree.childOfKind? n .asClause = some clause) :
    Course env n x F₀ [.leaveScope] []
      { F₀ with
        scopes := s :: F₀.scopes, blocks := b :: F₀.blocks, definitions := d :: F₀.definitions }
      (((env.tree.childList n).map (catchStep (some clause) d)).map
        (Step.guard [.leaveScope])) := by
  obtain ⟨early, late, c, rfl, hsplit, hdrop⟩ := childList_split hclause
  have hhandle : (env.tree.kind n).isHandle = false := by rw [hkind]; rfl
  have htable : (env.tree.kind n).isTableDefinition = false := by rw [hkind]; rfl
  have once := nodup_childList env.tree n
  rw [hsplit] at once ⊢
  have honce := once
  rw [List.map_append, List.nodup_append, List.map_cons, List.nodup_cons] at honce
  obtain ⟨-, ⟨hlate, hlateOnce⟩, hearly⟩ := honce
  have hne : ∀ c' ∈ late, c'.val ≠ c.val := by
    rintro c' hc' heq
    exact hlate (List.mem_map.2 ⟨c', hc', heq⟩)
  rw [List.map_map, List.map_append, List.map_cons]
  refine course_append (.catch around found kept) ?_ ?_
    (nodup_child (by simp [Function.comp_def, Step.guard, catchStep]) once) ?_
  · intro step hstep
    obtain ⟨c', hc', rfl⟩ := List.mem_map.1 hstep
    refine level_catchStep hhandle fun heq => ?_
    exact hearly _ (List.mem_map_of_mem hc') _ List.mem_cons_self (Option.some.inj heq).symm
  · intro step _ wp h
    exact h.definition wp step.child.property htable (by simp) rfl
  intro done _ _
  have after : (Step.guard [.leaveScope] (catchStep (some c.val) d c)).after =
      [.endDefinition d, .attach d] := if_pos rfl
  have acts := acts_complete_catch env n F₀ attachable done
    { F₀ with scopes := s :: F₀.scopes, blocks := b :: F₀.blocks } closed
  have rest := course_catch_late (d := d) hhandle htable around standing
    (fun c' hc' heq => hne c' hc' (Option.some.inj heq).symm)
    (fun c' hc' => not_openFor_of_mem_late hkind hclause hdrop hc' (hne c' hc')) hlateOnce done
  rw [List.map_map] at rest
  refine .step (.nil _) (.catch around found kept) (fun r hr => .inl hr) (after ▸ acts)
    (by simp [Step.guard, catchStep]) ?_ ?_ (by simp [Step.guard, catchStep]) ?_ rest
  · rw [handleUses_eq_nil hhandle]
    exact (congrArg (List.filter _) after).trans rfl
  · intro step hstep heq
    obtain ⟨c', hc', rfl⟩ := List.mem_map.1 hstep
    exact hne c' hc' heq
  · intro wp h
    exact h.definition wp c.property htable (by simp) rfl

/-- A CATCH block without an AS clause. -/
theorem course_catch_none (hkind : env.tree.kind n = .catchBlock) (around : x.IsAround b s)
    (found : d.val < x.symbols.size) (kept : caught env.tree x d = true)
    (attachable : x.Attachable d) (closed : d ∉ F₀.definitions) (standing : Standing x F₀) :
    Course env n x F₀ [.endDefinition d, .attach d, .leaveScope] []
      { F₀ with
        scopes := s :: F₀.scopes, blocks := b :: F₀.blocks, definitions := d :: F₀.definitions }
      (((env.tree.childList n).map (catchStep none d)).map (Step.guard [.leaveScope])) := by
  have hhandle : (env.tree.kind n).isHandle = false := by rw [hkind]; rfl
  rw [List.map_map]
  refine course_level (.catch around found kept) ?_ ?_
    (nodup_child (by simp [Function.comp_def, Step.guard, catchStep]) (nodup_childList env.tree n))
    (by simp [Action.isLate]) fun done _ => ?_
  · intro step hstep
    obtain ⟨c, -, rfl⟩ := List.mem_map.1 hstep
    exact level_catchStep hhandle (by simp)
  · intro step _ wp h
    exact h.definition wp step.child.property (by rw [hkind]; rfl) (by simp) rfl
  · refine .cons (.endDefinition
      { F₀ with scopes := s :: F₀.scopes, blocks := b :: F₀.blocks } attachable.isPlain) ?_
    exact .cons (.attach _ attachable closed) (.cons (.leaveScope around standing) (.nil _))

end Catch

theorem ends_enterCatch (hs : Sound w) (hkind : env.tree.kind n = .catchBlock) :
    Ends (enterCatch env n) w (Refused env n w) (Admitted env n w) := by
  have initial : ∀ x : UnitIndex, x.Initial (.variable {}) := fun _ _ => rfl
  unfold enterCatch
  rw [ends_bind]
  refine (ends_openScope env n hs rfl).imp ?_
  rintro s w₁ ⟨runs₁, b, around₁, frame₁⟩
  rw [ends_bind]
  refine (ends_define env n (runs₁.sound hs) _ (initial _) (by simp [hkind])).imp ?_
  rintro d w₂ ⟨runs₂, frame₂, hget, closed₂⟩
  have runs : Runs env n w w₂ := runs₁.trans runs₂
  have kept : caught env.tree w₂.index d = true := by
    rw [caught_of_node n hget rfl, hkind]
    rfl
  have found := Arena.lt_size_of_get? hget
  have around := around₁.extends runs₂.extends
  have attachable : w₂.index.Attachable d := ⟨w₁.scope, .variable, _, hget, rfl, rfl⟩
  have closed : d ∉ w.frame.definitions := by rwa [frame₁] at closed₂
  have standing := hs.standing.extends runs.extends
  refine .of_runs runs ?_ (by simp [hkind])
  rw [frame₂, frame₁]
  cases hclause : env.tree.childOfKind? n .asClause with
  | none => exact course_catch_none hkind around found kept attachable closed standing
  | some clause => exact course_catch hkind around found kept attachable closed standing hclause

end Walk

end AblResolve
