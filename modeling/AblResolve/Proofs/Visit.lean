import AblResolve.Proofs.Steps
import AblResolve.Proofs.Unwind
/-!
Visits. `entries` lists the nodes that a visit enters, each with the state in which it is entered.
A visit of a sound walk either succeeds, and then every one of them has been entered, or it breaks
in one of four ways; `ends_visit` is the induction over the tree that says so.
-/
namespace AblResolve.Walk

open UnitIndex ParseTree

/-! ### The nodes that are entered -/

/-- What the rounds of a loop list, up to the round that fails. -/
def collect {β γ : Type} (f : β → WalkM Unit) (trace : β → Walk → List γ) : List β → Walk → List γ
  | [], _ => []
  | b :: bs, w => trace b w ++
      match f b w with
      | .ok _ w' => collect f trace bs w'
      | .error _ _ => []

/-- The nodes that a visit of node `n` in state `w` enters, in order, each with the state in which
it is entered. -/
def entries (env : Env) (n : NodeId) (w : Walk) : List (NodeId × Walk) :=
  (n, w) ::
    match enter env n w with
    | .ok plan v =>
      collect (fun step => step.run env (visit env step.child.val))
        (fun step w =>
          match step.ready env w with
          | .ok _ w' => entries env step.child.val w'
          | .error _ _ => [])
        plan.steps v
    | .error _ _ => []
termination_by env.tree.size - n.val
decreasing_by exact step.child.size_sub_lt

/-- The nodes that one step enters. -/
def Step.entries (env : Env) {n : NodeId} (step : Step env.tree n) (w : Walk) :
    List (NodeId × Walk) :=
  match step.ready env w with
  | .ok _ w' => Walk.entries env step.child.val w'
  | .error _ _ => []

/-- The nodes that several steps enter. -/
def stepsEntries (env : Env) {n : NodeId} (steps : List (Step env.tree n)) (w : Walk) :
    List (NodeId × Walk) :=
  collect (fun step => step.run env (visit env step.child.val)) (Step.entries env) steps w

def Entered (env : Env) (e : NodeId × Walk) : Prop := ∃ plan v, enter env e.1 e.2 = .ok plan v

section Entries

variable {env : Env} {n : NodeId} {w w' : Walk}

theorem entries_of_ok {plan : Plan env.tree n} (h : enter env n w = .ok plan w') :
    entries env n w = (n, w) :: stepsEntries env plan.steps w' := by
  rw [entries, h]
  rfl

theorem entries_of_error {f : Fault} (h : enter env n w = .error f w') :
    entries env n w = [(n, w)] := by
  rw [entries, h]

variable {step : Step env.tree n} {rest : List (Step env.tree n)}

theorem Step.entries_of_ok (h : step.ready env w = .ok () w') :
    step.entries env w = Walk.entries env step.child.val w' := by
  rw [Step.entries, h]

theorem stepsEntries_of_ok (h : step.run env (visit env step.child.val) w = .ok () w') :
    stepsEntries env (step :: rest) w = step.entries env w ++ stepsEntries env rest w' := by
  rw [stepsEntries, collect, h]
  rfl

theorem stepsEntries_of_error {f : Fault}
    (h : step.run env (visit env step.child.val) w = .error f w') :
    stepsEntries env (step :: rest) w = step.entries env w := by
  rw [stepsEntries, collect, h]
  exact List.append_nil _

end Entries

/-! ### Failures -/

/-- Node `r` is a record that names no table when it is entered in state `v`. -/
def NamesNone (env : Env) (r : NodeId) (v : Walk) : Prop :=
  env.tree.kind r = .record ∧ Missing env v (env.tree.text r) (.ofQualifier (v.qualifierAt r))

/-- A walk stops at record `r` in state `v`: all nodes before it have been entered, but it names
no table. -/
structure Stops (env : Env) (es : List (NodeId × Walk)) (r : NodeId) (v : Walk) : Prop where
  last : ∃ before, es = before ++ [(r, v)] ∧ ∀ e ∈ before, Entered env e
  sound : Sound v
  namesNone : NamesNone env r v

/-- How a visit that begins in state `w` and enters the nodes in `es` can fail. -/
inductive Breaks (env : Env) (w : Walk) (es : List (NodeId × Walk)) : Fault → Walk → Prop
  | misplaced {m : Misplacement} {k : NodeId} {v w' : Walk} (entry : (k, v) ∈ es)
      (passed : ∀ e ∈ es, e ≠ (k, v) → Entered env e) (misfit : Misfit env.tree k v.frame m) :
      Breaks env w es (.misplaced m) w'
  | dangling {s : SymbolId} {size : Nat} {w' : Walk} (stale : ¬ w.InRange)
      (passed : ∀ e ∈ es, Entered env e) :
      Breaks env w es (.breach (.dangling .symbol s.val size)) w'
  | unresolved {r : NodeId} {v w' : Walk} {E : List SymbolId} (stops : Stops env es r v)
      (opened : v.openDefinitions = E ++ w.frame.definitions)
      (orderly : Orderly env.tree v.index E) (sound : Sound w')
      (ext : w.index.Extends w'.index) (since : v.index.Extends w'.index)
      (frame : w'.frame = { w.frame with
        definitions := E.filter (caught env.tree v.index) ++ w.frame.definitions }) :
      Breaks env w es
        (.unresolvedTable (env.tree.text r) (fileNameOf env r) (env.tree.location r)) w'
  | disorder {r : NodeId} {v w' : Walk} {E : List SymbolId} {inner : Option SymbolId}
      {closing : SymbolId} (stops : Stops env es r v)
      (opened : v.openDefinitions = E ++ w.frame.definitions)
      (disorder : ¬ Orderly env.tree v.index E) :
      Breaks env w es (.breach (.definitionOrder inner closing)) w'

section Breaks

variable {env : Env} {n : NodeId} {w w' : Walk} {es before : List (NodeId × Walk)} {f : Fault}

theorem Stops.prepend {r : NodeId} {v : Walk} (h : Stops env es r v)
    (hbefore : ∀ e ∈ before, Entered env e) : Stops env (before ++ es) r v := by
  obtain ⟨before', rfl, hbefore'⟩ := h.last
  refine ⟨⟨before ++ before', by simp, fun e he => ?_⟩, h.sound, h.namesNone⟩
  rcases List.mem_append.1 he with he | he
  · exact hbefore e he
  · exact hbefore' e he

theorem Breaks.prepend (h : Breaks env w es f w') (hbefore : ∀ e ∈ before, Entered env e) :
    Breaks env w (before ++ es) f w' := by
  cases h with
  | misplaced entry passed misfit =>
    refine .misplaced (List.mem_append_right _ entry) (fun e he hne => ?_) misfit
    rcases List.mem_append.1 he with he | he
    · exact hbefore e he
    · exact passed e he hne
  | dangling stale passed =>
    refine .dangling stale fun e he => ?_
    rcases List.mem_append.1 he with he | he
    · exact hbefore e he
    · exact passed e he
  | unresolved stops opened orderly sound ext since frame =>
    exact .unresolved (stops.prepend hbefore) opened orderly sound ext since frame
  | disorder stops opened disorder => exact .disorder (stops.prepend hbefore) opened disorder

/-- A failure at the node itself. -/
theorem Faults.breaks (h : Faults env.tree n w.frame (¬ w.InRange) f w') (entry : (n, w) ∈ es)
    (passed : ∀ e ∈ es, Entered env e) : Breaks env w es f w' := by
  cases h with
  | misplaced misfit => exact .misplaced entry (fun e he _ => passed e he) misfit
  | dangling why => exact .dangling why passed

theorem Opened.definitions {x : UnitIndex} {F₀ F : Frame} {undo : List Action}
    (h : Opened env.tree x F₀ F undo) : ∃ P, F.definitions = P ++ F₀.definitions := by
  cases h with
  | nothing | block | scope => exact ⟨[], rfl⟩
  | definition | event | table | field | «catch» => exact ⟨[_], rfl⟩

end Breaks

/-! ### One step -/

section Step

variable {env : Env} {n : NodeId} {w₀ w w' : Walk} {leave : List Action}
  {step : Step env.tree n} {rest : List (Step env.tree n)} {done : List NodeId}
  {es : List (NodeId × Walk)} {f : Fault}

/-- What is done when the visit of the child of a step fails. -/
def Step.undo (env : Env) {n : NodeId} (step : Step env.tree n) (f : Fault) : WalkM Unit := do
  if f.isUnresolvedTable then
    performAll env step.onFailure
  throw f

/-- The variables of CATCH blocks among the definitions around a record that names no table, seen
after the failure. -/
theorem Stops.caught_eq {r : NodeId} {v : Walk} {E : List SymbolId} {F : List SymbolId}
    (h : Stops env es r v) (opened : v.openDefinitions = E ++ F)
    (since : v.index.Extends w'.index) {d : SymbolId} (hd : d ∈ E ++ F) :
    caught env.tree w'.index d = caught env.tree v.index d := by
  refine caught_extends since (h.sound.standing.definitions d ?_)
  show d ∈ v.openDefinitions
  rwa [opened]

/-- The failure of a child, after what the node had opened for it has been closed. -/
theorem Poised.ends_failure (h : Poised env n w₀ leave step rest done w)
    (breaks : Breaks env w es f w') {Q : Unit → Walk → Prop} :
    Ends (step.undo env f) w' (Breaks env w₀ es) Q := by
  cases breaks with
  | misplaced entry passed misfit => exact .misplaced entry passed misfit
  | dangling stale passed => exact .dangling (mt h.since.inRange stale) passed
  | disorder stops opened disorder =>
    obtain ⟨P, hP⟩ := h.opened.definitions
    rw [hP, ← List.append_assoc] at opened
    exact .disorder stops opened fun horderly => disorder (orderly_append.1 horderly).1
  | unresolved stops opened orderly sound ext since frame =>
    rename_i r v E
    have ext₀ := h.since.ext.trans ext
    have same : ∀ d ∈ E ++ w.frame.definitions,
        caught env.tree w'.index d = caught env.tree v.index d :=
      fun d hd => stops.caught_eq opened since hd
    have hD : ∀ d ∈ E.filter (caught env.tree v.index), caught env.tree w'.index d = true := by
      intro d hd
      obtain ⟨hmem, hcaught⟩ := List.mem_filter.1 hd
      rw [same d (List.mem_append_left _ hmem), hcaught]
    obtain ⟨P, hP, hlength, unwinds⟩ := h.opened.unwinds n ext sound
      (h.since.entered.standing.extends ext₀) hD frame
    have sameP : ∀ p ∈ P, caught env.tree w'.index p = caught env.tree v.index p := by
      intro p hp
      refine same p (List.mem_append_right _ ?_)
      rw [hP]
      exact List.mem_append_left _ hp
    have horderly : Orderly env.tree v.index P := by
      match P, hlength with
      | [], _ => exact List.Pairwise.nil
      | [p], _ => exact List.pairwise_singleton _ p
    rw [hP, ← List.append_assoc] at opened
    show Ends (do performAll env step.onFailure; throw _) w' _ _
    rw [ends_bind]
    refine unwinds.mono ?_ ?_
    · rintro _ w'' ⟨⟨inner, closing, rfl⟩, hne, p, hp, hnot⟩
      refine .disorder stops opened fun hall => ?_
      rcases ((orderly_filter_append orderly).1 hall).2 with hnone | hall
      · exact hne hnone
      · rw [sameP p hp, hall p hp] at hnot
        simp at hnot
    · rintro _ w'' ⟨hcases, unwound, hframe⟩
      refine .unresolved stops opened ((orderly_filter_append orderly).2 ⟨horderly, ?_⟩)
        unwound.sound (ext₀.trans unwound.ext) (since.trans unwound.ext) ?_
      · exact hcases.imp_right fun hall p hp => (sameP p hp).symm.trans (hall p hp)
      · rw [hframe, List.filter_append, List.filter_congr sameP]

/-- There is something to do at the node besides the visits of its children. -/
def Busy (leave : List Action) (steps : List (Step env.tree n)) : Prop :=
  leave ≠ [] ∨ ∃ s ∈ steps, s.before ≠ [] ∨ s.after ≠ []

theorem Busy.mono {leave' : List Action} {steps steps' : List (Step env.tree n)}
    (h : Busy leave steps) (hleave : leave ≠ [] → leave' ≠ []) (hsteps : ∀ s ∈ steps, s ∈ steps') :
    Busy leave' steps' := by
  rcases h with h | ⟨s, hs, h⟩
  · exact .inl (hleave h)
  · exact .inr ⟨s, hsteps s hs, h⟩

theorem Step.run_eq (m : WalkM Unit) : step.run env m = (do
    step.ready env
    tryCatch m (step.undo env)
    performAll env step.after) := by
  simp only [Step.run, Step.ready, bind_assoc]
  rfl

/-- One step, given what the visit of its child does. -/
theorem Amid.ends_run (h : Amid env n w₀ leave (step :: rest) done w)
    (child : ∀ w, Sound w → Ends (visit env step.child.val) w
      (Breaks env w (entries env step.child.val w)) fun _ w' =>
        Visited env step.child.val w w' ∧ ∀ e ∈ entries env step.child.val w, Entered env e) :
    Ends (step.run env (visit env step.child.val)) w
      (fun f w' => (Busy [] [step] ∧ Faults env.tree n w₀.frame (¬ w₀.InRange) f w' ∧
        ∀ e ∈ step.entries env w, Entered env e) ∨ Breaks env w₀ (step.entries env w) f w')
      fun _ w' => (∃ done', Amid env n w₀ leave rest done' w') ∧
        ∀ e ∈ step.entries env w, Entered env e := by
  have ready := h.ends_ready
  rw [Step.run_eq, ends_bind]
  unfold Ends at ready ⊢
  cases hready : step.ready env w with
  | error f w₁ =>
    rw [hready] at ready
    exact .inl ⟨.inr ⟨step, List.mem_singleton_self _, .inl ready.1⟩, ready.2,
      by simp [Step.entries, hready]⟩
  | ok _ w₁ =>
    rw [hready] at ready
    obtain ⟨-, poised⟩ := ready
    rw [Step.entries_of_ok hready]
    show Ends _ w₁ _ _
    rw [ends_bind, ends_tryCatch]
    refine (child w₁ poised.since.sound).mono ?_ ?_
    · intro f w₂ breaks
      exact (poised.ends_failure breaks).mono (fun _ _ => .inr) fun _ _ => id
    · rintro _ w₂ ⟨visited, passed⟩
      refine (poised.ends_after visited).mono ?_ ?_
      · rintro f w₃ ⟨hafter, fault⟩
        exact .inl ⟨.inr ⟨step, List.mem_singleton_self _, .inr hafter⟩, fault, passed⟩
      · rintro _ w₃ ⟨-, amid⟩
        exact ⟨amid, passed⟩

/-- The steps that are left and the end of the visit. -/
theorem Amid.ends_steps {steps : List (Step env.tree n)}
    (child : ∀ (c : env.tree.Child n) w, Sound w → Ends (visit env c.val) w
      (Breaks env w (entries env c.val w)) fun _ w' =>
        Visited env c.val w w' ∧ ∀ e ∈ entries env c.val w, Entered env e)
    (h : Amid env n w₀ leave steps done w) :
    Ends (do
      steps.forM fun step => step.run env (visit env step.child.val)
      performAll env leave) w
      (fun f w' => (Busy leave steps ∧ Faults env.tree n w₀.frame (¬ w₀.InRange) f w' ∧
        ∀ e ∈ stepsEntries env steps w, Entered env e) ∨
        Breaks env w₀ (stepsEntries env steps w) f w')
      fun _ w' => Visited env n w₀ w' ∧ ∀ e ∈ stepsEntries env steps w, Entered env e := by
  induction steps generalizing w done with
  | nil =>
    have none : ∀ e ∈ stepsEntries env ([] : List (Step env.tree n)) w, Entered env e := by
      simp [stepsEntries, collect]
    refine h.ends_leave.mono (fun _ _ fault => .inl ⟨.inl fault.1, fault.2, none⟩) ?_
    rintro _ w' ⟨-, visited⟩
    exact ⟨visited, none⟩
  | cons step rest ih =>
    have run := h.ends_run (child step.child)
    rw [ends_bind, ends_forM_cons]
    unfold Ends at run ⊢
    cases hrun : step.run env (visit env step.child.val) w with
    | error f w₁ =>
      rw [hrun] at run
      rw [stepsEntries_of_error hrun]
      exact run.imp_left fun fault => ⟨fault.1.mono (by simp) (by simp), fault.2.1, fault.2.2⟩
    | ok _ w₁ =>
      rw [hrun] at run
      obtain ⟨⟨done', amid⟩, passed⟩ := run
      rw [stepsEntries_of_ok hrun]
      have next := ih amid
      rw [ends_bind] at next
      show Ends _ w₁ _ _
      have both : (∀ e ∈ stepsEntries env rest w₁, Entered env e) →
          ∀ e ∈ step.entries env w ++ stepsEntries env rest w₁, Entered env e := by
        intro passed' e he
        rcases List.mem_append.1 he with he | he
        · exact passed e he
        · exact passed' e he
      have later : ∀ f w', (Busy leave rest ∧ Faults env.tree n w₀.frame (¬ w₀.InRange) f w' ∧
            ∀ e ∈ stepsEntries env rest w₁, Entered env e) ∨
          Breaks env w₀ (stepsEntries env rest w₁) f w' →
          (Busy leave (step :: rest) ∧ Faults env.tree n w₀.frame (¬ w₀.InRange) f w' ∧
            ∀ e ∈ step.entries env w ++ stepsEntries env rest w₁, Entered env e) ∨
          Breaks env w₀ (step.entries env w ++ stepsEntries env rest w₁) f w' := by
        rintro f w' (⟨busy, fault, passed'⟩ | breaks)
        · exact .inl ⟨busy.mono id fun s hs => List.mem_cons_of_mem _ hs, fault, both passed'⟩
        · exact .inr (breaks.prepend passed)
      refine next.mono later fun _ w₂ last => last.mono later ?_
      rintro _ w₃ ⟨visited, passed'⟩
      exact ⟨visited, both passed'⟩

end Step

/-! ### The whole visit -/

theorem Refused.breaks {env : Env} {n : NodeId} {w w' : Walk} {f : Fault} (hs : Sound w)
    (h : Refused env n w f w') : Breaks env w [(n, w)] f w' := by
  cases h with
  | misplaced misfit =>
    refine .misplaced (List.mem_singleton_self _) (fun e he hne => ?_) misfit
    exact absurd (List.mem_singleton.1 he) hne
  | unresolved kind missing moves =>
    have stops : Stops env [(n, w)] n w := ⟨⟨[], rfl, by simp⟩, hs, kind, missing⟩
    exact .unresolved stops (E := []) rfl List.Pairwise.nil (moves.runs.sound hs)
      moves.runs.extends moves.runs.extends moves.frame

theorem ends_visit (env : Env) (n : NodeId) {w : Walk} (hs : Sound w) :
    Ends (visit env n) w (Breaks env w (entries env n w)) fun _ w' =>
      Visited env n w w' ∧ ∀ e ∈ entries env n w, Entered env e := by
  have child : ∀ (c : env.tree.Child n) w, Sound w → Ends (visit env c.val) w
      (Breaks env w (entries env c.val w)) fun _ w' =>
        Visited env c.val w w' ∧ ∀ e ∈ entries env c.val w, Entered env e :=
    fun c w hs => ends_visit env c.val hs
  have admits := ends_enter env n hs
  rw [visit, ends_bind]
  unfold Ends at admits ⊢
  cases henter : enter env n w with
  | error f w' =>
    rw [henter] at admits
    rw [entries_of_error henter]
    exact admits.breaks hs
  | ok plan w₁ =>
    rw [henter] at admits
    rw [entries_of_ok henter]
    have entered : ∀ e ∈ [(n, w)], Entered env e := by
      simpa [Entered] using ⟨plan, w₁, henter⟩
    have both : (∀ e ∈ stepsEntries env plan.steps w₁, Entered env e) →
        ∀ e ∈ (n, w) :: stepsEntries env plan.steps w₁, Entered env e := by
      intro passed e he
      rcases List.mem_cons.1 he with rfl | he
      · exact entered _ (List.mem_singleton_self _)
      · exact passed e he
    refine ((admits.amid hs).ends_steps child).mono ?_ ?_
    · rintro f w' (⟨-, fault, passed⟩ | breaks)
      · exact fault.breaks List.mem_cons_self (both passed)
      · exact breaks.prepend entered
    · rintro _ w' ⟨visited, passed⟩
      exact ⟨visited, both passed⟩
termination_by env.tree.size - n.val
decreasing_by exact c.size_sub_lt

end AblResolve.Walk
