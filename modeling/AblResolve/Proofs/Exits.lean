import AblResolve.Proofs.Keeping
/-!
The nodes that a walk completes. A node is completed when all that is visited below it has been
completed and the actions at its end have been done; `exits` lists the nodes in this order. What has
been written on a node when the visit of a child is over is not written again by the rounds after
it, and between two rounds the signature that is being read is the same.
-/
namespace AblResolve.Walk

open UnitIndex ParseTree

/-- The nodes that a visit of node `n` in state `w` completes, in order, each with the state in
which it was entered. -/
def exits (env : Env) (n : NodeId) (w : Walk) : List (NodeId × Walk) :=
  (match enter env n w with
    | .ok plan v =>
      collect (fun step => step.run env (visit env step.child.val))
        (fun step w =>
          match step.ready env w with
          | .ok _ w' => exits env step.child.val w'
          | .error _ _ => [])
        plan.steps v
    | .error _ _ => []) ++ [(n, w)]
termination_by env.tree.size - n.val
decreasing_by exact step.child.size_sub_lt

/-- The nodes that one step completes. -/
def Step.exits (env : Env) {n : NodeId} (step : Step env.tree n) (w : Walk) :
    List (NodeId × Walk) :=
  match step.ready env w with
  | .ok _ w' => Walk.exits env step.child.val w'
  | .error _ _ => []

/-- The nodes that several steps complete. -/
def stepsExits (env : Env) {n : NodeId} (steps : List (Step env.tree n)) (w : Walk) :
    List (NodeId × Walk) :=
  collect (fun step => step.run env (visit env step.child.val)) (Step.exits env) steps w

/-- The nodes that a walk over the unit completes. -/
def unitExits (env : Env) (notes : Annotations) : List (NodeId × Walk) :=
  stepsExits env (unitSteps env) (start env notes)

section Exits

variable {env : Env} {n m : NodeId} {w₀ w w' : Walk} {as : List Action}
  {steps : List (Step env.tree n)} {Child : NodeId → Walk → Walk → Prop}

theorem exits_of_ok {plan : Plan env.tree n} (h : enter env n w = .ok plan w') :
    exits env n w = stepsExits env plan.steps w' ++ [(n, w)] := by
  rw [exits, h]
  rfl

theorem stepsExits_cons {step : Step env.tree n} {rest : List (Step env.tree n)} {w₁ w₂ w₄ : Walk}
    (prepared : prepare env step w = .ok () w₁) (before : Done env n w₁ step.before w₂)
    (run : step.run env (visit env step.child.val) w = .ok () w₄) :
    stepsExits env (step :: rest) w = exits env step.child.val w₂ ++ stepsExits env rest w₄ := by
  have ready : step.ready env w = .ok () w₂ :=
    bind_ok.2 ⟨(), w₁, prepared, before.performAll_ok⟩
  rw [stepsExits, collect_of_ok
    (f := fun step : Step env.tree n => step.run env (visit env step.child.val)) run,
    Step.exits, ready]
  rfl

theorem stepsExits_sole {step : Step env.tree n} {v : Walk} (ready : step.ready env w = .ok () v)
    (run : step.run env (visit env step.child.val) w = .ok () w') :
    stepsExits env [step] w = exits env step.child.val v := by
  rw [stepsExits, collect_of_ok
    (f := fun step : Step env.tree n => step.run env (visit env step.child.val)) run, Step.exits,
    ready]
  simp [collect]

/-! ### Every node that is entered is completed -/

theorem Rounds.exits_perm
    (h : Rounds env n w₀ (fun c v _ => (exits env c v).Perm (entries env c v)) steps w w') :
    (stepsExits env steps w).Perm (stepsEntries env steps w) := by
  induction h with
  | nil => exact .refl _
  | cons sound prepared tells before began visit visited child after once run others ih =>
    rw [stepsExits_cons prepared before run, stepsEntries_of_ok run,
      Step.entries_of_done prepared before]
    exact child.append ih

theorem visit_exits_perm (n : NodeId) (hs : Sound w) (hok : visit env n w = .ok () w') :
    (exits env n w).Perm (entries env n w) := by
  refine visit_rounds (P := fun c v _ => (exits env c v).Perm (entries env c v)) ?_ n hs hok
  intro n w plan v v' w' hs henter admitted rounds done visited
  rw [exits_of_ok henter, entries_of_ok henter]
  exact (List.perm_append_singleton _ _).trans (rounds.exits_perm.cons _)

theorem visitUnit_exits_perm {notes : Annotations}
    (hok : visitUnit env (start env notes) = .ok () w) :
    (unitExits env notes).Perm (unitEntries env notes) :=
  (visitUnit_rounds (fun c _ _ _ hs hok => visit_exits_perm c hs hok) hok).exits_perm

theorem within_of_mem_exits (hs : Sound w) (hok : visit env n w = .ok () w') {e : NodeId × Walk}
    (he : e ∈ exits env n w) : env.tree.Within n e.1 :=
  within_of_mem_entries ((visit_exits_perm n hs hok).mem_iff.1 he)

/-! ### What stays -/

/-- Actions that may not write on a node leave it as it is. -/
theorem Done.heading (h : Done env n w as w') (free : ∀ a ∈ as, ¬ (acting a).nodes m) :
    (w'.notes.get m).heading = (w.notes.get m).heading := by
  induction h with
  | nil => rfl
  | cons sound ok performs act rest ih =>
    obtain ⟨ds, log, -⟩ := perform_log ok
    rw [ih fun a ha => free a (List.mem_cons_of_mem _ ha), log.written (free _ List.mem_cons_self)]

theorem Action.writes_none {a : Action} (plain : a.isPlain) (m : NodeId) :
    ¬ (acting a).nodes m := by
  cases a <;> first | exact id | cases plain

/-- Actions at the end of a node write on no other node. -/
theorem Leaving.writes {leave : List Action} (h : Leaving env n leave) (hne : m ≠ n) :
    ∀ a ∈ leave, ¬ (acting a).nodes m := by
  intro a ha
  cases h with
  | plain plain => exact Action.writes_none (plain a ha) m
  | event | parameter =>
    simp only [List.mem_cons, List.not_mem_nil, or_false] at ha
    rcases ha with rfl | rfl | rfl <;> exact id
  | buffer | bufferParameter =>
    cases List.mem_singleton.1 ha
    exact hne
  | tableParameter =>
    cases List.mem_singleton.1 ha
    exact id

theorem Rounds.heading (h : Rounds env n w₀ Child steps w w')
    (plain : ∀ s ∈ steps, ∀ a ∈ s.before ++ s.after, a.isPlain)
    (apart : ∀ c ∈ targets steps, ¬ env.tree.Within c m) :
    (w'.notes.get m).heading = (w.notes.get m).heading := by
  induction h with
  | nil => rfl
  | cons sound prepared tells before began visit visited child after once run others ih =>
    have own := plain _ List.mem_cons_self
    obtain ⟨qualifiers, hints, rfl⟩ := tells.eq
    rw [ih (fun s hs => plain s (List.mem_cons_of_mem _ hs))
        fun c hc => apart c (List.mem_cons_of_mem _ hc),
      after.heading fun a ha => Action.writes_none (own a (List.mem_append_right _ ha)) m,
      visited.apart m (apart _ List.mem_cons_self),
      before.heading fun a ha => Action.writes_none (own a (List.mem_append_left _ ha)) m]

/-- Plain actions leave the signature that is being read alone. -/
theorem Done.openEvent (h : Done env n w as w') (plain : ∀ a ∈ as, a.isPlain) :
    w'.openEvent = w.openEvent := by
  induction h with
  | nil => rfl
  | @cons w w₁ w' a as sound ok performs act rest ih =>
    have own := plain a List.mem_cons_self
    obtain ⟨ds, log, acting⟩ := perform_log ok
    have kept : w₁.openEvent = w.openEvent := by
      refine log.keep (P := fun v => v.openEvent = w.openEvent) rfl
        (fun _ _ calm same => calm.event.trans same) fun d hd _ _ effect same => ?_
      cases acting with
      | idle => cases hd
      | attach =>
        cases List.mem_singleton.1 hd
        cases effect
        exact same
      | _ => cases own
    exact (ih fun a ha => plain a (List.mem_cons_of_mem _ ha)).trans kept

end Exits

end AblResolve.Walk
