import AblResolve.Proofs.Visit
import Mathlib.Data.List.Nodup
/-!
The nodes that a walk enters. `calls` lists the visits that a visit makes in turn, each of a child;
`entries_keep` carries a property from a node to the children that are visited below it, whether or
not the visit succeeds, and in neither case is a node entered twice; `Tour` is the course that a
visit takes if it succeeds.
-/
namespace AblResolve.Walk

open UnitIndex ParseTree

/-! ### Calls -/

/-- A visit, with the visits of the children left open. -/
def visitWith (env : Env) (visitChild : NodeId → WalkM Unit) (n : NodeId) : WalkM Unit := do
  let plan ← enter env n
  plan.steps.forM fun step => step.run env (visitChild step.child.val)
  performAll env plan.leave

/-- The visit that one step makes, with the state in which it begins. -/
def Step.calls (env : Env) {n : NodeId} (step : Step env.tree n) (w : Walk) :
    List (NodeId × Walk) :=
  match step.ready env w with
  | .ok _ w' => [(step.child.val, w')]
  | .error _ _ => []

/-- The visits that several steps make. -/
def stepsCalls (env : Env) {n : NodeId} (steps : List (Step env.tree n)) (w : Walk) :
    List (NodeId × Walk) :=
  collect (fun step => step.run env (visit env step.child.val)) (Step.calls env) steps w

/-- The visits that the visit of node `n` in state `w` makes itself, not counting those that are
made in turn by these. -/
def calls (env : Env) (n : NodeId) (w : Walk) : List (NodeId × Walk) :=
  match enter env n w with
  | .ok plan v => stepsCalls env plan.steps v
  | .error _ _ => []

theorem collect_flatMap {β γ δ : Type} {f : β → WalkM Unit} {trace : β → Walk → List γ}
    {g : γ → List δ} (bs : List β) (w : Walk) :
    (collect f trace bs w).flatMap g = collect f (fun b w => (trace b w).flatMap g) bs w := by
  induction bs generalizing w with
  | nil => rfl
  | cons b bs ih =>
    rw [collect, collect, List.flatMap_append]
    cases f b w with
    | ok _ w' => exact congrArg _ (ih w')
    | error _ _ => rfl

section Calls

variable {env : Env} {n : NodeId} {w : Walk} {steps : List (Step env.tree n)}

theorem stepsEntries_eq : stepsEntries env steps w =
    (stepsCalls env steps w).flatMap fun c => entries env c.1 c.2 := by
  have each : Step.entries env = fun (step : Step env.tree n) w =>
      (step.calls env w).flatMap fun c => entries env c.1 c.2 := by
    funext step w
    unfold Step.entries Step.calls
    cases step.ready env w with
    | ok _ w' => simp
    | error _ _ => rfl
  rw [stepsEntries, stepsCalls, collect_flatMap, each]

/-- The nodes that a visit enters: its own, and those that the visits enter which it makes. -/
theorem entries_eq (env : Env) (n : NodeId) (w : Walk) : entries env n w =
    (n, w) :: (calls env n w).flatMap fun c => entries env c.1 c.2 := by
  cases henter : enter env n w with
  | ok plan v => rw [entries_of_ok henter, stepsEntries_eq, calls, henter]
  | error f v => rw [entries_of_error henter, calls, henter]; rfl

theorem Step.child_of_mem_calls {step : Step env.tree n} {c : NodeId × Walk}
    (h : c ∈ step.calls env w) : c.1 = step.child.val := by
  unfold Step.calls at h
  split at h
  · rw [List.mem_singleton.1 h]
  · cases h

/-- Steps make the visits of their children, one for each, until one of them fails. -/
theorem stepsCalls_sublist (steps : List (Step env.tree n)) (w : Walk) :
    ((stepsCalls env steps w).map (·.1)).Sublist (targets steps) := by
  induction steps generalizing w with
  | nil => exact .slnil
  | cons step rest ih =>
    have own : ((step.calls env w).map (·.1)).Sublist [step.child.val] := by
      unfold Step.calls
      split
      · exact .refl _
      · exact List.nil_sublist _
    rw [stepsCalls, collect, List.map_append]
    refine own.append ?_
    split
    · exact ih _
    · exact List.nil_sublist _

theorem mem_children_of_mem_stepsCalls {c : NodeId × Walk} (h : c ∈ stepsCalls env steps w) :
    c.1 ∈ env.tree.children n := by
  have target := (stepsCalls_sublist steps w).subset (List.mem_map_of_mem h)
  obtain ⟨step, -, hstep⟩ := List.mem_map.1 target
  exact hstep ▸ step.child.property

/-- Every visit that the visit of a node makes is that of a child. -/
theorem mem_children_of_mem_calls {c : NodeId × Walk} (h : c ∈ calls env n w) :
    c.1 ∈ env.tree.children n := by
  unfold calls at h
  split at h
  · exact mem_children_of_mem_stepsCalls h
  · cases h

/-- A step whose child is visited in some other way comes to the same if that is the same when the
step makes its visit. -/
theorem Step.run_congr {step : Step env.tree n} {m m' : WalkM Unit}
    (same : ∀ c ∈ step.calls env w, m c.2 = m' c.2) : step.run env m w = step.run env m' w := by
  rw [Step.run_eq, Step.run_eq]
  refine bind_congr_of_ok fun _ w₁ hready => ?_
  rw [Step.calls, hready] at same
  exact bind_congr_state (tryCatch_congr (same _ (List.mem_singleton_self _)))

theorem forM_run_congr {visitChild : NodeId → WalkM Unit} (steps : List (Step env.tree n))
    {w : Walk} (same : ∀ c ∈ stepsCalls env steps w, visitChild c.1 c.2 = visit env c.1 c.2) :
    (steps.forM fun step => step.run env (visitChild step.child.val) : WalkM Unit) w =
      (steps.forM fun step => step.run env (visit env step.child.val) : WalkM Unit) w := by
  induction steps generalizing w with
  | nil => rfl
  | cons step rest ih =>
    have first : step.run env (visitChild step.child.val) w =
        step.run env (visit env step.child.val) w := by
      refine Step.run_congr fun c hc => ?_
      rw [← Step.child_of_mem_calls hc]
      exact same c (List.mem_append_left _ hc)
    refine (bind_congr_state first).trans (bind_congr_of_ok fun _ w₁ hrun => ih fun c hc => ?_)
    refine same c ?_
    rw [stepsCalls, collect, hrun]
    exact List.mem_append_right _ hc

/-- A visit makes no other visits than those listed. -/
theorem visitWith_congr {visitChild : NodeId → WalkM Unit}
    (same : ∀ c ∈ calls env n w, visitChild c.1 c.2 = visit env c.1 c.2) :
    visitWith env visitChild n w = visit env n w := by
  rw [visit]
  refine bind_congr_of_ok fun plan v henter => ?_
  rw [calls, henter] at same
  exact bind_congr_state (forM_run_congr plan.steps same)

end Calls

/-- When node `n` has been entered in state `w`, the visit of its child `c` begins in state `w₁`. -/
structure Began (env : Env) (n : NodeId) (w : Walk) (c : NodeId) (w₁ : Walk) : Prop where
  child : c ∈ env.tree.children n
  sound : Sound w₁
  ext : w.index.Extends w₁.index
  inRange : w.InRange → w₁.InRange
  fits : env.tree.WellPlaced → Fits env.tree n w.frame → Fits env.tree c w₁.frame
  below : ∀ m, env.tree.Within c m → m ≠ c ∨ env.tree.kind m ≠ .identifier →
    meaning (w₁.notes.get m) = meaning (w.notes.get m)

section Entries

variable {env : Env} {n : NodeId} {w₀ w w' : Walk} {leave : List Action}
  {step : Step env.tree n} {rest steps : List (Step env.tree n)} {done : List NodeId}

theorem Poised.began (h : Poised env n w₀ leave step rest done w) :
    Began env n w₀ step.child.val w where
  child := step.child.property
  sound := h.since.sound
  ext := h.since.ext
  inRange := h.since.inRange
  fits := h.fits
  below := h.since.below _ List.mem_cons_self

/-- The visits that steps make begin when their node is poised for it. -/
theorem Amid.began {c : NodeId × Walk} (h : Amid env n w₀ leave steps done w)
    (hc : c ∈ stepsCalls env steps w) : Began env n w₀ c.1 c.2 := by
  induction steps generalizing w done with
  | nil => cases hc
  | cons step rest ih =>
    rw [stepsCalls, collect] at hc
    rcases List.mem_append.1 hc with hc | hc
    · unfold Step.calls at hc
      split at hc
      · rename_i w₁ hready
        rw [List.mem_singleton.1 hc]
        exact (h.ends_ready.ok hready).2.began
      · cases hc
    · split at hc
      · rename_i w₁ hrun
        obtain ⟨⟨done', amid⟩, -⟩ := (h.ends_run fun _ => ends_visit env _).ok hrun
        exact ih amid hc
      · cases hc

theorem began_of_mem_calls {c : NodeId × Walk} (hs : Sound w) (hc : c ∈ calls env n w) :
    Began env n w c.1 c.2 := by
  unfold calls at hc
  split at hc
  · rename_i plan v henter
    exact (((ends_enter env n hs).ok henter).amid hs).began hc
  · cases hc

/-- A node that is entered is the one visited, or it is entered below a child. -/
theorem mem_entries {e : NodeId × Walk} (he : e ∈ entries env n w) :
    e = (n, w) ∨ ∃ c ∈ calls env n w, e ∈ entries env c.1 c.2 := by
  rw [entries_eq] at he
  exact (List.mem_cons.1 he).imp_right List.mem_flatMap.1

end Entries

/-- What goes over from a node to the children that are visited below it holds whenever a node is
entered. -/
theorem entries_keep {env : Env} {P : NodeId → Walk → Prop}
    (keep : ∀ {n c w w₁}, P n w → Began env n w c w₁ → P c w₁) (n : NodeId) {w : Walk}
    (hs : Sound w) (h : P n w) : ∀ e ∈ entries env n w, Sound e.2 ∧ P e.1 e.2 := by
  intro e he
  rcases mem_entries he with rfl | ⟨c, hc, he⟩
  · exact ⟨hs, h⟩
  · have began := began_of_mem_calls hs hc
    exact entries_keep keep c.1 began.sound (keep h began) e he
termination_by env.tree.size - n.val
decreasing_by
  have := lt_of_mem_children began.child
  omega

theorem within_of_mem_entries {env : Env} {n : NodeId} {w : Walk} {e : NodeId × Walk}
    (he : e ∈ entries env n w) : env.tree.Within n e.1 := by
  rcases mem_entries he with rfl | ⟨c, hc, he⟩
  · exact .refl n
  · have child := mem_children_of_mem_calls hc
    exact (within_of_mem_children child).trans (within_of_mem_entries he)
termination_by env.tree.size - n.val
decreasing_by
  have := lt_of_mem_children child
  omega

/-! ### No node is entered twice -/

section Nodup

variable {env : Env} {n : NodeId} {w₀ w : Walk} {leave : List Action}
  {steps : List (Step env.tree n)} {done : List NodeId}

/-- A plan visits no child twice. -/
theorem Course.nodup {x : UnitIndex} {F₀ F : Frame}
    (course : Course env n x F₀ leave done F steps) : (targets steps).Nodup := by
  induction course with
  | leave => exact List.nodup_nil
  | step before opened visited after quiet uses once plain fits course ih =>
    refine List.nodup_cons.2 ⟨fun hmem => ?_, ih⟩
    obtain ⟨s, hs, heq⟩ := List.mem_map.1 hmem
    exact once s hs heq

theorem Amid.calls_nodup (h : Amid env n w₀ leave steps done w) :
    ((stepsCalls env steps w).map (·.1)).Nodup :=
  h.course.nodup.sublist (stepsCalls_sublist steps w)

theorem calls_nodup (hs : Sound w) : ((calls env n w).map (·.1)).Nodup := by
  unfold calls
  split
  · rename_i plan v henter
    exact (((ends_enter env n hs).ok henter).amid hs).calls_nodup
  · exact List.nodup_nil

/-- Visits of different children of one node enter different nodes. -/
theorem nodup_flatMap_entries {cs : List (NodeId × Walk)}
    (child : ∀ c ∈ cs, c.1 ∈ env.tree.children n) (once : (cs.map (·.1)).Nodup)
    (each : ∀ c ∈ cs, ((entries env c.1 c.2).map (·.1)).Nodup) :
    ((cs.flatMap fun c => entries env c.1 c.2).map (·.1)).Nodup := by
  rw [List.map_flatMap]
  refine List.nodup_flatMap.2 ⟨each, ?_⟩
  refine (List.pairwise_map.1 once).imp_of_mem fun {b c} hb hc hne m hm hm' => ?_
  obtain ⟨e, he, rfl⟩ := List.mem_map.1 hm
  obtain ⟨e', he', heq⟩ := List.mem_map.1 hm'
  exact (within_of_mem_entries he).sibling (child b hb) (child c hc) hne
    (heq ▸ within_of_mem_entries he')

/-- No visit enters a node twice, whether it succeeds or not. -/
theorem entries_nodup (n : NodeId) {w : Walk} (hs : Sound w) :
    ((entries env n w).map (·.1)).Nodup := by
  rw [entries_eq, List.map_cons, List.nodup_cons]
  constructor
  · intro hmem
    obtain ⟨e, he, heq⟩ := List.mem_map.1 hmem
    obtain ⟨c, hc, he⟩ := List.mem_flatMap.1 he
    exact (within_of_mem_entries he).ne_parent (mem_children_of_mem_calls hc) heq
  · refine nodup_flatMap_entries (fun c => mem_children_of_mem_calls) (calls_nodup hs) ?_
    intro c hc
    have began := began_of_mem_calls hs hc
    exact entries_nodup c.1 began.sound
termination_by env.tree.size - n.val
decreasing_by
  have := lt_of_mem_children began.child
  omega

end Nodup

/-! ### Visits that succeed -/

/-- The course of the steps of a plan when all of them succeed. At a field, nothing more is
written once it has been entered. In a list of buffers, each record is bound after its visit
and nothing is done about the other children; as the steps of a unit are plain, nothing at all is
done if the list is the root. -/
inductive Tour (env : Env) (n : NodeId) (w₀ : Walk) :
    List (Step env.tree n) → Walk → Walk → Prop
  | leave {w w' : Walk} (runs : Runs env n w w')
      (field : env.tree.kind n = .field → w'.notes = w.notes) : Tour env n w₀ [] w w'
  | step {step : Step env.tree n} {rest : List (Step env.tree n)} {w w₁ w₂ w₃ w' : Walk}
      (readies : Readies env n step.child.val w w₁) (began : Began env n w₀ step.child.val w₁)
      (visit : visit env step.child.val w₁ = .ok () w₂)
      (visited : Visited env step.child.val w₁ w₂)
      (after : Performed env n w₂ step.after w₃)
      (uses : step.after.filter (·.isUse) = handleUses env n step.child.val)
      (once : step.child.val ∉ targets rest)
      (field : env.tree.kind n = .field → w₁.notes = w.notes ∧ w₃.notes = w₂.notes)
      (entries : stepsEntries env (step :: rest) w =
        entries env step.child.val w₁ ++ stepsEntries env rest w₃)
      (idle : step = .plain step.child → w₁ = w)
      (listed : env.tree.kind n = .blockFor → step = .plain step.child ∨
        env.tree.kind step.child.val = .record ∧ step.after = [.bindStrongly step.child.val])
      (tour : Tour env n w₀ rest w₃ w') : Tour env n w₀ (step :: rest) w w'

section Tour

variable {env : Env} {n : NodeId} {w₀ w w' : Walk} {leave : List Action}
  {steps : List (Step env.tree n)} {done : List NodeId}

/-- If the failure of a child is passed on and none is, the visit of the child has succeeded. -/
theorem Poised.visit_ok {step : Step env.tree n} {rest : List (Step env.tree n)}
    (h : Poised env n w₀ leave step rest done w)
    (hok : tryCatch (visit env step.child.val) (step.undo env) w = .ok () w') :
    visit env step.child.val w = .ok () w' := by
  have visits : Ends (tryCatch (visit env step.child.val) (step.undo env)) w
      (Breaks env w₀ (entries env step.child.val w)) fun _ w' =>
        visit env step.child.val w = .ok () w' := by
    rw [ends_tryCatch]
    have broken := ends_visit env step.child.val h.since.sound
    unfold Ends at broken ⊢
    cases hvisit : visit env step.child.val w with
    | ok _ w₂ => rfl
    | error f w₂ =>
      rw [hvisit] at broken
      exact h.ends_failure broken
  exact visits.ok hok

/-- A step that succeeds: the visit of its child succeeds. -/
theorem Amid.run_ok {step : Step env.tree n} {rest : List (Step env.tree n)}
    (h : Amid env n w₀ leave (step :: rest) done w)
    (hrun : step.run env (visit env step.child.val) w = .ok () w') :
    ∃ w₁ w₂, step.ready env w = .ok () w₁ ∧ visit env step.child.val w₁ = .ok () w₂ ∧
      performAll env step.after w₂ = .ok () w' := by
  rw [Step.run_eq] at hrun
  obtain ⟨_, w₁, hready, hrest⟩ := bind_ok.1 hrun
  obtain ⟨_, w₂, hcatch, hafter⟩ := bind_ok.1 hrest
  obtain ⟨-, poised⟩ := h.ends_ready.ok hready
  exact ⟨w₁, w₂, hready, poised.visit_ok hcatch, hafter⟩

/-- What the plans of fields and of lists of buffers are like. The steps of a unit are plain,
whatever its root is. -/
structure Plainly (env : Env) (n : NodeId) (steps : List (Step env.tree n)) (leave : List Action) :
    Prop where
  field : env.tree.kind n = .field → leave = [] ∧ ∀ s ∈ steps, ∃ c, s = .plain c
  listed : env.tree.kind n = .blockFor → ∀ s ∈ steps, s = .plain s.child ∨
    env.tree.kind s.child.val = .record ∧ s.after = [.bindStrongly s.child.val]

theorem Plainly.tail {step : Step env.tree n} {rest : List (Step env.tree n)}
    (h : Plainly env n (step :: rest) leave) : Plainly env n rest leave where
  field hfield := (h.field hfield).imp id fun plain s hs => plain s (List.mem_cons_of_mem _ hs)
  listed hkind s hs := h.listed hkind s (List.mem_cons_of_mem _ hs)

theorem plainly_plain : Plainly env n (plainSteps env.tree n) [] := by
  refine ⟨fun _ => ⟨rfl, fun s hs => ?_⟩, fun _ s hs => .inl ?_⟩
  all_goals obtain ⟨c, -, rfl⟩ := List.mem_map.1 hs
  · exact ⟨c, rfl⟩
  · rfl

theorem plainly_blockFor (hkind : env.tree.kind n = .blockFor) :
    Plainly env n (blockForPlan env n).steps [] := by
  refine ⟨fun hfield => ?_, fun _ s hs => ?_⟩
  · rw [hkind] at hfield
    cases hfield
  · obtain ⟨c, -, rfl⟩ := List.mem_map.1 hs
    split
    · rename_i hrecord
      exact .inr ⟨hrecord, rfl⟩
    · exact .inl rfl

/-- The steps of a plan, when all of them succeed. -/
theorem Amid.loop (h : Amid env n w₀ leave steps done w) (plainly : Plainly env n steps leave)
    (hok : (steps.forM fun step => step.run env (visit env step.child.val) : WalkM Unit) w =
      .ok () w') :
    (∃ done', Amid env n w₀ leave [] done' w') ∧ Tour env n w₀ steps w w' := by
  induction steps generalizing w done with
  | nil =>
    cases hok
    exact ⟨⟨done, h⟩, .leave .refl fun _ => rfl⟩
  | cons step rest ih =>
    obtain ⟨_, w₃, hrun, hrest⟩ := bind_ok.1 hok
    obtain ⟨w₁, w₂, hready, hvisit, hafter⟩ := h.run_ok hrun
    obtain ⟨readies, poised⟩ := h.ends_ready.ok hready
    obtain ⟨visited, -⟩ := (ends_visit env step.child.val poised.since.sound).ok hvisit
    obtain ⟨performed, done', amid⟩ := (poised.ends_after visited).ok hafter
    obtain ⟨last, tour⟩ := ih amid plainly.tail hrest
    refine ⟨last, .step readies poised.began hvisit visited performed poised.uses poised.once ?_ ?_
      ?_ (fun hkind => plainly.listed hkind step List.mem_cons_self) tour⟩
    · intro hfield
      obtain ⟨c, rfl⟩ := (plainly.field hfield).2 step List.mem_cons_self
      cases hready
      cases hafter
      exact ⟨rfl, rfl⟩
    · rw [stepsEntries_of_ok hrun, Step.entries_of_ok hready]
    · intro hplain
      rw [hplain] at hready
      cases hready
      rfl

/-- What is done at the end of a visit belongs to its course. -/
theorem Tour.close {v : Walk} (tour : Tour env n w₀ steps w v) (runs : Runs env n v w')
    (field : env.tree.kind n = .field → w'.notes = v.notes) : Tour env n w₀ steps w w' := by
  induction tour with
  | leave runs' field' =>
    exact .leave (runs'.trans runs) fun hfield => (field hfield).trans (field' hfield)
  | step readies began hvisit visited after uses once field' entries idle listed _ ih =>
    exact .step readies began hvisit visited after uses once field' entries idle listed
      (ih runs field)

theorem Amid.tour (h : Amid env n w₀ leave steps done w) (plainly : Plainly env n steps leave)
    (hok : (do
      steps.forM fun step => step.run env (visit env step.child.val)
      performAll env leave : WalkM Unit) w = .ok () w') :
    Tour env n w₀ steps w w' := by
  obtain ⟨_, v, hloop, hleave⟩ := bind_ok.1 hok
  obtain ⟨⟨done', last⟩, tour⟩ := h.loop plainly hloop
  refine tour.close (last.ends_leave.ok hleave).1 fun hfield => ?_
  rw [(plainly.field hfield).1] at hleave
  cases hleave
  rfl

theorem enter_record (h : env.tree.kind n = .record) : enter env n = enterRecord env n := by
  simp only [enter, h]

theorem enter_field (h : env.tree.kind n = .field) : enter env n = enterField env n := by
  simp only [enter, h]

theorem enter_blockFor (h : env.tree.kind n = .blockFor) :
    enter env n = pure (blockForPlan env n) := by
  simp only [enter, h]

theorem plainly_enter {plan : Plan env.tree n} (hs : Sound w)
    (henter : enter env n w = .ok plan w') : Plainly env n plan.steps plan.leave := by
  refine ⟨fun hfield => ?_, fun hkind => ?_⟩
  · rw [enter_field hfield] at henter
    rw [((ends_enterField_resolves env n hs hfield).ok henter).1]
    exact plainly_plain.field hfield
  · rw [enter_blockFor hkind] at henter
    cases henter
    exact (plainly_blockFor hkind).listed hkind

/-- The course of a visit that succeeds. -/
theorem visit_tour (hs : Sound w) (hok : visit env n w = .ok () w') :
    ∃ plan v, enter env n w = .ok plan v ∧ Admitted env n w plan v ∧
      Tour env n w plan.steps v w' := by
  rw [visit] at hok
  obtain ⟨plan, v, henter, hsteps⟩ := bind_ok.1 hok
  have admitted := (ends_enter env n hs).ok henter
  exact ⟨plan, v, henter, admitted, (admitted.amid hs).tour (plainly_enter hs henter) hsteps⟩

end Tour

end AblResolve.Walk
