import AblResolve.Proofs.Passage
import AblResolve.Proofs.Strides
/-!
The states that a walk reaches. Strides lead from its start to every moment of it, and a node is
entered at a moment; this is so whether or not the walk succeeds.
-/
namespace AblResolve.Walk

open UnitIndex ParseTree

/-- A state to which strides lead from the start of a walk. -/
abbrev Reached (env : Env) (notes : Annotations) (w : Walk) : Prop := Strides (start env notes) w

theorem Reached.sound {env : Env} {notes : Annotations} {w : Walk} (h : Reached env notes w) :
    Sound w :=
  (Strides.keep h (sound_start env notes) (P := fun _ => True) (fun _ _ _ _ _ => id) trivial).1

section Moments

variable {env : Env} {n : NodeId} {w₀ w w' : Walk} {leave actions : List Action}
  {step : Step env.tree n} {rest steps : List (Step env.tree n)} {done : List NodeId}

theorem mem_trailing {β γ : Type} {m : WalkM β} {trace : Walk → List γ} {c : γ} :
    c ∈ trailing m trace w ↔ ∃ b w', m w = .ok b w' ∧ c ∈ trace w' := by
  unfold trailing
  cases m w <;> simp

theorem mem_collect_cons {β γ : Type} {f : β → WalkM Unit} {trace : β → Walk → List γ} {b : β}
    {bs : List β} {c : γ} : c ∈ collect f trace (b :: bs) w ↔
      c ∈ trace b w ∨ ∃ w', f b w = .ok () w' ∧ c ∈ collect f trace bs w' := by
  rw [collect, List.mem_append]
  cases f b w <;> simp

/-- The moments of a visit, one after the other. -/
theorem mem_moments {v : Walk} : v ∈ moments env n w ↔ v = w ∨ ∃ plan w₁,
    enter env n w = .ok plan w₁ ∧ (v ∈ stepsMoments env plan.steps w₁ ∨ ∃ w₂,
      (plan.steps.forM fun step => step.run env (visit env step.child.val) : WalkM Unit) w₁ =
        .ok () w₂ ∧ v ∈ actionMoments env plan.leave w₂) := by
  rw [moments, List.mem_cons]
  cases henter : enter env n w with
  | error f w₁ => simp
  | ok plan w₁ =>
    dsimp only
    rw [List.mem_append, mem_trailing]
    constructor
    · rintro (rfl | hv | ⟨⟨⟩, w₂, hsteps, hv⟩)
      · exact .inl rfl
      · exact .inr ⟨plan, w₁, rfl, .inl hv⟩
      · exact .inr ⟨plan, w₁, rfl, .inr ⟨w₂, hsteps, hv⟩⟩
    · rintro (rfl | ⟨_, _, ⟨⟩, hv | ⟨w₂, hsteps, hv⟩⟩)
      · exact .inl rfl
      · exact .inr (.inl hv)
      · exact .inr (.inr ⟨(), w₂, hsteps, hv⟩)

/-! ### Entries among the moments of any walk -/

theorem mem_stepsMoments_of_entry {e : NodeId × Walk}
    (child : ∀ c ∈ env.tree.children n, ∀ u, e ∈ entries env c u → e.2 ∈ moments env c u)
    (he : e ∈ stepsEntries env steps w) : e.2 ∈ stepsMoments env steps w := by
  induction steps generalizing w with
  | nil => cases he
  | cons step rest ih =>
    rcases mem_collect_cons.1 he with own | ⟨w', hrun, later⟩
    · refine mem_collect_cons.2 (.inl ?_)
      cases hready : step.ready env w with
      | error f w' => simp [Step.entries, hready] at own
      | ok _ w₂ =>
        rw [Step.entries_of_ok hready] at own
        obtain ⟨_, w₁, hprepare, hbefore⟩ := bind_ok.1 hready
        refine mem_trailing.2 ⟨(), w₁, hprepare, List.mem_append_right _ ?_⟩
        refine mem_trailing.2 ⟨(), w₂, hbefore, List.mem_append_left _ ?_⟩
        exact child _ step.child.property w₂ own
    · exact mem_collect_cons.2 (.inr ⟨w', hrun, ih later⟩)

theorem mem_moments_of_entry (n : NodeId) {w : Walk} {e : NodeId × Walk}
    (he : e ∈ entries env n w) :
    e.2 ∈ moments env n w := by
  cases henter : enter env n w with
  | error f w' =>
    rw [entries_of_error henter, List.mem_singleton] at he
    exact mem_moments.2 (.inl (by rw [he]))
  | ok plan w' =>
    rw [entries_of_ok henter, List.mem_cons] at he
    rcases he with rfl | he
    · exact mem_moments.2 (.inl rfl)
    · refine mem_moments.2 (.inr ⟨plan, w', henter, .inl ?_⟩)
      exact mem_stepsMoments_of_entry (fun c hc u h => mem_moments_of_entry c h) he
termination_by env.tree.size - n.val
decreasing_by
  have := lt_of_mem_children hc
  omega

/-! ### Strides lead to the moments -/

theorem Done.strides (h : Done env n w actions w') : Strides w w' := by
  induction h with
  | nil => exact .refl
  | cons sound _ performs _ _ ih => exact (performs.strides sound).trans ih

theorem Rounds.strides (h : Rounds env n w₀ (fun _ v v' => Strides v v') steps w w') :
    Strides w w' := by
  induction h with
  | nil => exact .refl
  | cons sound _ tells before _ _ _ child after _ _ _ ih =>
    exact (Relation.ReflTransGen.single ⟨tells.stride, tells.sound sound⟩).trans
      (before.strides.trans (child.trans (after.strides.trans ih)))

/-- A visit that succeeds is so many strides. -/
theorem visit_strides (n : NodeId) (hs : Sound w) (hok : visit env n w = .ok () w') :
    Strides w w' := by
  refine visit_rounds (P := fun _ v v' => Strides v v') ?_ n hs hok
  intro n w plan v v' w' hs henter admitted rounds done visited
  exact (admitted.enters.strides hs).trans (rounds.strides.trans done.strides)

theorem Due.strides_of_mem (h : Due env n actions w) :
    ∀ v ∈ actionMoments env actions w, Strides w v := by
  intro v hv
  induction actions generalizing w with
  | nil => cases hv
  | cons a as ih =>
    rcases mem_collect_cons.1 hv with own | ⟨w', hok, later⟩
    · cases List.mem_singleton.1 own
      exact .refl
    · obtain ⟨performs, -, rest⟩ := h.first hok
      exact (performs.strides h.sound).trans (ih rest later)

/-- The moments of a single step, given those of the visits of children. -/
theorem Amid.strides_of_mem_step (h : Amid env n w₀ leave (step :: rest) done w)
    (child : ∀ u, Sound u → ∀ v ∈ moments env step.child.val u, Strides u v) :
    ∀ v ∈ step.moments env w, Strides w v := by
  intro v hv
  obtain ⟨_, w₁, hprepare, hv⟩ := mem_trailing.1 hv
  have tells := (ends_prepare h.plain).ok hprepare
  have told : Strides w w₁ := .single ⟨tells.stride, tells.sound h.since.sound⟩
  have due := h.before_due tells
  refine told.trans ?_
  rcases List.mem_append.1 hv with hv | hv
  · exact due.strides_of_mem v hv
  obtain ⟨_, w₂, hbefore, hv⟩ := mem_trailing.1 hv
  obtain ⟨-, poised⟩ := h.ends_ready.ok (bind_ok.2 ⟨(), w₁, hprepare, hbefore⟩)
  refine (due.done hbefore).strides.trans ?_
  rcases List.mem_append.1 hv with hv | hv
  · exact child w₂ poised.since.sound v hv
  obtain ⟨_, w₃, hvisit, hv⟩ := mem_trailing.1 hv
  obtain ⟨visited, -⟩ := (ends_visit env step.child.val poised.since.sound).ok hvisit
  exact (visit_strides _ poised.since.sound hvisit).trans
    ((poised.after_due visited).strides_of_mem v hv)

theorem Amid.strides_of_mem (h : Amid env n w₀ leave steps done w)
    (child : ∀ c ∈ env.tree.children n, ∀ u, Sound u → ∀ v ∈ moments env c u, Strides u v) :
    ∀ v ∈ stepsMoments env steps w, Strides w v := by
  intro v hv
  induction steps generalizing w done with
  | nil => cases hv
  | cons step rest ih =>
    rcases mem_collect_cons.1 hv with own | ⟨w₄, hrun, later⟩
    · exact h.strides_of_mem_step (child _ step.child.property) v own
    · obtain ⟨w₂, w₃, hready, hvisit, hafter⟩ := h.run_ok hrun
      obtain ⟨_, w₁, hprepare, hbefore⟩ := bind_ok.1 hready
      have tells := (ends_prepare h.plain).ok hprepare
      obtain ⟨-, poised⟩ := h.ends_ready.ok hready
      have hs := poised.since.sound
      obtain ⟨visited, -⟩ := (ends_visit env step.child.val hs).ok hvisit
      obtain ⟨-, done', amid⟩ := (poised.ends_after visited).ok hafter
      have told : Strides w w₁ := .single ⟨tells.stride, tells.sound h.since.sound⟩
      have before := ((h.before_due tells).done hbefore).strides
      have after := ((poised.after_due visited).done hafter).strides
      exact told.trans (before.trans ((visit_strides _ hs hvisit).trans
        (after.trans (ih amid later))))

theorem strides_of_mem_moments (n : NodeId) {w : Walk} (hs : Sound w) :
    ∀ v ∈ moments env n w, Strides w v := by
  intro v hv
  rcases mem_moments.1 hv with rfl | ⟨plan, w₁, henter, hv⟩
  · exact .refl
  have admitted := (ends_enter env n hs).ok henter
  have child : ∀ c ∈ env.tree.children n, ∀ u, Sound u → ∀ v ∈ moments env c u, Strides u v :=
    fun c hc u hs => strides_of_mem_moments c hs
  refine (admitted.enters.strides hs).trans ?_
  rcases hv with hv | ⟨w₂, hsteps, hv⟩
  · exact (admitted.amid hs).strides_of_mem child v hv
  · obtain ⟨⟨done, last⟩, rounds⟩ := (admitted.amid hs).rounds
      (fun c _ v v' hs hok => visit_strides c hs hok) hsteps
    exact rounds.strides.trans (last.leave_due.strides_of_mem v hv)
termination_by env.tree.size - n.val
decreasing_by
  have := lt_of_mem_children hc
  omega

end Moments

/-! ### The whole walk -/

section Unit

variable {env : Env} {notes : Annotations} {w : Walk}

/-- Every moment of a walk over the unit is reached. -/
theorem reached_of_mem_unitMoments (h : w ∈ unitMoments env notes) : Reached env notes w :=
  (amid_start env notes).strides_of_mem (fun c _ _ hs => strides_of_mem_moments c hs) w h

theorem reached_of_mem_unitEntries {e : NodeId × Walk} (he : e ∈ unitEntries env notes) :
    Reached env notes e.2 :=
  reached_of_mem_unitMoments
    (mem_stepsMoments_of_entry (fun c _ _ h => mem_moments_of_entry c h) he)

end Unit

end AblResolve.Walk
