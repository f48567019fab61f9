import Mathlib.Data.List.Nodup
import AblResolve.Proofs.Unit
/-!
Visits taken apart. A visit that succeeds enters its node, goes round by round through the steps of
the plan and does the actions at the end; `Rounds` has the state before each of these. What is to be
shown of all visits is shown of one node, given that it holds of the visits of the children:
`visit_rounds` is the induction over the tree, done once.
-/
namespace AblResolve.Walk

open UnitIndex ParseTree

theorem collect_of_ok {β γ : Type} {f : β → WalkM Unit} {trace : β → Walk → List γ} {b : β}
    {bs : List β} {w w' : Walk} (h : f b w = .ok () w') :
    collect f trace (b :: bs) w = trace b w ++ collect f trace bs w' := by
  rw [collect, h]

/-- Several actions that succeed, one after the other. -/
inductive Done (env : Env) (n : NodeId) : Walk → List Action → Walk → Prop
  | nil (w : Walk) : Done env n w [] w
  | cons {w w₁ w' : Walk} {a : Action} {as : List Action} (sound : Sound w)
      (ok : perform env a w = .ok () w₁) (performs : Performs env n w a w₁)
      (act : ∃ x F₀ found, Act env n x F₀ found w.frame a w₁.frame)
      (rest : Done env n w₁ as w') : Done env n w (a :: as) w'

/-- The rounds of a visit of node `n`, which was entered in state `w₀`: of the visits of children,
`Child` is known. -/
inductive Rounds (env : Env) (n : NodeId) (w₀ : Walk) (Child : NodeId → Walk → Walk → Prop) :
    List (Step env.tree n) → Walk → Walk → Prop
  | nil (w : Walk) : Rounds env n w₀ Child [] w w
  | cons {step : Step env.tree n} {rest : List (Step env.tree n)} {w w₁ w₂ w₃ w₄ w' : Walk}
      (sound : Sound w) (prepared : prepare env step w = .ok () w₁)
      (tells : Tells env step.child.val w w₁) (before : Done env n w₁ step.before w₂)
      (began : Began env n w₀ step.child.val w₂)
      (visit : visit env step.child.val w₂ = .ok () w₃)
      (visited : Visited env step.child.val w₂ w₃) (child : Child step.child.val w₂ w₃)
      (after : Done env n w₃ step.after w₄) (once : step.child.val ∉ targets rest)
      (run : step.run env (Walk.visit env step.child.val) w = .ok () w₄)
      (others : Rounds env n w₀ Child rest w₄ w') : Rounds env n w₀ Child (step :: rest) w w'

section Done

variable {env : Env} {n : NodeId} {w₀ w w' : Walk} {actions : List Action}

/-- A single action. -/
theorem Done.single {a : Action} (h : Done env n w [a] w') :
    Sound w ∧ perform env a w = .ok () w' ∧
      ∃ x F₀ found, Act env n x F₀ found w.frame a w'.frame := by
  cases h with
  | cons sound ok _ act rest =>
    cases rest
    exact ⟨sound, ok, act⟩

/-- The first of several actions, and the others. -/
theorem Done.uncons {a : Action} {as : List Action} (h : Done env n w (a :: as) w') :
    ∃ v, Done env n w [a] v ∧ Done env n v as w' := by
  cases h with
  | @cons _ v _ _ _ sound ok performs act rest =>
    exact ⟨v, .cons sound ok performs act (.nil v), rest⟩

theorem Done.isLocal (h : Done env n w actions w') : Local env n w w' := by
  induction h with
  | nil w => exact .refl w
  | cons _ _ performs _ _ ih => exact performs.isLocal.trans ih

theorem Done.performAll_ok (h : Done env n w actions w') :
    performAll env actions w = .ok () w' := by
  induction h with
  | nil w => rfl
  | cons _ ok _ _ _ ih => exact bind_ok.2 ⟨(), _, ok, ih⟩

/-- The nodes that a step enters, if what is done before the visit of its child succeeds. -/
theorem Step.entries_of_done {step : Step env.tree n} {w₁ w₂ : Walk}
    (prepared : prepare env step w = .ok () w₁) (before : Done env n w₁ step.before w₂) :
    step.entries env w = Walk.entries env step.child.val w₂ :=
  Step.entries_of_ok (bind_ok.2 ⟨(), w₁, prepared, before.performAll_ok⟩)

/-- Several actions whose needs are met, if each does what it is to do. -/
structure Due (env : Env) (n : NodeId) (actions : List Action) (w : Walk) : Prop where
  sound : Sound w
  acts : ∃ x F₀ found F', Acts env n x F₀ found w.frame actions F' ∧ x.Extends w.index ∧
    F₀.scope.val < w.index.scopes.size ∧
    ∀ r ∈ found, env.tree.kind r = .record ∧ Resolved w F₀.scope r

/-- The first of several actions. -/
theorem Due.first {a : Action} {as : List Action} (h : Due env n (a :: as) w)
    (hok : perform env a w = .ok () w') : Performs env n w a w' ∧
      (∃ x F₀ found, Act env n x F₀ found w.frame a w'.frame) ∧ Due env n as w' := by
  have hs := h.sound
  obtain ⟨x, F₀, found, F', acts, ext, hscope, resolved⟩ := h.acts
  cases acts with
  | cons act rest =>
    obtain ⟨performs, rfl⟩ :=
      (ends_perform env n hs (act.extends ext) fun r hr => (resolved r hr).2).ok hok
    have loc := performs.isLocal
    refine ⟨performs, ⟨x, F₀, found, act⟩, loc.sound hs, x, F₀, found, F', rest, ext.trans loc.ext,
      loc.ext.scopes.lt_size hscope, fun r hr => ?_⟩
    obtain ⟨hkind, h⟩ := resolved r hr
    exact ⟨hkind, h.of_ext hs hscope loc.ext (loc.meaning r (.inr (by simp [hkind])))⟩

theorem Due.done (h : Due env n actions w) (hok : performAll env actions w = .ok () w') :
    Done env n w actions w' := by
  induction actions generalizing w with
  | nil =>
    cases hok
    exact .nil _
  | cons a as ih =>
    obtain ⟨_, w₁, hfirst, hrest⟩ := bind_ok.1 hok
    obtain ⟨performs, act, rest⟩ := h.first hfirst
    exact .cons h.sound hfirst performs act (ih rest hrest)

variable {leave : List Action} {step : Step env.tree n} {rest : List (Step env.tree n)}
  {done : List NodeId}

theorem Amid.before_due (h : Amid env n w₀ leave (step :: rest) done w)
    (tells : Tells env step.child.val w w') : Due env n step.before w' := by
  obtain ⟨since, course⟩ := h
  cases course with
  | step before =>
    have told : Local env n w w' := tells.isLocal
    have since := since.advance told
    exact ⟨since.sound, _, _, _, _, tells.frame ▸ before, told.ext, since.scope_lt,
      since.resolved_done⟩

theorem Poised.after_due (h : Poised env n w₀ leave step rest done w)
    (visited : Visited env step.child.val w w') : Due env n step.after w' := by
  obtain ⟨done', F, hdone, acts, -⟩ := h.next
  have since := h.since.visit h.once visited hdone
  exact ⟨since.sound, _, _, _, _, visited.frame ▸ acts, visited.ext, since.scope_lt,
    since.resolved_done⟩

theorem Amid.leave_due (h : Amid env n w₀ leave [] done w) : Due env n leave w := by
  obtain ⟨since, course⟩ := h
  cases course with
  | leave acts =>
    exact ⟨since.sound, _, _, _, _, acts, .refl _, since.scope_lt, since.resolved_done⟩

end Done

section Rounds

variable {env : Env} {n : NodeId} {w₀ w w' : Walk} {leave : List Action}
  {steps : List (Step env.tree n)} {done : List NodeId} {Child : NodeId → Walk → Walk → Prop}

theorem Rounds.forM_ok (h : Rounds env n w₀ Child steps w w') :
    (steps.forM fun step => step.run env (visit env step.child.val) : WalkM Unit) w =
      .ok () w' := by
  induction h with
  | nil w => rfl
  | cons _ _ _ _ _ _ _ _ _ _ run _ ih => exact bind_ok.2 ⟨(), _, run, ih⟩

theorem Rounds.extends (h : Rounds env n w₀ Child steps w w') : w.index.Extends w'.index := by
  induction h with
  | nil w => exact .refl _
  | cons _ _ tells before _ _ visited _ after _ _ _ ih =>
    exact ((tells.isLocal (n := n)).trans before.isLocal).ext.trans
      (visited.ext.trans (after.isLocal.ext.trans ih))

/-- What else is known of the visits of children. -/
theorem Rounds.mono {Child' : NodeId → Walk → Walk → Prop}
    (h : Rounds env n w₀ Child steps w w')
    (child : ∀ c v v', Sound v → visit env c v = .ok () v' → Child' c v v') :
    Rounds env n w₀ Child' steps w w' := by
  induction h with
  | nil w => exact .nil w
  | cons sound prepared tells before began visit visited _ after once run _ ih =>
    exact .cons sound prepared tells before began visit visited (child _ _ _ began.sound visit)
      after once run ih

theorem Amid.rounds (h : Amid env n w₀ leave steps done w)
    (child : ∀ c ∈ env.tree.children n, ∀ v v', Sound v → visit env c v = .ok () v' → Child c v v')
    (hok : (steps.forM fun step => step.run env (visit env step.child.val) : WalkM Unit) w =
      .ok () w') :
    (∃ done', Amid env n w₀ leave [] done' w') ∧ Rounds env n w₀ Child steps w w' := by
  induction steps generalizing w done with
  | nil =>
    cases hok
    exact ⟨⟨done, h⟩, .nil _⟩
  | cons step rest ih =>
    obtain ⟨_, w₄, hrun, hrest⟩ := bind_ok.1 hok
    obtain ⟨w₂, w₃, hready, hvisit, hafter⟩ := h.run_ok hrun
    obtain ⟨_, w₁, hprepare, hbefore⟩ := bind_ok.1 hready
    obtain ⟨-, poised⟩ := h.ends_ready.ok hready
    have tells := (ends_prepare h.plain).ok hprepare
    obtain ⟨visited, -⟩ := (ends_visit env step.child.val poised.since.sound).ok hvisit
    obtain ⟨-, done', amid⟩ := (poised.ends_after visited).ok hafter
    obtain ⟨last, rounds⟩ := ih amid hrest
    exact ⟨last, .cons h.since.sound hprepare tells ((h.before_due tells).done hbefore) poised.began
      hvisit visited (child _ step.child.property _ _ poised.since.sound hvisit)
      ((poised.after_due visited).done hafter) poised.once hrun rounds⟩

/-- A visit that succeeds, taken apart. -/
theorem visit_apart (hs : Sound w)
    (child : ∀ c ∈ env.tree.children n, ∀ v v', Sound v → visit env c v = .ok () v' → Child c v v')
    (hok : visit env n w = .ok () w') : ∃ plan v v', enter env n w = .ok plan v ∧
      Admitted env n w plan v ∧ Rounds env n w Child plan.steps v v' ∧
      Done env n v' plan.leave w' := by
  rw [visit] at hok
  obtain ⟨plan, v, henter, hrest⟩ := bind_ok.1 hok
  obtain ⟨_, v', hsteps, hleave⟩ := bind_ok.1 hrest
  have admitted := (ends_enter env n hs).ok henter
  obtain ⟨⟨done, last⟩, rounds⟩ := (admitted.amid hs).rounds child hsteps
  exact ⟨plan, v, v', henter, admitted, rounds, last.leave_due.done hleave⟩

/-- The parts of a visit that succeeds, put together. -/
theorem visit_of_parts {plan : Plan env.tree n} {v v' : Walk} (henter : enter env n w = .ok plan v)
    (rounds : Rounds env n w₀ Child plan.steps v v') (done : Done env n v' plan.leave w') :
    visit env n w = .ok () w' := by
  rw [visit]
  exact bind_ok.2 ⟨plan, v, henter, bind_ok.2 ⟨(), v', rounds.forM_ok, done.performAll_ok⟩⟩

/-- What holds of the visit of a node when it holds of the visits of the children holds of every
visit that succeeds. -/
theorem visit_rounds {P : NodeId → Walk → Walk → Prop}
    (node : ∀ n w plan v v' w', Sound w → enter env n w = .ok plan v → Admitted env n w plan v →
      Rounds env n w P plan.steps v v' → Done env n v' plan.leave w' → Visited env n w w' →
      P n w w')
    (n : NodeId) {w w' : Walk} (hs : Sound w) (hok : visit env n w = .ok () w') : P n w w' := by
  obtain ⟨visited, -⟩ := (ends_visit env n hs).ok hok
  obtain ⟨plan, v, v', henter, admitted, rounds, done⟩ :=
    visit_apart hs (fun c hc v v' hs hok => visit_rounds node c hs hok) hok
  exact node n w plan v v' w' hs henter admitted rounds done visited
termination_by env.tree.size - n.val
decreasing_by
  have := lt_of_mem_children hc
  omega

/-- The visits of the children of the root. -/
theorem visitUnit_rounds {notes : Annotations}
    (child : ∀ c ∈ env.tree.children root, ∀ v v', Sound v → visit env c v = .ok () v' →
      Child c v v')
    (hok : visitUnit env (start env notes) = .ok () w) :
    Rounds env root (start env notes) Child (unitSteps env) (start env notes) w := by
  rw [visitUnit_eq] at hok
  obtain ⟨_, v, hsteps, hleave⟩ := bind_ok.1 hok
  cases hleave
  exact ((amid_start env notes).rounds child hsteps).2

end Rounds

/-! ### One child alone -/

section Only

variable {env : Env} {n c : NodeId} {w v w' : Walk}

/-- Of the children of a node, the first one of a kind is met once. -/
theorem onlySteps_eq {t : ParseTree} {kind : NodeKind} (q : Qualifier)
    (h : t.childOfKind? n kind = some c) :
    ∃ child : t.Child n, child.val = c ∧
      onlySteps t n kind q = [{ child, qualifier := some q }] := by
  obtain ⟨child, hmem, rfl⟩ := exists_child_of_childOfKind? h
  refine ⟨child, rfl, ?_⟩
  have nodup := nodup_childList t n
  have sole : ((t.childList n).filter fun c => t.childOfKind? n kind = some c.val) = [child] := by
    have same : ∀ c : t.Child n, decide (t.childOfKind? n kind = some c.val) = (c == child) := by
      intro c
      rw [h, beq_eq_decide]
      simp only [Option.some_inj, Subtype.ext_iff, eq_comm]
    rw [List.filter_congr fun c _ => same c, List.filter_beq, List.count_eq_one_of_mem ?_ hmem]
    · rfl
    · exact List.Nodup.of_map _ nodup
  rw [onlySteps, sole]
  rfl

/-- The only step of a node at which nothing else is done. -/
theorem Rounds.sole {w₀ : Walk} {Child : NodeId → Walk → Walk → Prop} {step : Step env.tree n}
    (h : Rounds env n w₀ Child [step] w w') (before : step.before = []) (after : step.after = []) :
    ∃ v, Tells env step.child.val w v ∧ visit env step.child.val v = .ok () w' ∧
      Child step.child.val v w' ∧ step.ready env w = .ok () v ∧
      step.run env (visit env step.child.val) w = .ok () w' := by
  cases h with
  | cons sound prepared tells hbefore began visit visited child hafter once run others =>
    have ready : step.ready env w = .ok () _ := bind_ok.2 ⟨(), _, prepared, hbefore.performAll_ok⟩
    rw [before] at hbefore
    rw [after] at hafter
    cases others
    cases hbefore
    cases hafter
    exact ⟨_, tells, visit, child, ready, run⟩

theorem stepsEntries_sole {step : Step env.tree n} (ready : step.ready env w = .ok () v)
    (run : step.run env (visit env step.child.val) w = .ok () w') :
    stepsEntries env [step] w = entries env step.child.val v := by
  rw [stepsEntries_of_ok run, Step.entries_of_ok ready]
  simp [stepsEntries, collect]

/-- The visit of a node of whose children only the first of a kind is visited. -/
theorem visit_only {kind : NodeKind} {q : Qualifier} {leave : List Action}
    (henter : enter env n w = .ok { steps := onlySteps env.tree n kind q, leave } v)
    (hchild : env.tree.childOfKind? n kind = some c) (hs : Sound w)
    (hok : visit env n w = .ok () w') :
    ∃ v₁ v₂, Tells env c v v₁ ∧ visit env c v₁ = .ok () v₂ ∧ Done env n v₂ leave w' ∧
      entries env n w = (n, w) :: entries env c v₁ := by
  obtain ⟨plan, u, v', henter', -, rounds, done⟩ :=
    visit_apart hs (fun c _ v v' _ (h : visit env c v = .ok () v') => h) hok
  rw [henter] at henter'
  cases henter'
  obtain ⟨child, rfl, only⟩ := onlySteps_eq q hchild
  rw [entries_of_ok henter]
  dsimp only at rounds done ⊢
  rw [only] at rounds ⊢
  obtain ⟨v₁, tells, hvisit, -, ready, run⟩ := rounds.sole rfl rfl
  exact ⟨v₁, v', tells, hvisit, done, by rw [stepsEntries_sole ready run]⟩

end Only

end AblResolve.Walk
