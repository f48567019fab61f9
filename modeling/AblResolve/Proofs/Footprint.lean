import AblResolve.Proofs.GrownTrees
import AblResolve.Proofs.OverwritingPlans
import Mathlib.Data.List.Perm.Subperm
/-!
Where a visit writes, and how often nodes are visited. A visit writes on nodes of its own subtree
and nowhere else, even if it fails; it makes visits of children alone, each at most once. Over a
tree that has grown from its root, a walk therefore comes to an end with every node visited once at
most.
-/
namespace AblResolve

namespace Walk

open ParseTree UnitIndex

variable {env : Env} {n : NodeId} {x : UnitIndex} {w₀ w : Walk} {F₀ F F' : Frame}
  {leave actions : List Action} {step : Step env.tree n} {steps rest : List (Step env.tree n)}
  {done : List NodeId}

/-! ### What is done at one node -/

theorem Act.within {action : Action} (act : Act env n x F₀ done F action F') :
    ∀ m ∈ action.sites, env.tree.Within n m := by
  intro m hm
  cases act with
  | bindStrongly kind child => exact within_of_mem_children (List.mem_singleton.1 hm ▸ child)
  | defineBuffer | addBufferParameter =>
    rw [List.mem_singleton.1 hm]
    exact .refl n
  | _ => simp [Action.sites] at hm

theorem Acts.writes (acts : Acts env n x F₀ done F actions F') :
    Writes (env.tree.Within n) (performAll env actions) := by
  refine writes_performAll fun a ha => ?_
  induction acts with
  | nil => cases ha
  | cons act rest ih =>
    rcases List.mem_cons.1 ha with rfl | ha
    · exact act.within
    · exact ih ha

theorem Course.writes_leave (course : Course env n x F₀ leave done F steps) :
    Writes (env.tree.Within n) (performAll env leave) := by
  induction course with
  | leave acts => exact acts.writes
  | step before opened visited after quiet uses once plain fits course ih => exact ih

/-! ### Visits -/

/-- A step writes at and below its node if the visit of its child writes at and below the child. -/
theorem Amid.writes_run (h : Amid env n w₀ leave (step :: rest) done w)
    (child : ∀ v, Sound v →
      WritesOn (env.tree.Within step.child.val) (visit env step.child.val) v) :
    WritesOn (env.tree.Within n) (step.run env (visit env step.child.val)) w := by
  have below : ∀ k, env.tree.Within step.child.val k → env.tree.Within n k :=
    fun k => (within_of_mem_children step.child.property).trans
  rw [Step.run_eq]
  cases h.course with
  | step before opened visited after =>
    have ready : Writes (env.tree.Within n) (step.ready env) :=
      (Confined.prepare env step).writes.bind fun _ => before.writes
    refine (ready w).bind fun _ w₁ hready => ?_
    obtain ⟨-, poised⟩ := h.ends_ready.ok hready
    refine WritesOn.bind ?_ fun _ v _ => after.writes v
    -- a child that fails has written below itself, and closing the node writes nothing
    exact ((child w₁ poised.since.sound).mono below).tryCatch
      fun f => (poised.opened.confined_undo f).writes

theorem Amid.writes_loop (h : Amid env n w₀ leave steps done w)
    (child : ∀ c ∈ env.tree.children n, ∀ v, Sound v →
      WritesOn (env.tree.Within c) (visit env c) v) :
    WritesOn (env.tree.Within n)
      (steps.forM fun step => step.run env (visit env step.child.val)) w := by
  induction steps generalizing w done with
  | nil => exact Writes.pure _ w
  | cons step rest ih =>
    refine (h.writes_run (child _ step.child.property)).bind fun _ v hrun => ?_
    obtain ⟨⟨done', amid⟩, -⟩ := (h.ends_run fun _ => ends_visit env _).ok hrun
    exact ih amid

/-- A visit writes on its node and on nodes below it alone, however it ends. -/
theorem writes_visit (env : Env) (n : NodeId) {w : Walk} (hs : Sound w) :
    WritesOn (env.tree.Within n) (visit env n) w := by
  have enters : Writes (env.tree.Within n) (enter env n) :=
    (Confined.enter env n (.refl n) fun c => within_of_mem_children).writes
  rw [visit]
  refine (enters w).bind fun plan v henter => ?_
  have amid := ((ends_enter env n hs).ok henter).amid hs
  refine (amid.writes_loop fun c hc v hs => writes_visit env c hs).bind fun _ v' _ => ?_
  exact amid.course.writes_leave v'
termination_by env.tree.size - n.val
decreasing_by
  have := lt_of_mem_children hc
  omega

/-! ### Walks over a unit -/

section Unit

variable {notes : Annotations}

theorem root_not_mem_unitEntries : root ∉ (unitEntries env notes).map (·.1) := by
  intro hmem
  obtain ⟨e, he, heq⟩ := List.mem_map.1 hmem
  exact ne_root_of_mem_unitEntries he heq

/-- There are fewer visits than nodes. -/
theorem length_unitEntries_lt : (unitEntries env notes).length < env.tree.size := by
  have once : (root :: (unitEntries env notes).map (·.1)).Nodup :=
    List.nodup_cons.2 ⟨root_not_mem_unitEntries, unitEntries_nodup env notes⟩
  have nodes : root :: (unitEntries env notes).map (·.1) ⊆ env.tree.nodes.ids := by
    intro k hk
    rcases List.mem_cons.1 hk with rfl | hk
    · exact Arena.mem_ids.2 env.tree.nonempty
    · obtain ⟨e, he, rfl⟩ := List.mem_map.1 hk
      obtain ⟨p, child⟩ := exists_parent_of_mem_unitEntries he
      exact Arena.mem_ids.2 (lt_of_mem_children child).2
  have fits := (List.subperm_of_subset once nodes).length_le
  rw [List.length_cons, List.length_map, Arena.ids, List.length_map, List.length_range] at fits
  exact fits

end Unit

/-- Trees that are written down as outlines have grown from their roots. In a tree that has,
children come after their parents and in order, and every node but the root is once in a list of
children, that of its parent. So a visit makes visits of later nodes only, and whatever the catalog,
the types and the options are and whatever is written on the tree, a walk comes to an end: it visits
no node twice and the root not at all, and each visit writes on its own node and on nodes below it
alone, even if it fails. -/
theorem walk_visits_once :
    (∀ rootKind fileName outlines t, ofOutlines rootKind fileName outlines = .ok t → Grown t) ∧
    ∀ t, Grown t →
      (∀ p, (∀ c ∈ t.children p, p.val < c.val) ∧ (t.children p).Pairwise (·.val < ·.val)) ∧
      (∀ c, c ≠ root → c.val < t.size →
        ∃ p, t.parent? c = some p ∧ c ∈ t.children p ∧ t.childLists.count c = 1) ∧
      ∀ catalog types options notes,
        let env : Env := { tree := t, catalog, types, options }
        let visits := unitEntries env notes
        (∀ n w, (∀ c ∈ calls env n w, n.val < c.1.val) ∧
          ∀ visitChild, (∀ c ∈ calls env n w, visitChild c.1 c.2 = visit env c.1 c.2) →
            visitWith env visitChild n w = visit env n w) ∧
        WellFounded (fun c n => ∃ w, c ∈ (calls env n w).map (·.1)) ∧
        (visits.map (·.1)).Nodup ∧ root ∉ visits.map (·.1) ∧ visits.length < t.size ∧
        ∀ e ∈ visits, WritesOn (t.Within e.1) (visit env e.1) e.2 := by
  refine ⟨fun _ _ _ _ => grown_ofOutlines, fun t grown => ⟨fun p => ⟨fun c hc => ?_, ?_⟩,
    fun c => grown.count_childLists, fun catalog types options notes => ?_⟩⟩
  · exact (lt_of_mem_children hc).1
  · exact pairwise_children t p
  intro env visits
  refine ⟨fun n w => ⟨fun c hc => ?_, fun _ => visitWith_congr⟩, ?_, unitEntries_nodup env notes,
    root_not_mem_unitEntries, length_unitEntries_lt, fun e he => ?_⟩
  · exact (lt_of_mem_children (mem_children_of_mem_calls hc)).1
  · refine Subrelation.wf (fun {c n} hc => ?_) (wellFounded_children t)
    obtain ⟨w, hmem⟩ := hc
    obtain ⟨call, hcall, rfl⟩ := List.mem_map.1 hmem
    exact mem_children_of_mem_calls hcall
  · exact writes_visit env e.1 (sound_of_mem_unitEntries he)

/-- A procedure with a name, as an outline. -/
def procedureOutline : Outline :=
  .node .procedureStatement (.text "") false [.node .identifier (.text "p") false []]

/-- The sample: its ten nodes below the root are visited once each, in order. -/
theorem walk_visits_once_sample :
    (∃ t, ofOutlines .program "sample.p" [procedureOutline] = .ok t ∧ Grown t) ∧
    (∃ p, sampleTree.parent? ⟨10⟩ = some p ∧ (⟨10⟩ : NodeId) ∈ sampleTree.children p ∧
      sampleTree.childLists.count ⟨10⟩ = 1) ∧
    let env : Env := { tree := sampleTree }
    let visits := unitEntries env (.blank sampleTree.size)
    visits.map (·.1) = (List.range 10).map (⟨· + 1⟩) ∧ (visits.map (·.1)).Nodup ∧
      visits.length < 11 ∧ ∀ e ∈ visits, WritesOn (sampleTree.Within e.1) (visit env e.1) e.2 := by
  obtain ⟨written, grown⟩ := walk_visits_once
  obtain ⟨-, once, walks⟩ := grown sampleTree (grown_ofRows _)
  obtain ⟨-, -, nodup, -, fewer, writes⟩ := walks {} {} {} (.blank sampleTree.size)
  have outlined : (ofOutlines .program "sample.p" [procedureOutline]).isOk := by decide +kernel
  refine ⟨?_, once ⟨10⟩ (by decide) (by decide), by decide +kernel, nodup, fewer, writes⟩
  cases h : ofOutlines .program "sample.p" [procedureOutline] with
  | ok t => exact ⟨t, rfl, written _ _ _ t h⟩
  | error e => rw [h] at outlined; cases outlined

end Walk

end AblResolve
