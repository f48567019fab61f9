import AblResolve.Proofs.ParallelEnter
import AblResolve.Proofs.Unit
/-!
Visits of nodes that two trees share. From states that are alike, the visit of a shared node goes on
to states that are alike, or ends on both sides with the same fault; so do the walks over two units,
as far as their trees are shared.
-/
namespace AblResolve.Walk

open UnitIndex ParseTree

variable {L : Likeness} {env env' : Env}

namespace Parallel

theorem visit (h : env.Alike L env') {n : NodeId} (hn : L.nodes n) :
    Parallel L Eq (visit env n) (visit env' n) := by
  rw [Walk.visit, Walk.visit]
  refine .bind (.enter h hn) fun plan plan' alike => ?_
  obtain ⟨steps, leave, shared⟩ := alike
  refine .seq (.forM steps fun s s' hs _ => ?_) fun _ => leave ▸ .performAll h shared
  -- children have larger numbers than their node, and are shared with it
  refine .run h hn hs ?_
  rw [← hs.child]
  exact visit h (h.below hn _ s.child.property)
termination_by env.tree.size - n.val
decreasing_by exact s.child.size_sub_lt

/-- The visits of shared nodes, one after the other. -/
theorem visits (h : env.Alike L env') {cs : List NodeId} (shared : ∀ c ∈ cs, L.nodes c) :
    Parallel L Eq (cs.forM (Walk.visit env)) (cs.forM (Walk.visit env')) :=
  .forM_same fun c hc => .visit h (shared c hc)

end Parallel

/-- Walks over units start alike. -/
theorem alike_start (fileName : env.tree.fileName? 0 = env'.tree.fileName? 0)
    (defaults : L.defaults [] []) {o o' : Annotations} (same : ∀ n, o.get n = o'.get n) :
    (start env o).Alike L (start env' o') := by
  have notes : ∀ n, (start env o).notes.get n = (start env' o').notes.get n := by
    intro n
    simp only [start, Annotations.get_update, same]
  refine ⟨?_, notes, rfl, rfl, rfl, rfl, rfl, rfl, rfl, by rintro _ ⟨⟩, rfl, rfl, rfl⟩
  simp only [start, fileName]
  exact ⟨rfl, rfl, rfl, rfl, rfl, rfl, rfl, rfl, rfl, defaults, rfl, by rintro _ _ ⟨⟩⟩

end AblResolve.Walk
