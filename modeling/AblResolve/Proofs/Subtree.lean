import AblResolve.Tree.Basic
import Mathlib.Logic.Relation
/-!
The nodes at and below a node of a tree. The nodes below different children of one node are
different.
-/
namespace AblResolve.ParseTree

open Relation

variable {t : ParseTree} {a b c n m : NodeId}

/-- Node `m` is `a` or below it. -/
def Within (t : ParseTree) (a m : NodeId) : Prop :=
  ReflTransGen (fun p c => c ∈ t.children p) a m

theorem Within.refl (a : NodeId) : t.Within a a := ReflTransGen.refl

theorem Within.trans (h : t.Within a b) (k : t.Within b m) : t.Within a m := ReflTransGen.trans h k

theorem within_of_mem_children (h : c ∈ t.children n) : t.Within n c := ReflTransGen.single h

theorem Within.le (h : t.Within a m) : a.val ≤ m.val := by
  induction h with
  | refl => exact Nat.le_refl _
  | tail _ hchild ih => exact Nat.le_trans ih (Nat.le_of_lt (lt_of_mem_children hchild).1)

theorem ne_root_of_mem_children (h : c ∈ t.children n) : c ≠ root := by
  rintro rfl
  have := (lt_of_mem_children h).1
  simp [root] at this

theorem not_within_of_mem_children (h : c ∈ t.children n) : ¬ t.Within c n := by
  intro hw
  have := hw.le
  have := (lt_of_mem_children h).1
  omega

theorem Within.ne_parent (h : t.Within c m) (hc : c ∈ t.children n) : m ≠ n := by
  rintro rfl
  exact not_within_of_mem_children hc h

theorem ne_of_mem_children (h : c ∈ t.children n) : c ≠ n := (Within.refl c).ne_parent h

/-- A node strictly below another has a parent that is there, too. -/
theorem Within.cases_parent (h : t.Within a m) (hne : m ≠ a) :
    ∃ p, t.parent? m = some p ∧ t.Within a p := by
  rcases ReflTransGen.cases_tail h with rfl | ⟨p, hp, hm⟩
  · exact absurd rfl hne
  · exact ⟨p, parent?_of_mem_children hm, hp⟩

theorem Within.total (h : t.Within a m) (k : t.Within b m) : t.Within a b ∨ t.Within b a := by
  induction h with
  | refl => exact .inr k
  | tail hp hchild ih =>
    rename_i p m
    by_cases hb : m = b
    · subst hb
      exact .inl (hp.tail hchild)
    · obtain ⟨q, hq, hwithin⟩ := k.cases_parent hb
      rw [parent?_of_mem_children hchild] at hq
      cases hq
      exact ih hwithin

theorem Within.of_child_ne (hb : b ∈ t.children n) (hc : c ∈ t.children n) (hne : b ≠ c)
    (h : t.Within b c) : False := by
  obtain ⟨p, hp, hwithin⟩ := h.cases_parent hne.symm
  rw [parent?_of_mem_children hc] at hp
  cases hp
  exact not_within_of_mem_children hb hwithin

/-- Subtrees of siblings have no node in common. -/
theorem Within.sibling (hb : b ∈ t.children n) (hc : c ∈ t.children n) (hne : b ≠ c)
    (h : t.Within b m) : ¬ t.Within c m := by
  intro k
  rcases h.total k with hbc | hcb
  · exact hbc.of_child_ne hb hc hne
  · exact hcb.of_child_ne hc hb hne.symm

end AblResolve.ParseTree
