import AblResolve.Proofs.Unit
import AblResolve.Proofs.Uses
import AblResolve.Tree.Outline
import Mathlib.Data.List.Nodup
/-!
Trees that have grown from a root, one child after the other. That the links of a tree agree says
nothing about a node that has no parent and stands in no list; in a grown tree only the root is
such a node, and every other one stands in one of the lists of children, once.
-/
namespace AblResolve

namespace ParseTree

/-- The tree has been made from a root by adding children to nodes that were there. -/
inductive Grown : ParseTree → Prop
  | root (kind : NodeKind) (token : Token) (fileNames : List String) :
      Grown (.ofRoot kind token fileNames)
  | child {t : ParseTree} (grown : Grown t) (parent : NodeId) (h : parent.val < t.size)
      (kind : NodeKind) (token : Token) (definesInline : Bool) :
      Grown (t.addChild parent h kind token definesInline)

/-- The children of all nodes, list after list. -/
def childLists (t : ParseTree) : List NodeId := t.nodes.ids.flatMap t.children

variable {t : ParseTree} {n c : NodeId}

/-! ### Parents -/

theorem parent?_addChild {parent : NodeId} {h : parent.val < t.size} {kind : NodeKind}
    {token : Token} {definesInline : Bool} (hn : n.val < t.size) :
    (t.addChild parent h kind token definesInline).parent? n = t.parent? n :=
  parent_addChildNode hn

theorem parent?_addChild_next {parent : NodeId} {h : parent.val < t.size} {kind : NodeKind}
    {token : Token} {definesInline : Bool} :
    (t.addChild parent h kind token definesInline).parent? t.nodes.next = some parent :=
  parent_addChildNode_next

/-- In a grown tree, every node but the root has a parent. -/
theorem Grown.exists_parent (grown : Grown t) (hne : n ≠ ParseTree.root) (hlt : n.val < t.size) :
    ∃ p, t.parent? n = some p := by
  induction grown with
  | root kind token fileNames =>
    have hzero : n.val = 0 := Nat.lt_one_iff.1 hlt
    exact absurd (Id.ext hzero) hne
  | @child t grown parent h kind token definesInline ih =>
    by_cases hnext : n = t.nodes.next
    · exact ⟨parent, hnext ▸ parent?_addChild_next⟩
    · have hval : n.val ≠ t.size := fun heq => hnext (Id.ext heq)
      rw [size_addChild] at hlt
      have hold : n.val < t.size := by omega
      rw [parent?_addChild hold]
      exact ih hold

/-! ### Lists of children -/

theorem pairwise_children (t : ParseTree) (n : NodeId) :
    (t.children n).Pairwise (·.val < ·.val) := by
  unfold children
  split
  · rename_i node hnode
    exact t.linked.ordered hnode
  · exact List.Pairwise.nil

theorem lt_size_of_mem_children (h : c ∈ t.children n) : n.val < t.size := by
  have := lt_of_mem_children h
  omega

theorem mem_childLists : c ∈ t.childLists ↔ ∃ p, t.parent? c = some p := by
  simp only [childLists, List.mem_flatMap]
  constructor
  · rintro ⟨p, -, hc⟩
    exact ⟨p, parent?_of_mem_children hc⟩
  · rintro ⟨p, hp⟩
    have hc := mem_children_of_parent? hp
    exact ⟨p, Arena.mem_ids.2 (lt_size_of_mem_children hc), hc⟩

/-- No node is in two lists, nor twice in one. -/
theorem nodup_childLists (t : ParseTree) : t.childLists.Nodup := by
  refine List.nodup_flatMap.2 ⟨fun n _ => nodup_children t n, ?_⟩
  refine (Arena.nodup_ids t.nodes).imp fun {a b} hne => ?_
  intro c ha hb
  exact hne (Option.some.inj ((parent?_of_mem_children ha).symm.trans (parent?_of_mem_children hb)))

/-- In a grown tree, every node but the root is in one list of children, that of its parent. -/
theorem Grown.count_childLists (grown : Grown t) (hne : n ≠ ParseTree.root)
    (hlt : n.val < t.size) :
    ∃ p, t.parent? n = some p ∧ n ∈ t.children p ∧ t.childLists.count n = 1 := by
  obtain ⟨p, hp⟩ := grown.exists_parent hne hlt
  exact ⟨p, hp, mem_children_of_parent? hp,
    List.count_eq_one_of_mem (nodup_childLists t) (mem_childLists.2 ⟨p, hp⟩)⟩

/-- Going down from child to child comes to an end. -/
theorem wellFounded_children (t : ParseTree) : WellFounded fun c p => c ∈ t.children p := by
  refine Subrelation.wf (fun {c p} hc => ?_) (measure fun n : NodeId => t.size - n.val).wf
  have := lt_of_mem_children hc
  show t.size - c.val < t.size - p.val
  omega

end ParseTree

/-! ### Outlines -/

namespace Outline

open ParseTree

theorem bind_ok {α β : Type} {m : Except PlaceError β} {f : β → Except PlaceError α} {a : α}
    (h : m >>= f = .ok a) : ∃ b, m = .ok b ∧ f b = .ok a := by
  cases m with
  | error e => cases h
  | ok b => exact ⟨b, rfl, h⟩

mutual

theorem grown_addTo {parent : NodeId} {d : Draft} {h : parent.val < d.tree.size}
    (grown : Grown d.tree) :
    ∀ (o : Outline) {d'}, addTo parent d h o = .ok d' → Grown d'.val.tree
  | .node kind word definesInline children, d', hok => by
    rw [addTo] at hok
    obtain ⟨⟨token, nextLine⟩, -, hok⟩ := bind_ok hok
    obtain ⟨below, hbelow, hok⟩ := bind_ok hok
    cases hok
    have added := grown.child parent h kind token definesInline
    exact grown_addAllTo (d := ⟨_, nextLine⟩) added children hbelow

theorem grown_addAllTo {parent : NodeId} {d : Draft} {h : parent.val < d.tree.size}
    (grown : Grown d.tree) :
    ∀ (os : List Outline) {d'}, addAllTo parent d h os = .ok d' → Grown d'.val.tree
  | [], d', hok => by
    rw [addAllTo] at hok
    cases hok
    exact grown
  | o :: rest, d', hok => by
    rw [addAllTo] at hok
    obtain ⟨first, hfirst, hok⟩ := bind_ok hok
    obtain ⟨all, hall, hok⟩ := bind_ok hok
    cases hok
    exact grown_addAllTo (grown_addTo grown o hfirst) rest hall

end

end Outline

namespace ParseTree

/-- The trees that are written down as outlines have grown. -/
theorem grown_ofOutlines {rootKind : NodeKind} {fileName : String} {outlines : List Outline}
    {t : ParseTree} (h : ofOutlines rootKind fileName outlines = .ok t) : Grown t := by
  obtain ⟨draft, hdraft, hok⟩ := Outline.bind_ok h
  cases hok
  exact Outline.grown_addAllTo (.root rootKind _ _) outlines hdraft

theorem grown_ofRows (rows : List (Nat × NodeKind × String)) : Grown (ofRows rows) := by
  refine List.foldlRecOn rows _ (.root _ _ _) fun t grown row _ => ?_
  dsimp only
  split
  · exact grown.child _ _ _ _ _
  · exact grown

end ParseTree

end AblResolve
