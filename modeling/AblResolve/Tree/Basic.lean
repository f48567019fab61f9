import AblResolve.Arena
import AblResolve.Tree.Kind
import AblResolve.Tree.Token
/-!
Parse trees. The nodes of a tree are numbered in the order in which they were added, from zero
for the root, so every child has a larger number than its parent; walks down the tree end
because of it. A tree carries the proof that its links agree.
-/
namespace AblResolve

structure Node where
  kind : NodeKind
  token : Token
  parent : Option NodeId := none
  children : List NodeId := []
  /-- A field reference that also defines a variable of its name. -/
  definesInline : Bool := false
deriving Repr, DecidableEq, Inhabited

/-- The links of the nodes agree: children come after their parent and in order, and a node is
in the list of its parent and in no other. -/
structure Linked (nodes : Arena .node Node) : Prop where
  below : ∀ {n : NodeId} {node : Node}, nodes.get? n = some node →
    ∀ c ∈ node.children, n.val < c.val ∧ c.val < nodes.size
  ordered : ∀ {n : NodeId} {node : Node}, nodes.get? n = some node →
    node.children.Pairwise (·.val < ·.val)
  parent_of_child : ∀ {n : NodeId} {node : Node}, nodes.get? n = some node →
    ∀ c ∈ node.children, (nodes.get? c).bind (·.parent) = some n
  child_of_parent : ∀ {n p : NodeId}, (nodes.get? n).bind (·.parent) = some p →
    ∃ parent, nodes.get? p = some parent ∧ n ∈ parent.children

/-- The nodes with one more, the last child of `parent`. Its number is the old size. -/
def addChildNode (nodes : Arena .node Node) (parent : NodeId) (kind : NodeKind) (token : Token)
    (definesInline : Bool) : Arena .node Node :=
  (nodes.update parent fun p => { p with children := p.children ++ [nodes.next] }).push
    { kind, token, parent := some parent, definesInline }

section AddChildNode

variable {nodes : Arena .node Node} {parent : NodeId} {kind : NodeKind} {token : Token}
  {definesInline : Bool}

@[simp] theorem size_addChildNode :
    (addChildNode nodes parent kind token definesInline).size = nodes.size + 1 := by
  rw [addChildNode, Arena.size_push, Arena.size_update]

theorem get?_addChildNode (n : NodeId) :
    (addChildNode nodes parent kind token definesInline).get? n =
      if n = nodes.next then some { kind, token, parent := some parent, definesInline }
      else if parent = n then
        (nodes.get? n).map fun p => { p with children := p.children ++ [nodes.next] }
      else nodes.get? n := by
  have hnext : (nodes.update parent fun p =>
      { p with children := p.children ++ [nodes.next] }).next = nodes.next := by
    simp [Arena.next]
  rw [addChildNode, Arena.get?_push, hnext, Arena.get?_update]

/-- The children of a node that was there: those it had, and the new one below `parent`. -/
theorem children_addChildNode {n : NodeId} {node : Node}
    (h : (addChildNode nodes parent kind token definesInline).get? n = some node) :
    node.children = [] ∨ ∃ old, nodes.get? n = some old ∧
      (node.children = old.children ∨
        n = parent ∧ node.children = old.children ++ [nodes.next]) := by
  rw [get?_addChildNode] at h
  split at h
  · cases h
    exact .inl rfl
  split at h
  · rename_i hn
    obtain ⟨old, hold, rfl⟩ := Option.map_eq_some_iff.1 h
    exact .inr ⟨old, hold, .inr ⟨hn.symm, rfl⟩⟩
  · exact .inr ⟨node, h, .inl rfl⟩

/-- Nothing is a child afterwards but what was one before, and the new node below `parent`. -/
theorem mem_children_addChildNode {n c : NodeId} {node : Node}
    (h : (addChildNode nodes parent kind token definesInline).get? n = some node)
    (hc : c ∈ node.children) :
    (∃ old, nodes.get? n = some old ∧ c ∈ old.children) ∨ n = parent ∧ c = nodes.next := by
  obtain hnil | ⟨old, hold, hsame | ⟨rfl, happ⟩⟩ := children_addChildNode h
  · simp [hnil] at hc
  · exact .inl ⟨old, hold, hsame ▸ hc⟩
  · rw [happ, List.mem_append, List.mem_singleton] at hc
    exact hc.imp (fun hc => ⟨old, hold, hc⟩) fun hc => ⟨rfl, hc⟩

/-- A node that was there has kept its children. -/
theorem children_subset_addChildNode {p : NodeId} {old : Node} (h : nodes.get? p = some old) :
    ∃ node, (addChildNode nodes parent kind token definesInline).get? p = some node ∧
      old.children ⊆ node.children ∧ (p = parent → nodes.next ∈ node.children) := by
  have hne : p ≠ nodes.next := by
    rintro rfl
    exact Nat.lt_irrefl _ (Arena.lt_size_of_get? h)
  rw [get?_addChildNode, if_neg hne, h]
  split
  · exact ⟨_, rfl, List.subset_append_left _ _, fun _ => by simp⟩
  · rename_i hp
    exact ⟨old, rfl, List.Subset.refl _, fun heq => absurd heq.symm hp⟩

theorem parent_addChildNode {n : NodeId} (h : n.val < nodes.size) :
    ((addChildNode nodes parent kind token definesInline).get? n).bind (·.parent) =
      (nodes.get? n).bind (·.parent) := by
  have hne : n ≠ nodes.next := by
    rintro rfl
    exact Nat.lt_irrefl _ h
  rw [get?_addChildNode, if_neg hne]
  split
  · cases nodes.get? n <;> rfl
  · rfl

theorem parent_addChildNode_next :
    ((addChildNode nodes parent kind token definesInline).get? nodes.next).bind (·.parent) =
      some parent := by
  rw [get?_addChildNode, if_pos rfl]
  rfl

end AddChildNode

theorem linked_leaf (node : Node) (h : node.children = []) (hp : node.parent = none) :
    Linked ⟨#[node]⟩ := by
  have only : ∀ {n : NodeId} {found : Node},
      (Arena.mk #[node] : Arena .node Node).get? n = some found → found = node := by
    intro n found hn
    have hlt := Arena.lt_size_of_get? hn
    have hzero : n.val = 0 := by simpa [Arena.size] using hlt
    simp only [Arena.get?, hzero] at hn
    cases hn
    rfl
  refine ⟨?_, ?_, ?_, ?_⟩
  · intro n found hn c hc
    simp [only hn, h] at hc
  · intro n found hn
    simp [only hn, h]
  · intro n found hn c hc
    simp [only hn, h] at hc
  · intro n p hn
    obtain ⟨found, hfound, hparent⟩ := Option.bind_eq_some_iff.1 hn
    rw [only hfound, hp] at hparent
    cases hparent

theorem Linked.addChildNode {nodes : Arena .node Node} (h : Linked nodes) {parent : NodeId}
    (hparent : parent.val < nodes.size) (kind : NodeKind) (token : Token)
    (definesInline : Bool) : Linked (addChildNode nodes parent kind token definesInline) where
  below {n node} hn c hc := by
    rw [size_addChildNode]
    obtain ⟨old, hold, hc⟩ | ⟨rfl, rfl⟩ := mem_children_addChildNode hn hc
    · have := h.below hold c hc
      omega
    · exact ⟨hparent, Nat.lt_succ_self _⟩
  ordered {n node} hn := by
    obtain hnil | ⟨old, hold, hsame | ⟨rfl, happ⟩⟩ := children_addChildNode hn
    · simp [hnil]
    · exact hsame ▸ h.ordered hold
    · rw [happ, List.pairwise_append]
      refine ⟨h.ordered hold, List.pairwise_singleton _ _, ?_⟩
      intro a ha b hb
      rw [List.mem_singleton] at hb
      exact hb ▸ (h.below hold a ha).2
  parent_of_child {n node} hn c hc := by
    obtain ⟨old, hold, hc⟩ | ⟨rfl, rfl⟩ := mem_children_addChildNode hn hc
    · rw [parent_addChildNode (h.below hold c hc).2]
      exact h.parent_of_child hold c hc
    · exact parent_addChildNode_next
  child_of_parent {n p} hn := by
    by_cases hnext : n = nodes.next
    · subst hnext
      rw [parent_addChildNode_next] at hn
      cases hn
      obtain ⟨old, hold⟩ := Option.isSome_iff_exists.1 (Arena.get?_isSome_iff.2 hparent)
      obtain ⟨node, hnode, -, last⟩ := children_subset_addChildNode hold
      exact ⟨node, hnode, last rfl⟩
    · have hlt : n.val < nodes.size := by
        obtain ⟨node, hnode, -⟩ := Option.bind_eq_some_iff.1 hn
        have := Arena.lt_size_of_get? hnode
        rw [size_addChildNode] at this
        have : n.val ≠ nodes.size := fun heq => hnext (Id.ext heq)
        omega
      rw [parent_addChildNode hlt] at hn
      obtain ⟨old, hold, hmem⟩ := h.child_of_parent hn
      obtain ⟨node, hnode, kept, -⟩ := children_subset_addChildNode hold
      exact ⟨node, hnode, kept hmem⟩

structure ParseTree where
  nodes : Arena .node Node
  fileNames : List String := []
  nonempty : 0 < nodes.size
  linked : Linked nodes

namespace ParseTree

def root : NodeId := ⟨0⟩

def size (t : ParseTree) : Nat := t.nodes.size

/-- The tree of a root alone. -/
def ofRoot (kind : NodeKind) (token : Token) (fileNames : List String) : ParseTree where
  nodes := ⟨#[{ kind, token }]⟩
  fileNames := fileNames
  nonempty := Nat.one_pos
  linked := linked_leaf _ rfl rfl

/-- The tree with one more node, the last child of `parent`. Its number is the old size. -/
def addChild (t : ParseTree) (parent : NodeId) (h : parent.val < t.size) (kind : NodeKind)
    (token : Token) (definesInline : Bool) : ParseTree where
  nodes := addChildNode t.nodes parent kind token definesInline
  fileNames := t.fileNames
  nonempty := Nat.lt_of_lt_of_eq (Nat.succ_pos _) size_addChildNode.symm
  linked := t.linked.addChildNode h kind token definesInline

@[simp] theorem size_addChild (t : ParseTree) (parent : NodeId) (h : parent.val < t.size)
    (kind : NodeKind) (token : Token) (definesInline : Bool) :
    (t.addChild parent h kind token definesInline).size = t.size + 1 := by
  simp [size, addChild]

def node? (t : ParseTree) (n : NodeId) : Option Node := t.nodes.get? n

/-- The kind of a node; a number outside the tree counts as a plain statement. -/
def kind (t : ParseTree) (n : NodeId) : NodeKind :=
  match t.node? n with
  | some node => node.kind
  | none => .statement

def token (t : ParseTree) (n : NodeId) : Token :=
  match t.node? n with
  | some node => node.token
  | none => {}

def text (t : ParseTree) (n : NodeId) : String := (t.token n).text

def location (t : ParseTree) (n : NodeId) : Location := (t.token n).location

def parent? (t : ParseTree) (n : NodeId) : Option NodeId := (t.node? n).bind (·.parent)

def children (t : ParseTree) (n : NodeId) : List NodeId :=
  match t.node? n with
  | some node => node.children
  | none => []

def definesInline (t : ParseTree) (n : NodeId) : Bool :=
  match t.node? n with
  | some node => node.definesInline
  | none => false

theorem lt_of_mem_children {t : ParseTree} {n c : NodeId} (h : c ∈ t.children n) :
    n.val < c.val ∧ c.val < t.size := by
  unfold children at h
  split at h
  · rename_i node hnode
    exact t.linked.below hnode c h
  · simp at h

theorem parent?_of_mem_children {t : ParseTree} {n c : NodeId} (h : c ∈ t.children n) :
    t.parent? c = some n := by
  unfold children at h
  split at h
  · rename_i node hnode
    exact t.linked.parent_of_child hnode c h
  · simp at h

theorem mem_children_of_parent? {t : ParseTree} {n c : NodeId} (h : t.parent? c = some n) :
    c ∈ t.children n := by
  obtain ⟨node, hnode, hmem⟩ := t.linked.child_of_parent h
  simpa [children, node?, hnode] using hmem

theorem nodup_children (t : ParseTree) (n : NodeId) : (t.children n).Nodup := by
  unfold children
  split
  · rename_i node hnode
    refine (t.linked.ordered hnode).imp ?_
    intro a b hab heq
    exact Nat.lt_irrefl _ (heq ▸ hab)
  · exact List.nodup_nil

/-- The name of a file of the unit. -/
def fileName? (t : ParseTree) (file : UInt32) : Option String := t.fileNames[file.toNat]?

def childrenOfKind (t : ParseTree) (n : NodeId) (kind : NodeKind) : List NodeId :=
  (t.children n).filter fun c => t.kind c = kind

def childOfKind? (t : ParseTree) (n : NodeId) (kind : NodeKind) : Option NodeId :=
  (t.children n).find? fun c => t.kind c = kind

def hasKeyword (t : ParseTree) (n : NodeId) (keyword : Keyword) : Bool :=
  (t.childOfKind? n (.keyword keyword)).isSome

/-- The text of the first identifier below a node: the name of what the node defines. -/
def identifier? (t : ParseTree) (n : NodeId) : Option String :=
  (t.childOfKind? n .identifier).map t.text

/-- The name of what a node defines, empty if it has none. -/
def definedName (t : ParseTree) (n : NodeId) : String := (t.identifier? n).getD ""

/-- The nodes of a kind, in order of their numbers. -/
def findAll (t : ParseTree) (kind : NodeKind) : List NodeId :=
  t.nodes.ids.filter fun n => t.kind n = kind

/-- The first node of a kind with a given text. -/
def find? (t : ParseTree) (kind : NodeKind) (text : String) : Option NodeId :=
  t.nodes.ids.find? fun n => t.kind n = kind && Text.same (t.text n) text

/-- A child of node `n`. -/
abbrev Child (t : ParseTree) (n : NodeId) := { c : NodeId // c ∈ t.children n }

def childList (t : ParseTree) (n : NodeId) : List (t.Child n) := (t.children n).attach

theorem Child.size_sub_lt {t : ParseTree} {n : NodeId} (c : t.Child n) :
    t.size - c.val.val < t.size - n.val := by
  have := lt_of_mem_children c.property
  omega

end ParseTree

end AblResolve
