import AblResolve.Tree.Basic
/-!
Trees written down as nested outlines. The nodes of an outline are numbered in the order in
which they are written. A word given by its text alone is put on a line of its own, one below
the other, so that every such node has a place that no other has.
-/
namespace AblResolve

/-- The token of an outline node: a text on the next free line, or a token as it is. -/
inductive OutlineWord where
  | text (text : String)
  | token (token : Token)

inductive Outline where
  | node (kind : NodeKind) (word : OutlineWord) (definesInline : Bool) (children : List Outline)

namespace Outline

/-- A tree under construction and the next free line. -/
structure Draft where
  tree : ParseTree
  nextLine : UInt32 := 1

/-- The token for a word, and the next free line after it. -/
def OutlineWord.place : OutlineWord → UInt32 → Except PlaceError (Token × UInt32)
  | .text text, line => do
    let token ← Token.read text 0 line 1
    return (token, ← advance line 1)
  | .token token, line => return (token, line)

mutual

/-- The draft with an outline added below `parent`. Drafts only grow. -/
def addTo (parent : NodeId) (d : Draft) (h : parent.val < d.tree.size) :
    Outline → Except PlaceError { d' : Draft // d.tree.size ≤ d'.tree.size }
  | .node kind word definesInline children => do
    let (token, nextLine) ← OutlineWord.place word d.nextLine
    let tree := d.tree.addChild parent h kind token definesInline
    have hsize : tree.size = d.tree.size + 1 := by simp [tree]
    let ⟨d', h'⟩ ← addAllTo d.tree.nodes.next ⟨tree, nextLine⟩ (hsize ▸ Nat.lt_succ_self _) children
    return ⟨d', by simp only [hsize] at h'; omega⟩

/-- The draft with outlines added below `parent`, one after the other. -/
def addAllTo (parent : NodeId) (d : Draft) (h : parent.val < d.tree.size) :
    List Outline → Except PlaceError { d' : Draft // d.tree.size ≤ d'.tree.size }
  | [] => return ⟨d, Nat.le_refl _⟩
  | o :: rest => do
    let ⟨d₁, h₁⟩ ← addTo parent d h o
    let ⟨d₂, h₂⟩ ← addAllTo parent d₁ (Nat.lt_of_lt_of_le h h₁) rest
    return ⟨d₂, Nat.le_trans h₁ h₂⟩

end

end Outline

/-- The tree of one file with these outlines below its root. -/
def ParseTree.ofOutlines (rootKind : NodeKind) (fileName : String) (outlines : List Outline) :
    Except PlaceError ParseTree := do
  let start := ParseTree.ofRoot rootKind (Token.made "") [fileName]
  let draft ← Outline.addAllTo ParseTree.root ⟨start, 1⟩ start.nonempty outlines
  return draft.val.tree

end AblResolve
