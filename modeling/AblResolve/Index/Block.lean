import AblResolve.Arena
/-!
Blocks and the buffers bound to them. Blocks follow the nesting of control; the block that
encloses the code of a scope lies in the block in which the scope was opened.
-/
namespace AblResolve

inductive BlockKind where
  /-- The block around the code of a scope. -/
  | root
  | do
  | for
  | repeat
deriving Repr, DecidableEq, Inhabited

/-- How firmly a buffer is bound to a block. -/
inductive Strength where
  /-- By a DO FOR or REPEAT FOR that names it. -/
  | strong
  /-- By a FOR EACH or PRESELECT. -/
  | weak
  /-- By a reference that no binding enclosed. -/
  | reference
deriving Repr, DecidableEq, Inhabited

structure BufferScope where
  block : BlockId
  buffer : SymbolId
  strength : Strength
deriving Repr, DecidableEq, Inhabited

structure Block where
  parent : Option BlockId
  scope : ScopeId
  kind : BlockKind
  node : NodeId
  bufferScopes : List BufferScopeId := []
  hasStrongScope : Bool := false
deriving Repr, DecidableEq, Inhabited

namespace Block

/-- Whether a free reference can bind a buffer here. A DO block takes such references only if
it names buffers of its own. -/
def scopesRecords (b : Block) : Bool :=
  match b.kind with
  | .root | .for | .repeat => true
  | .do => b.hasStrongScope

def addBufferScope (b : Block) (id : BufferScopeId) (strength : Strength) : Block :=
  { b with
    bufferScopes := b.bufferScopes ++ [id]
    hasStrongScope := b.hasStrongScope || strength = .strong }

end Block

end AblResolve
