import AblResolve.Walk.Enter
import AblResolve.Walk.Perform
/-!
Visiting the nodes of a tree, each before the nodes below it. The walk ends because children
have larger numbers than their parents.
-/
namespace AblResolve.Walk

/-- Tells a child how it is used and where its name is looked up. -/
def prepare (env : Env) {n : NodeId} (step : Step env.tree n) : WalkM Unit := do
  match step.qualifier with
  | some q => qualify env step.child.val q
  | none => pure ()
  match step.hint with
  | some h => hint step.child.val h
  | none => pure ()

/-- One step of a plan, around the visit of its child. If a record in the child names no table,
what the plan had opened is closed before the walk ends; a breach met in closing takes the place
of the fault. -/
def Step.run (env : Env) {n : NodeId} (step : Step env.tree n) (visitChild : WalkM Unit) :
    WalkM Unit := do
  prepare env step
  performAll env step.before
  tryCatch visitChild fun fault => do
    if fault.isUnresolvedTable then
      performAll env step.onFailure
    throw fault
  performAll env step.after

/-- Visits a node and what its plan takes from below it. -/
def visit (env : Env) (n : NodeId) : WalkM Unit := do
  let plan ← enter env n
  plan.steps.forM fun step => step.run env (visit env step.child.val)
  performAll env plan.leave
termination_by env.tree.size - n.val
decreasing_by exact step.child.size_sub_lt

/-- The state before the first visit: the root scope with its block, and the routine that the
unit itself is. -/
def start (env : Env) (notes : Annotations) : Walk where
  index := {
    scopes := ⟨#[{
      parent := none
      kind := .program
      node := ParseTree.root
      rootBlock := ⟨0⟩
      routine := some ⟨0⟩ }]⟩
    blocks := ⟨#[{ parent := none, scope := ⟨0⟩, kind := .root, node := ParseTree.root }]⟩
    symbols := ⟨#[{
      name := (env.tree.fileName? 0).getD ""
      scope := ⟨0⟩
      definitionNode := some ParseTree.root
      attached := true
      kind := .routine { kind := .program, body := ⟨0⟩ } }]⟩ }
  notes := notes.update ParseTree.root fun a =>
    { a with scope := some ⟨0⟩, block := some ⟨0⟩, symbol := some ⟨0⟩ }
  scopeStack := [⟨0⟩]
  blockStack := [⟨0⟩]

/-- Visits everything below the root. -/
def visitUnit (env : Env) : WalkM Unit :=
  (env.tree.children ParseTree.root).forM (visit env)

/-- Checks that everything that was opened has been closed, and that every qualifier has been
taken by its node. -/
def checkClosed : WalkM Unit := do
  let w ← get
  demand (w.scopeStack.length = 1) (.scopesOpen w.scopeStack.length)
  demand (w.blockStack.length = 1) (.blocksOpen w.blockStack.length)
  demand w.openDefinitions.isEmpty .definitionOpen
  demand (w.qualifiers.size = 0) .qualifierLeft

/-- The walk over a unit. -/
def walkUnit (env : Env) : WalkM Unit := do
  visitUnit env
  checkClosed

end AblResolve.Walk
