import AblResolve.Walk.Symbols
import AblResolve.Walk.Plan
/-!
Entering routines, triggers, CATCH blocks and class headers.
-/
namespace AblResolve.Walk

variable (env : Env) (n : NodeId)

/-- All children, inside a scope that ends with the node. -/
def scopedPlan : Plan env.tree n :=
  .around (plainSteps env.tree n) [.leaveScope] [.leaveScope]

/-- A routine with a scope of its own. -/
def enterRoutine (name : String) (kind : RoutineKind) (scopeKind : ScopeKind) :
    WalkM (Plan env.tree n) := do
  let outer ← currentScope
  let body ← openScope scopeKind n
  let _ ← createRoutine outer n name { kind, body }
  return scopedPlan env n

/-- A routine known by name. -/
def enterNamedRoutine (kind : RoutineKind) (scopeKind : ScopeKind) : WalkM (Plan env.tree n) :=
  enterRoutine env n (env.tree.definedName n) kind scopeKind

/-- A function header lists parameters. -/
def listsParameters : Bool :=
  (env.tree.children n).any fun c =>
    match env.tree.kind c with
    | .functionParameter | .bufferParameter | .tableParameter => true
    | _ => false

/-- The FORWARD declaration waiting under a name, which does not wait any longer. -/
def takeForward (key : String) : WalkM (Option SymbolId) := do
  let forwards := (← get).forwards
  modify fun w => { w with forwards := forwards.filter (·.1 ≠ key) }
  return (forwards.find? (·.1 = key)).map (·.2)

/-- The body of a function that was declared FORWARD and lists no parameters: it continues in
the scope of the declaration. -/
def enterForwardBody (routine : SymbolId) : WalkM (Plan env.tree n) := do
  match (← symbolAt routine).asRoutine? with
  | none => breach .notRoutine
  | some r =>
    updateSymbol routine fun s => { s with definitionNode := some n }
    annotate n fun a => { a with symbol := some routine }
    enterScope r.body n
    return scopedPlan env n

/-- A function with a scope of its own. -/
def enterFreshFunction (forwardNode : Option NodeId) : WalkM (SymbolId × Plan env.tree n) := do
  let outer ← currentScope
  let body ← openScope .function n
  let routine ← createRoutine outer n (env.tree.definedName n)
    { kind := .function, body, forwardNode }
  return (routine, scopedPlan env n)

/-- A FUNCTION statement: a FORWARD declaration, the body of one, or a function of its own. -/
def enterFunction : WalkM (Plan env.tree n) := do
  let key := Text.fold (env.tree.definedName n)
  if env.tree.hasKeyword n .forwards then
    let (routine, plan) ← enterFreshFunction env n (some n)
    modify fun w => { w with forwards := (key, routine) :: w.forwards.filter (·.1 ≠ key) }
    return plan
  else
    match ← takeForward key with
    | some routine =>
      if listsParameters env n then
        let forwardNode := (← symbolAt routine).definitionNode
        return (← enterFreshFunction env n forwardNode).2
      else enterForwardBody env n routine
    | none => return (← enterFreshFunction env n none).2

/-- A trigger: a scope that belongs to no routine. -/
def enterTrigger : WalkM (Plan env.tree n) := do
  let _ ← openScope .trigger n
  return scopedPlan env n

/-- A CATCH block: its variable is complete after the first AS clause, or at the end of the
block if there is none. A record that names no table before that leaves the variable open, and
then a definition around the block cannot be closed. -/
def enterCatch : WalkM (Plan env.tree n) := do
  let _ ← openScope .catch n
  let variable_ ← define n (env.tree.definedName n) (.variable {})
  let complete := [Action.endDefinition variable_, .attach variable_]
  let clause := env.tree.childOfKind? n .asClause
  let steps := (env.tree.childList n).map fun c =>
    { child := c, after := if clause = some c.val then complete else [] : Step env.tree n }
  return .around steps [.leaveScope]
    (if clause.isSome then [.leaveScope] else complete ++ [.leaveScope])

/-- A class or interface header: the root scope becomes that of the class. -/
def enterClass (kind : ScopeKind) : WalkM (Plan env.tree n) := do
  let t := env.tree
  let name := ((t.childOfKind? n .typeName).map t.text).getD ""
  let typeInfo := env.types.find? name
  if typeInfo.isNone then
    report (.missingTypeInfo name (t.location n))
  updateScope UnitIndex.rootScope fun s => { s with kind, className := some name, typeInfo }
  annotate n fun a => { a with scope := some UnitIndex.rootScope }
  return .plain t n

end AblResolve.Walk
