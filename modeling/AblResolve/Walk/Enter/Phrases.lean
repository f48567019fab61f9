import AblResolve.Walk.Plan
import AblResolve.Walk.Scoping
/-!
Entering blocks, and the phrases and statements whose only concern is how what is named in them
is used.
-/
namespace AblResolve.Walk

variable (env : Env) (n : NodeId)

/-! ### Blocks -/

def enterBlock (kind : BlockKind) (steps : List (Step env.tree n)) : WalkM (Plan env.tree n) := do
  openBlock kind n
  return .around steps [.leaveBlock] [.leaveBlock]

/-- The buffers that a DO FOR or REPEAT FOR names are bound to the block. -/
def blockForPlan : Plan env.tree n where
  steps := (env.tree.childList n).map fun c =>
    if env.tree.kind c.val = .record then
      { child := c, qualifier := some .bufferSymbol, after := [.bindStrongly c.val] }
    else .plain c

/-! ### Field lists -/

/-- A list of fields of the table referred to just before, if there is one. -/
def enterFieldList (q : Qualifier) : WalkM (Plan env.tree n) := do
  let hint := if (← get).lastTable.isSome then some TableHint.last else none
  return { steps := (env.tree.childList n).map fun c =>
    if env.tree.kind c.val = .field then { child := c, qualifier := some q, hint } else .plain c }

/-- USING reads its fields in BUFFER-COMPARE and BUFFER-COPY and only names them elsewhere. -/
def usingQualifier : Qualifier :=
  match (env.tree.parent? n).map env.tree.kind with
  | some .bufferCompare | some .bufferCopy => .ref
  | _ => .symbol

/-- Pairs of fields that relate two tables: the first of a pair belongs to the table referred to
before the last, the second to the last. -/
def relationSteps (t : ParseTree) (n : NodeId) : TableHint → List (t.Child n) → List (Step t n)
  | _, [] => []
  | h, c :: cs =>
    if t.kind c.val = .field then
      { child := c, qualifier := some .symbol, hint := some h } ::
        relationSteps t n (if h = .previous then .last else .previous) cs
    else .plain c :: relationSteps t n h cs

def relationPlan : Plan env.tree n where
  steps := relationSteps env.tree n .previous (env.tree.childList n)

/-! ### Statements and expressions -/

/-- Expressions and form items use their parts as they are used themselves. -/
def enterExpression : WalkM (Plan env.tree n) := do
  let q ← takeQualifier env n
  annotate n fun a => { a with qualifier := some q }
  return .qualified env.tree n q

/-- A record phrase is used as its record is; the expressions in it are read. -/
def enterRecordPhrase : WalkM (Plan env.tree n) := do
  let q ← takeQualifier env n
  return .qualifying env.tree n .record q

/-- Functions that write to their first argument. -/
def enterMemoryFunction : WalkM (Plan env.tree n) := do
  let q ← takeQualifier env n
  annotate n fun a => { a with qualifier := some q }
  return .operands env.tree n .updating .ref

/-- MESSAGE with SET or UPDATE reads and writes a field. -/
def messagePlan : Plan env.tree n :=
  if env.tree.hasKeyword n .set || env.tree.hasKeyword n .update then
    .qualifying env.tree n .field .refUp
  else .plain env.tree n

/-- How an argument of a call is used. -/
def argumentQualifier (t : ParseTree) (argument : NodeId) : Qualifier :=
  if t.hasKeyword argument .inputOutput then .refUp
  else if t.hasKeyword argument .output then .updating
  else .ref

/-- The mode of the argument that a handle is passed by. -/
def handleMode : Qualifier :=
  match env.tree.parent? n with
  | some parent =>
    if env.tree.kind parent = .runParameter then argumentQualifier env.tree parent else .ref
  | none => .ref

/-- A handle passed to a call is initialised by it; an output mode counts as a write, too. -/
def handlePlan : Plan env.tree n where
  steps := (env.tree.childList n).map fun c =>
    if env.tree.kind c.val = .field then
      { child := c, qualifier := some .init,
        after := if (handleMode env n).isWrite then [.countUse c.val (handleMode env n)] else [] }
    else .plain c

end AblResolve.Walk
