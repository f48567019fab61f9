import AblResolve.Walk.Enter.Definitions
import AblResolve.Walk.TableDefinition
/-!
Entering definitions of tables and buffers, and the clauses of table definitions.
-/
namespace AblResolve.Walk

variable (env : Env) (n : NodeId)

def enterTable (kind : TableKind) : WalkM (Plan env.tree n) := do
  let buffer ← beginTable n (env.tree.definedName n) kind
  return .around (plainSteps env.tree n) [.abandonTable buffer] [.closeTable buffer]

/-- LIKE with the record whose table is copied. -/
def enterTableLike : WalkM (Plan env.tree n) := do
  match env.tree.childOfKind? n .record with
  | some record =>
    return {
      steps := onlySteps env.tree n .record .symbol
      leave := [.copyFields record] }
  | none => return .plain env.tree n

def enterUseIndex : WalkM (Plan env.tree n) := do
  updateOpenTable fun d => { d with useIndex := d.useIndex ++ [(env.tree.definedName n, n)] }
  return .done

def enterTableField : WalkM (Plan env.tree n) := do
  let (field, symbol) ← beginField n (env.tree.definedName n)
  return .around (plainSteps env.tree n) [.joinField field symbol] [.joinField field symbol]

def enterTableIndex : WalkM (Plan env.tree n) := do
  addIndex env n
  return .done

/-- The children of a buffer definition; the first record names the table. -/
def bufferSteps : List (Step env.tree n) :=
  firstSteps env.tree n .record
    (if env.tree.hasKeyword n .tempTable then .tempTableSymbol else .symbol)

def enterBuffer : WalkM (Plan env.tree n) :=
  return {
    steps := bufferSteps env n
    leave := [.defineBuffer n (env.tree.childOfKind? n .record)] }

def enterBufferParameter : WalkM (Plan env.tree n) :=
  return {
    steps := bufferSteps env n
    leave := [.addBufferParameter n (env.tree.childOfKind? n .record)] }

/-- A temp-table as a parameter, if a record names it. -/
def enterTableParameter : WalkM (Plan env.tree n) :=
  return {
    steps := firstSteps env.tree n .record .tempTableSymbol
    leave :=
      match env.tree.childOfKind? n .record with
      | some record => [.addTableParameter record (parameterMode env n)]
      | none => [] }

end AblResolve.Walk
