import AblResolve.Text.Numeral
import AblResolve.Walk.Symbols
import AblResolve.Walk.Plan
/-!
Entering definitions of variables, parameters, properties, events, browses and widgets, and the
clauses that shape what is being defined.
-/
namespace AblResolve.Walk

variable (env : Env) (n : NodeId)

/-- Opens a definition; all children are read as parts of it. -/
def enterDefinition (kind : SymbolKind) (complete : SymbolId → List Action) :
    WalkM (Plan env.tree n) := do
  let symbol ← define n (env.tree.definedName n) kind
  return .around (plainSteps env.tree n) [.endDefinition symbol]
    (.endDefinition symbol :: complete symbol)

def enterVariable : WalkM (Plan env.tree n) :=
  enterDefinition env n (.variable {}) fun symbol => [.attach symbol]

def parameterMode : ParameterMode :=
  let t := env.tree
  if t.hasKeyword n .inputOutput then .inputOutput
  else if t.hasKeyword n .output then .output
  else if t.hasKeyword n .return then .return
  else if t.hasKeyword n .buffer then .buffer
  else .input

def enterParameter : WalkM (Plan env.tree n) :=
  enterDefinition env n (.variable { isParameter := true }) fun symbol =>
    [.addParameter symbol (parameterMode env n)]

/-- A property is complete before its first accessor, so that accessors can refer to it. -/
def enterProperty : WalkM (Plan env.tree n) := do
  let t := env.tree
  let property ← define n (t.definedName n) (.variable { isProperty := true })
  let complete := [Action.endDefinition property, .attach property]
  let (clauses, accessors) := (t.childList n).span fun c => t.kind c.val ≠ .propertyAccessor
  let clauseSteps := clauses.map fun c =>
    { child := c, onFailure := [.endDefinition property] : Step t n }
  match accessors with
  | [] => return { steps := clauseSteps, leave := complete }
  | first :: rest =>
    return { steps := clauseSteps ++
      { child := first, before := complete } :: rest.map Step.plain }

def enterEvent : WalkM (Plan env.tree n) := do
  let event ← define n (env.tree.definedName n) (.event [])
  let outer := (← get).openEvent
  modify fun w => { w with openEvent := some event }
  return .around (plainSteps env.tree n) [.closeEvent outer, .endDefinition event]
    [.closeEvent outer, .endDefinition event, .attach event]

/-- The fields that a browse displays: those in its DISPLAY lists, bare or as form items. -/
def browseColumns : List NodeId :=
  let t := env.tree
  (t.childrenOfKind n .browseDisplay).flatMap fun display =>
    (t.children display).filterMap fun item =>
      match t.kind item with
      | .field => some item
      | .formItem => t.childOfKind? item .field
      | _ => none

def enterBrowse : WalkM (Plan env.tree n) := do
  let query := ((env.tree.childrenOfKind n .identifier)[1]?).map env.tree.text
  enterDefinition env n (.browse { query }) fun browse =>
    [.setColumns browse (browseColumns env n), .attach browse]

/-- How a widget uses what its definition names: queries and datasets read records, frames only
mention their items. -/
def widgetQualifier? : WidgetKind → Option Qualifier
  | .query | .dataset => some .init
  | .frame => some .symbol
  | _ => none

def enterWidget (kind : WidgetKind) : WalkM (Plan env.tree n) := do
  let widget ← define n (env.tree.definedName n) (.widget kind)
  let steps :=
    match widgetQualifier? kind with
    | some q => qualifiedSteps env.tree n q
    | none => plainSteps env.tree n
  return .around steps [.endDefinition widget] [.endDefinition widget, .attach widget]

/-- The accumulator of an aggregate: a number without a name. -/
def enterAggregate : WalkM (Plan env.tree n) := do
  let symbol ← createSymbol (← currentScope) (some n) ""
    (.variable { type := { dataType := some .decimal } }) false
  attach symbol
  return .plain env.tree n

/-! ### Clauses -/

/-- The innermost open definition, without which a clause is misplaced. -/
def clauseTarget (m : Misplacement) : WalkM SymbolId := do
  match (← get).openDefinitions with
  | symbol :: _ => return symbol
  | [] => misplaced m

/-- The type that an AS or RETURNS clause names: a data type, or a class by its name. -/
def clauseType? : Option (DataType × Option String) :=
  (env.tree.children n).findSome? fun c =>
    match env.tree.kind c with
    | .datatype type => some (type, none)
    | .typeName => some (.classRef, some (env.tree.text c))
    | _ => none

def enterAs : WalkM (Plan env.tree n) := do
  let symbol ← clauseTarget .asClause
  match clauseType? env n with
  | some (type, className) => setDataType symbol type className
  | none => pure ()
  return .done

def enterReturns : WalkM (Plan env.tree n) := do
  match clauseType? env n with
  | some (type, className) =>
    updateRoutine (← currentRoutine) fun r =>
      { r with returnType := some type, returnClass := className }
  | none => pure ()
  return .done

/-- A LIKE clause. What is being defined is not yet attached, so `x LIKE x` refers to an outer
`x`. -/
def enterLike : WalkM (Plan env.tree n) := do
  let target ← clauseTarget .likeClause
  match env.tree.childOfKind? n .field with
  | some source =>
    return {
      steps := onlySteps env.tree n .field .symbol
      leave := [.copyType source target] }
  | none => return .plain env.tree n

/-- The dimension an EXTENT clause gives: its number, or one left open. -/
def clauseExtent : Extent :=
  match (env.tree.childOfKind? n .literal).bind fun c => Text.numeralValue? (env.tree.text c) with
  | some size => .fixed size
  | none => .indeterminate

def enterExtent : WalkM (Plan env.tree n) := do
  setExtent (← clauseTarget .extentClause) (clauseExtent env n)
  return .plain env.tree n

end AblResolve.Walk
