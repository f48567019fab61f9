import AblResolve.Walk.Scoping
/-!
Defining symbols. A symbol is created first, its clauses are read while it is the innermost open
definition, and only then it is attached: from that moment names lead to it.
-/
namespace AblResolve.Walk

/-- A new symbol in a scope. A node that defines it is annotated with it. -/
def createSymbol (scope : ScopeId) (n : Option NodeId) (name : String) (kind : SymbolKind)
    (attached : Bool) : WalkM SymbolId := do
  let symbol := (← theIndex).symbols.next
  modifyIndex fun x => { x with
    symbols := x.symbols.push { name, scope, definitionNode := n, attached, kind } }
  match n with
  | some n => annotate n fun a => { a with symbol := some symbol }
  | none => pure ()
  return symbol

def beginDefinition (symbol : SymbolId) : WalkM Unit :=
  modify fun w => { w with openDefinitions := symbol :: w.openDefinitions }

/-- Closes the definition of a symbol, which has to be the innermost open one. -/
def endDefinition (symbol : SymbolId) : WalkM Unit := do
  match (← get).openDefinitions with
  | innermost :: outer =>
    if innermost = symbol then modify fun w => { w with openDefinitions := outer }
    else breach (.definitionOrder (some innermost) symbol)
  | [] => breach (.definitionOrder none symbol)

/-- Creates a symbol in the current scope and opens its definition. -/
def define (n : NodeId) (name : String) (kind : SymbolKind) : WalkM SymbolId := do
  let symbol ← createSymbol (← currentScope) (some n) name kind false
  beginDefinition symbol
  return symbol

/-- The namespace in which names lead to a symbol. -/
def namespaceOf : SymbolKind → WalkM Namespace
  | .variable _ => pure .variable
  | .routine _ => pure .routine
  | .tableBuffer b => pure (if b.isDefault then .table else .buffer)
  | .event _ => pure .event
  | .browse _ => pure (.widget .browse)
  | .widget kind => pure (.widget kind)
  | .fieldBuffer _ => breach .attachedFieldBuffer

/-- Lets the name of a symbol lead to it. A symbol without a name stays out of reach. -/
def attach (symbol : SymbolId) : WalkM Unit := do
  let entry ← symbolAt symbol
  updateSymbol symbol fun s => { s with attached := true }
  if entry.name != "" then
    let space ← namespaceOf entry.kind
    updateScope entry.scope fun s => { s with names := (s.names.insert space entry.name symbol).2 }

def noteReference (symbol : SymbolId) (q : Qualifier) : WalkM Unit :=
  updateSymbol symbol (·.noteReference q)

/-! ### Types -/

/-- Gives a variable or field its type; other symbols take none. -/
def updateType (symbol : SymbolId) (f : ValueType → ValueType) : WalkM Unit := do
  match (← symbolAt symbol).kind with
  | .variable v =>
    updateSymbol symbol fun s => { s with kind := .variable { v with type := f v.type } }
  | .fieldBuffer b => updateField b.field fun field => { field with type := f field.type }
  | _ => pure ()

def setDataType (symbol : SymbolId) (type : DataType) (className : Option String) :
    WalkM Unit :=
  updateType symbol fun t => { t with dataType := some type, className }

def setExtent (symbol : SymbolId) (extent : Extent) : WalkM Unit :=
  updateType symbol fun t => { t with extent }

/-- Type and dimension as those of another symbol. A source without a type leaves the type as
it is. -/
def copyType (source target : SymbolId) : WalkM Unit := do
  let type := (← theIndex).typeOf (← symbolAt source)
  match type.dataType with
  | some dataType => setDataType target dataType type.className
  | none => pure ()
  setExtent target type.extent

/-! ### Routines and parameters -/

/-- The symbol of the routine whose body is `body`, attached to the scope it is defined in. -/
def createRoutine (scope : ScopeId) (n : NodeId) (name : String) (routine : Routine) :
    WalkM SymbolId := do
  let symbol ← createSymbol scope (some n) name (.routine routine) false
  updateScope routine.body fun s => { s with routine := some symbol }
  attach symbol
  return symbol

def updateRoutine (symbol : SymbolId) (f : Routine → Routine) : WalkM Unit :=
  updateSymbol symbol fun s =>
    match s.kind with
    | .routine r => { s with kind := .routine (f r) }
    | _ => s

/-- Adds a parameter to the event whose signature is being read, or else to the routine whose
code is being read. Names never lead to the parameters of events. -/
def addParameter (symbol : SymbolId) (mode : ParameterMode) (attaching : Bool) : WalkM Unit := do
  match (← get).openEvent with
  | some event =>
    updateSymbol event fun s =>
      match s.kind with
      | .event parameters => { s with kind := .event (parameters ++ [symbol]) }
      | _ => s
  | none =>
    if attaching then attach symbol
    updateRoutine (← currentRoutine) fun r =>
      { r with parameters := r.parameters ++ [(symbol, mode)] }

end AblResolve.Walk
