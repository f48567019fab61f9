import AblResolve.Walk.Lookup
import AblResolve.Walk.Plan
/-!
Entering the nodes that refer to records, fields, widgets and members of the class.
-/
namespace AblResolve.Walk

variable (env : Env) (n : NodeId)

/-- The name of the file a node is in. -/
def fileNameOf : String :=
  (env.tree.fileName? (env.tree.token n).file).getD "<unknown>"

/-- The binding that a record has under a qualifier. -/
def bindRecord (buffer : SymbolId) : Qualifier → WalkM (Option BufferScopeId)
  | .init | .ref | .refUp | .updating => some <$> bindReference buffer
  | .initWeak => some <$> bindWeakly buffer
  | _ => pure none

/-- The store of the table of a buffer. -/
def bufferStore (buffer : SymbolId) : WalkM Store := do
  match (← theIndex).bufferTable? buffer with
  | some table => return (← tableAt table).kind.store
  | none => breach .recordWithoutBuffer

/-- A record. One that names nothing ends the analysis. -/
def enterRecord : WalkM (Plan env.tree n) := do
  let q ← takeQualifier env n
  let name := env.tree.text n
  match ← findBuffer? env name (.ofQualifier q) with
  | none => throw (.unresolvedTable name (fileNameOf env n) (env.tree.location n))
  | some buffer =>
    let bufferScope ← bindRecord buffer q
    noteReference buffer q
    let store ← bufferStore buffer
    let abbreviated := isAbbreviatedTable (← theIndex) buffer name
    annotate n fun a => { a with
      symbol := some buffer
      qualifier := some q
      store := some store
      bufferScope
      abbreviated := a.abbreviated || abbreviated }
    modify fun w => { w with previousTable := w.lastTable, lastTable := some buffer }
    return .plain env.tree n

/-- Where the value of what a field stands for is stored. -/
def storeOf (symbol : SymbolId) : WalkM (Option Store) := do
  match (← symbolAt symbol).kind with
  | .variable _ | .widget _ | .browse _ | .event _ => return some .variable
  | .fieldBuffer f => some <$> bufferStore f.buffer
  | _ => return none

/-- Writes what was found on a field, and counts the use of it and of its buffer. -/
def annotateField (found : FieldLookup) (q : Qualifier) : WalkM Unit := do
  let store ← storeOf found.symbol
  let inTable := store.isSome && store != some .variable
  annotate n fun a => { a with
    symbol := some found.symbol
    qualifier := some q
    store
    bufferScope := found.bufferScope
    unqualified := a.unqualified || (found.unqualified && inTable)
    abbreviated := a.abbreviated || found.abbreviated }
  noteReference found.symbol q
  match (← symbolAt found.symbol).kind with
  | .fieldBuffer f => noteReference f.buffer q
  | _ => pure ()

def addUnresolved (name : String) : WalkM Unit := do
  let scope ← currentScope
  modifyIndex fun x => { x with unresolved := x.unresolved ++ [⟨n, name, scope⟩] }

/-- The lists in which a field may be named that the table does not have. -/
def isTolerant : Bool :=
  match (env.tree.parent? n).map env.tree.kind with
  | some .fieldsPhrase | some .exceptPhrase | some .usingPhrase => true
  | _ => false

/-- A field that the table it has to be in does not have. -/
def missingField (buffer : SymbolId) (name : String) : WalkM Unit := do
  if !isTolerant env n then
    report (.unresolvedField name (← symbolAt buffer).name (env.tree.location n))
    addUnresolved n name

/-- A variable that is defined where it is first used. -/
def defineInline : WalkM Unit := do
  let variable_ ← createSymbol (← currentScope) (some n) (env.tree.text n) (.variable {}) false
  attach variable_

/-- The buffer that a hint points to. -/
def hintedBuffer? : TableHint → WalkM (Option SymbolId)
  | .any => return none
  | .last => return (← get).lastTable
  | .previous => return (← get).previousTable

/-- Looks a field up and annotates it, or notes that it is unresolved. -/
def resolveField (q : Qualifier) (h : TableHint) : WalkM Unit := do
  let name := env.tree.text n
  match ← hintedBuffer? h with
  | some buffer =>
    match ← fieldOfBuffer? buffer name with
    | some found => annotateField n found q
    | none => missingField env n buffer name
  | none =>
    match ← lookupField? env name (q ≠ .symbol) with
    | some found => annotateField n found q
    | none => addUnresolved n name

/-- A field. With INPUT it means what a screen shows, and is not resolved. -/
def enterField : WalkM (Plan env.tree n) := do
  let q ← takeQualifier env n
  let h ← takeHint n
  if !env.tree.hasKeyword n .input then
    if env.tree.definesInline n then
      defineInline env n
    resolveField env n q h
  return .plain env.tree n

/-! ### Widgets and members -/

/-- The symbol that a widget name stands for, by the keyword beside it. An unknown buffer is
reported. -/
def widgetSymbol? : WalkM (Option SymbolId) := do
  let t := env.tree
  let name := t.text n
  let x ← theIndex
  let scope ← currentScope
  if t.hasKeyword n .buffer then
    match (x.resolve? scope .buffer name).or (x.findIn? UnitIndex.rootScope .table name) with
    | some buffer => return some buffer
    | none =>
      report (.unresolvedBuffer name (t.location n))
      return none
  else if t.hasKeyword n .frame then return x.resolve? scope (.widget .frame) name
  else if t.hasKeyword n .browse then return x.resolve? scope (.widget .browse) name
  else return none

def enterWidgetName : WalkM (Plan env.tree n) := do
  match ← widgetSymbol? env n with
  | some symbol =>
    noteReference symbol .symbol
    annotate n fun a => { a with symbol := some symbol }
  | none => pure ()
  return .done

/-- A variable of the class, named after the object or the class itself. -/
def referToMember (member : NodeId) (q : Qualifier) : WalkM Unit := do
  match (← theIndex).resolveVariable? (← currentScope) (env.tree.text member) with
  | some symbol =>
    noteReference symbol q
    annotate member fun a => { a with symbol := some symbol, qualifier := some q }
  | none => pure ()

/-- A node that names the object itself or the class that the unit defines. -/
def isSelfReference (x : UnitIndex) (target : NodeId) : Bool :=
  match env.tree.kind target with
  | .keyword .thisObject => true
  | .field =>
    match x.classShortName? with
    | some name => Text.same name (env.tree.text target)
    | none => false
  | _ => false

/-- The member named by a reference `object:member`. -/
def memberNode? : List (env.tree.Child n) → Option NodeId
  | m :: _ => if env.tree.kind m.val = .identifier then some m.val else none
  | [] => none

/-- A reference `object:member`. -/
def enterWidgetAttribute : WalkM (Plan env.tree n) := do
  let q ← takeQualifier env n
  match env.tree.childList n with
  | [] => return .done
  | target :: rest =>
    let steps := rest.map Step.plain
    if isSelfReference env (← theIndex) target.val then
      match memberNode? env n rest with
      | some member => referToMember env member q
      | none => pure ()
      return { steps }
    else return { steps := { child := target, qualifier := some .ref } :: steps }

end AblResolve.Walk
