import AblResolve.Walk.Plan
import AblResolve.Walk.TableDefinition
/-!
Doing the actions of a plan.
-/
namespace AblResolve.Walk

variable (env : Env)

/-- The buffer that a record below the current node was found to stand for. -/
def recordBuffer (record : NodeId) : WalkM SymbolId := do
  match (← annotation record).symbol with
  | some buffer => return buffer
  | none => breach .recordWithoutBuffer

def bufferTable (buffer : SymbolId) : WalkM TableId := do
  match (← theIndex).bufferTable? buffer with
  | some table => return table
  | none => breach .recordWithoutBuffer

/-- LIKE: the type of what the field stands for. A field that stands for nothing is reported. -/
def copyFieldType (field : NodeId) (target : SymbolId) : WalkM Unit := do
  match (← annotation field).symbol with
  | some source => copyType source target
  | none => report (.unresolvedLikeSource (env.tree.text field) (env.tree.location field))

def setColumns (browse : SymbolId) (columns : List NodeId) : WalkM Unit := do
  let notes := (← get).notes
  let symbols := columns.filterMap fun c => (notes.get c).symbol
  updateSymbol browse fun s =>
    match s.kind with
    | .browse b => { s with kind := .browse { b with columns := symbols } }
    | _ => s

/-- A new named buffer for the table of a record. -/
def createBuffer (definition : NodeId) (record : Option NodeId) : WalkM SymbolId := do
  match record with
  | none => misplaced .bufferWithoutTable
  | some record =>
    let table ← bufferTable (← recordBuffer record)
    createSymbol (← currentScope) (some definition) (env.tree.definedName definition)
      (.tableBuffer { table, isDefault := false }) false

/-- A buffer parameter can be used at once and is bound to the code of its scope. -/
def addBufferParameter (definition : NodeId) (record : Option NodeId) : WalkM Unit := do
  let buffer ← createBuffer env definition record
  addParameter buffer .buffer true
  let block := (← scopeAt (← currentScope)).rootBlock
  let _ ← addBufferScope block buffer .reference

def bindStrongly (record : NodeId) : WalkM Unit := do
  let buffer ← recordBuffer record
  let id ← addBufferScope (← currentBlock) buffer .strong
  annotate record fun a => { a with bufferScope := some id }

/-- A further use of what a field stands for, if it stands for anything. -/
def countUse (field : NodeId) (q : Qualifier) : WalkM Unit := do
  match (← annotation field).symbol with
  | some symbol => noteReference symbol q
  | none => pure ()

/-- Makes the buffer of a record a parameter; names lead to it already. -/
def addTableParameter (record : NodeId) (mode : ParameterMode) : WalkM Unit := do
  let buffer ← recordBuffer record
  demand (← symbolAt buffer).attached .pendingTableBuffer
  addParameter buffer mode false

def perform : Action → WalkM Unit
  | .leaveScope => leaveScope
  | .leaveBlock => leaveBlock
  | .endDefinition symbol => endDefinition symbol
  | .attach symbol => attach symbol
  | .addParameter symbol mode => addParameter symbol mode true
  | .closeEvent outer => modify fun w => { w with openEvent := outer }
  | .copyType field target => copyFieldType env field target
  | .setColumns browse columns => setColumns browse columns
  | .copyFields record => do copyFields (← bufferTable (← recordBuffer record))
  | .joinField field symbol => joinField field symbol
  | .closeTable buffer => do
    let definition ← takeOpenTable
    endDefinition buffer
    finishTable env definition
  | .abandonTable buffer => do
    let _ ← takeOpenTable
    endDefinition buffer
  | .defineBuffer definition record => do attach (← createBuffer env definition record)
  | .addBufferParameter definition record => addBufferParameter env definition record
  | .addTableParameter record mode => addTableParameter record mode
  | .bindStrongly record => bindStrongly record
  | .countUse field q => countUse field q

def performAll (actions : List Action) : WalkM Unit := actions.forM (perform env)

end AblResolve.Walk
