import AblResolve.Walk.State
/-!
Opening and closing scopes and blocks, and binding buffers to blocks.
-/
namespace AblResolve.Walk

def currentScope : WalkM ScopeId := do
  match (← get).scopeStack with
  | scope :: _ => return scope
  | [] => breach .noScope

def currentBlock : WalkM BlockId := do
  match (← get).blockStack with
  | block :: _ => return block
  | [] => breach .noBlock

/-- The routine to which the code being read belongs. -/
def currentRoutine : WalkM SymbolId := do
  match (← theIndex).enclosingRoutine? (← currentScope) with
  | some routine => return routine
  | none => breach .noRoutine

/-- Makes a scope and the block around its code the current ones. -/
def enterScope (scope : ScopeId) (n : NodeId) : WalkM Unit := do
  let block := (← scopeAt scope).rootBlock
  modify fun w => { w with
    scopeStack := scope :: w.scopeStack
    blockStack := block :: w.blockStack }
  annotate n fun a => { a with scope := some scope, block := some block }

/-- Opens a new scope inside the current one. -/
def openScope (kind : ScopeKind) (n : NodeId) : WalkM ScopeId := do
  let parent ← currentScope
  let parentBlock ← currentBlock
  let x ← theIndex
  let scope := x.scopes.next
  let block := x.blocks.next
  modifyIndex fun x => { x with
    scopes := x.scopes.push { parent := some parent, kind, node := n, rootBlock := block }
    blocks := x.blocks.push { parent := some parentBlock, scope, kind := .root, node := n } }
  enterScope scope n
  return scope

/-- Leaves the current scope, which is not the root, from the block around its code. -/
def leaveScope : WalkM Unit := do
  match (← get).scopeStack, (← get).blockStack with
  | scope :: scopes, block :: blocks =>
    modify fun w => { w with scopeStack := scopes, blockStack := blocks }
    let around := (← scopeAt scope).rootBlock
    demand (block = around) (.blockLeftOpen block around)
    demand (!scopes.isEmpty) .rootScopeLeft
  | [], _ => breach .noScope
  | _ :: _, [] => breach .noBlock

/-- Opens a new block inside the current one, which lies in the current scope. -/
def openBlock (kind : BlockKind) (n : NodeId) : WalkM Unit := do
  let parent ← currentBlock
  let scope ← currentScope
  let around := (← scopeAt scope).rootBlock
  demand (around ∈ (← theIndex).blockChain parent) .blockOutsideScope
  let block := (← theIndex).blocks.next
  modifyIndex fun x => { x with
    blocks := x.blocks.push { parent := some parent, scope, kind, node := n } }
  modify fun w => { w with blockStack := block :: w.blockStack }
  annotate n fun a => { a with block := some block }

/-- Leaves the current block, which is a control block. -/
def leaveBlock : WalkM Unit := do
  match (← get).blockStack with
  | block :: blocks =>
    modify fun w => { w with blockStack := blocks }
    demand ((← blockAt block).kind ≠ .root) .rootBlockLeft
  | [] => breach .noBlock

/-- Binds a buffer to a block. -/
def addBufferScope (block : BlockId) (buffer : SymbolId) (strength : Strength) :
    WalkM BufferScopeId := do
  let id := (← theIndex).bufferScopes.next
  modifyIndex fun x => { x with bufferScopes := x.bufferScopes.push ⟨block, buffer, strength⟩ }
  updateBlock block (·.addBufferScope id strength)
  return id

/-- The binding that a reference to a buffer uses: the innermost there is, or else a new one at
the innermost block that takes free references. -/
def bindReference (buffer : SymbolId) : WalkM BufferScopeId := do
  let block ← currentBlock
  let x ← theIndex
  match x.enclosingBufferScope? block buffer with
  | some id => return id
  | none =>
    match x.recordBlock? block with
    | some target => addBufferScope target buffer .reference
    | none => breach .noRecordBlock

/-- The binding of a buffer to the current block, a weak one if there is none. -/
def bindWeakly (buffer : SymbolId) : WalkM BufferScopeId := do
  let block ← currentBlock
  let x ← theIndex
  match (x.bufferScopesOf block).find? (x.scopesBuffer buffer) with
  | some id => return id
  | none => addBufferScope block buffer .weak

end AblResolve.Walk
