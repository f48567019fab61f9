import AblResolve.Index.Loading
import AblResolve.Walk.Symbols
/-!
Finding what the names of records and fields stand for.
-/
namespace AblResolve.Walk

/-! ### Buffers -/

/-- Where the name of a record is looked up. -/
inductive RecordLookup where
  /-- Among named buffers, then the tables of the unit, then those of the catalog. -/
  | buffer
  | tempTable
  | schemaTable
deriving Repr, DecidableEq

def RecordLookup.ofQualifier : Qualifier → RecordLookup
  | .tempTableSymbol => .tempTable
  | .schemaTableSymbol => .schemaTable
  | _ => .buffer

def namedBuffer? (name : String) : WalkM (Option SymbolId) := do
  return (← theIndex).resolve? (← currentScope) .buffer name

/-- The default buffer of a table of the unit. -/
def tempTableBuffer? (name : String) : WalkM (Option SymbolId) := do
  return (← theIndex).findIn? UnitIndex.rootScope .table name

/-- A catalog table, loaded into the index if it is not there. -/
def schemaTable (e : Catalog.Entry) : WalkM TableId := do
  let x ← theIndex
  match x.schemaTable? e with
  | some table => return table
  | none =>
    modifyIndex (·.loadTable e)
    return x.tables.next

/-- The default buffer of a catalog table; the root scope owns it. -/
def defaultBuffer (table : TableId) : WalkM SymbolId := do
  let root ← scopeAt UnitIndex.rootScope
  match root.unnamedBuffer? table with
  | some buffer => return buffer
  | none =>
    let name := (← tableAt table).name
    let buffer ← createSymbol UnitIndex.rootScope none name
      (.tableBuffer { table, isDefault := true }) true
    updateScope UnitIndex.rootScope fun s =>
      { s with unnamedBuffers := s.unnamedBuffers ++ [(table, buffer)] }
    return buffer

def schemaBuffer? (env : Env) (name : String) : WalkM (Option SymbolId) := do
  match env.catalog.table? name with
  | some e => return some (← defaultBuffer (← schemaTable e))
  | none => return none

/-- The buffer that the name of a record stands for. -/
def findBuffer? (env : Env) (name : String) : RecordLookup → WalkM (Option SymbolId)
  | .buffer => do
    match ← namedBuffer? name with
    | some buffer => return some buffer
    | none =>
      match ← tempTableBuffer? name with
      | some buffer => return some buffer
      | none => schemaBuffer? env name
  | .tempTable => tempTableBuffer? name
  | .schemaTable => schemaBuffer? env name

/-- Whether a name for the default buffer of a catalog table is shorter than the table's. -/
def isAbbreviatedTable (x : UnitIndex) (buffer : SymbolId) (name : String) : Bool :=
  match (x.symbols.get? buffer).bind (·.asTableBuffer?) with
  | some b =>
    match x.tables.get? b.table with
    | some table =>
      b.isDefault && table.kind = .schema &&
        decide ((Text.lastSegment name).utf8ByteSize < table.name.utf8ByteSize)
    | none => false
  | none => false

/-! ### Fields -/

/-- The symbol through which a buffer reaches a field, created when it is first needed. -/
def fieldBuffer (buffer : SymbolId) (field : FieldId) : WalkM SymbolId := do
  let owner ← symbolAt buffer
  match owner.asTableBuffer? with
  | none => breach .notTableBuffer
  | some b =>
    match b.field? field with
    | some symbol => return symbol
    | none =>
      let name := (← fieldAt field).name
      let symbol ← createSymbol owner.scope none name (.fieldBuffer ⟨buffer, field⟩) true
      updateSymbol buffer fun s =>
        { s with kind := .tableBuffer { b with fields := b.fields ++ [(field, symbol)] } }
      return symbol

/-- What the name of a field stands for. -/
structure FieldLookup where
  symbol : SymbolId
  bufferScope : Option BufferScopeId := none
  unqualified : Bool := false
  abbreviated : Bool := false
deriving Repr, DecidableEq

/-- A name as a field of one buffer; what stands before its last dot is ignored. -/
def fieldOfBuffer? (buffer : SymbolId) (name : String) : WalkM (Option FieldLookup) := do
  match (← theIndex).bufferField? buffer (Text.lastSegment name) with
  | some found =>
    return some {
      symbol := ← fieldBuffer buffer found.item
      unqualified := (Text.splitLast? name).isNone
      abbreviated := found.abbreviated }
  | none => return none

/-- A name with a dot: a field of the buffer named before its last dot. -/
def lookupQualified? (env : Env) (bufferName fieldName : String) (binding : Bool) :
    WalkM (Option FieldLookup) := do
  match ← findBuffer? env bufferName .buffer with
  | none => return none
  | some buffer =>
    match (← theIndex).bufferField? buffer fieldName with
    | none => return none
    | some found =>
      let bufferScope ← if binding then some <$> bindReference buffer else pure none
      let symbol ← fieldBuffer buffer found.item
      return some {
        symbol
        bufferScope
        abbreviated := found.abbreviated || isAbbreviatedTable (← theIndex) buffer bufferName }

/-- A variable, a widget that can stand for a field, or an event. -/
def plainSymbol? (x : UnitIndex) (scope : ScopeId) (name : String) : Option SymbolId :=
  (x.resolveVariable? scope name).or <|
    (WidgetKind.fieldLevel.findSome? fun kind => x.resolve? scope (.widget kind) name).or <|
      x.resolve? scope .event name

/-- The innermost bound buffer that has a field of this name. -/
def boundField? (x : UnitIndex) (block : BlockId) (name : String) :
    Option (SymbolId × Text.Match FieldId × BufferScopeId) :=
  (x.enclosingBufferScopes block).findSome? fun id =>
    (x.bufferScopes.get? id).bind fun scope =>
      (x.bufferField? scope.buffer name).map fun found => (scope.buffer, found, id)

/-- The first visible buffer that has a field of this name. -/
def visibleField? (x : UnitIndex) (scope : ScopeId) (name : String) :
    Option (SymbolId × Text.Match FieldId) :=
  (x.visibleBuffers scope).findSome? fun buffer =>
    (x.bufferField? buffer name).map fun found => (buffer, found)

/-- A name without a dot: a variable, widget or event, a field of a buffer bound to an enclosing
block, or a field of a visible buffer. -/
def lookupBare? (name : String) (binding : Bool) : WalkM (Option FieldLookup) := do
  let x ← theIndex
  let scope ← currentScope
  match plainSymbol? x scope name with
  | some symbol => return some { symbol }
  | none =>
    match boundField? x (← currentBlock) name with
    | some (buffer, found, id) =>
      return some {
        symbol := ← fieldBuffer buffer found.item
        bufferScope := if binding then some id else none
        unqualified := true
        abbreviated := found.abbreviated }
    | none =>
      match visibleField? x scope name with
      | some (buffer, found) =>
        let bufferScope ← if binding then some <$> bindReference buffer else pure none
        return some {
          symbol := ← fieldBuffer buffer found.item
          bufferScope
          unqualified := true
          abbreviated := found.abbreviated }
      | none => return none

/-- What the name of a field stands for, as seen from the current scope and block. With
`binding`, the buffer of the field is bound to a block. -/
def lookupField? (env : Env) (name : String) (binding : Bool) : WalkM (Option FieldLookup) :=
  match Text.splitLast? name with
  | some (bufferName, fieldName) => lookupQualified? env bufferName fieldName binding
  | none => lookupBare? name binding

end AblResolve.Walk
