import AblResolve.Diagnostic.Collection
import AblResolve.Index.Block
import AblResolve.Index.Scope
import AblResolve.Index.Table
import AblResolve.Text.Dotted
import AblResolve.Text.Match
/-!
The index of a unit: all that resolution found out about it, and the questions it answers. The
chains of enclosing scopes and blocks end because an enclosing scope or block is older than what
it encloses.
-/
namespace AblResolve

/-- A name that stands for nothing. -/
structure Unresolved where
  node : NodeId
  name : String
  /-- The scope from which it was looked up. -/
  scope : ScopeId
deriving Repr, DecidableEq, Inhabited

structure UnitIndex where
  scopes : Arena .scope Scope := {}
  blocks : Arena .block Block := {}
  bufferScopes : Arena .bufferScope BufferScope := {}
  symbols : Arena .symbol Symbol := {}
  tables : Arena .table Table := {}
  fields : Arena .field Field := {}
  indexes : Arena .index TableIndex := {}
  /-- The catalog tables in use, by their folded `database.table`. -/
  schemaTables : List (String × TableId) := []
  unresolved : List Unresolved := []
  /-- The nodes whose qualifier nothing determined. -/
  defaulted : List NodeId := []
  diagnostics : Diagnostics := {}
deriving Repr, DecidableEq, Inhabited

namespace UnitIndex

/-! ### Scopes -/

def rootScope : ScopeId := ⟨0⟩

def parentScope? (x : UnitIndex) (s : ScopeId) : Option ScopeId :=
  (x.scopes.get? s).bind (·.parent)

/-- A scope followed by the scopes around it, from the inside. -/
def scopeChain (x : UnitIndex) (s : ScopeId) : List ScopeId :=
  match x.parentScope? s with
  | some p => if p.val < s.val then s :: x.scopeChain p else [s]
  | none => [s]
termination_by s.val

def childScopes (x : UnitIndex) (s : ScopeId) : List ScopeId :=
  x.scopes.ids.filter fun c => x.parentScope? c = some s

/-- A name defined in one scope. -/
def findIn? (x : UnitIndex) (s : ScopeId) (space : Namespace) (name : String) :
    Option SymbolId :=
  (x.scopes.get? s).bind (·.find? space name)

/-- A name as seen from a scope: the definition in the innermost scope wins. -/
def resolve? (x : UnitIndex) (s : ScopeId) (space : Namespace) (name : String) :
    Option SymbolId :=
  (x.scopeChain s).findSome? fun s => x.findIn? s space name

def resolveVariable? (x : UnitIndex) (s : ScopeId) (name : String) : Option SymbolId :=
  x.resolve? s .variable name

def resolveRoutine? (x : UnitIndex) (s : ScopeId) (name : String) : Option SymbolId :=
  x.resolve? s .routine name

/-- The routine to which the code of a scope belongs. Triggers and CATCH blocks belong to the
routine around them. -/
def enclosingRoutine? (x : UnitIndex) (s : ScopeId) : Option SymbolId :=
  (x.scopeChain s).findSome? fun s => (x.scopes.get? s).bind (·.routine)

/-- The name of the class that the unit defines, without its package. -/
def classShortName? (x : UnitIndex) : Option String :=
  ((x.scopes.get? rootScope).bind (·.className)).map Text.lastSegment

/-- The buffers that can be seen from a scope, those of inner scopes first. -/
def visibleBuffers (x : UnitIndex) (s : ScopeId) : List SymbolId :=
  (x.scopeChain s).flatMap fun s =>
    match x.scopes.get? s with
    | some scope => scope.buffers
    | none => []

/-! ### Blocks -/

def parentBlock? (x : UnitIndex) (b : BlockId) : Option BlockId :=
  (x.blocks.get? b).bind (·.parent)

/-- A block followed by the blocks around it, from the inside. -/
def blockChain (x : UnitIndex) (b : BlockId) : List BlockId :=
  match x.parentBlock? b with
  | some p => if p.val < b.val then b :: x.blockChain p else [b]
  | none => [b]
termination_by b.val

/-- The bindings of buffers to a block. -/
def bufferScopesOf (x : UnitIndex) (b : BlockId) : List BufferScopeId :=
  match x.blocks.get? b with
  | some block => block.bufferScopes
  | none => []

def scopesBuffer (x : UnitIndex) (buffer : SymbolId) (id : BufferScopeId) : Bool :=
  match x.bufferScopes.get? id with
  | some scope => scope.buffer = buffer
  | none => false

/-- The bindings of buffers to a block and the blocks around it. -/
def enclosingBufferScopes (x : UnitIndex) (b : BlockId) : List BufferScopeId :=
  (x.blockChain b).flatMap x.bufferScopesOf

/-- The innermost binding of a buffer. -/
def enclosingBufferScope? (x : UnitIndex) (b : BlockId) (buffer : SymbolId) :
    Option BufferScopeId :=
  (x.enclosingBufferScopes b).find? (x.scopesBuffer buffer)

/-- The innermost block at which a free reference can bind a buffer. -/
def recordBlock? (x : UnitIndex) (b : BlockId) : Option BlockId :=
  (x.blockChain b).find? fun b =>
    match x.blocks.get? b with
    | some block => block.scopesRecords
    | none => false

/-! ### Symbols -/

/-- All symbols of a name, pending ones included. -/
def symbolsNamed (x : UnitIndex) (name : String) : List SymbolId :=
  x.symbols.ids.filter fun s =>
    match x.symbols.get? s with
    | some symbol => Text.same symbol.name name
    | none => false

/-- The type of a variable or field; other symbols have none and count as single values. -/
def typeOf (x : UnitIndex) (symbol : Symbol) : ValueType :=
  match symbol.kind with
  | .variable v => v.type
  | .fieldBuffer f =>
    match x.fields.get? f.field with
    | some field => field.type
    | none => {}
  | _ => {}

def valueType (x : UnitIndex) (s : SymbolId) : ValueType :=
  match x.symbols.get? s with
  | some symbol => x.typeOf symbol
  | none => {}

/-- The table of a buffer. -/
def bufferTable? (x : UnitIndex) (s : SymbolId) : Option TableId :=
  ((x.symbols.get? s).bind (·.asTableBuffer?)).map (·.table)

/-! ### Tables -/

/-- The table of a name that the unit defines. -/
def tempTable? (x : UnitIndex) (name : String) : Option TableId :=
  (x.findIn? rootScope .table name).bind x.bufferTable?

/-- The fields of a table by name. -/
def fieldCandidates (x : UnitIndex) (t : Table) : List (String × FieldId) :=
  t.fields.filterMap fun f => (x.fields.get? f).map fun field => (field.name, f)

/-- The field of a table that a name stands for. Names of catalog fields may be abbreviated. -/
def fieldNamed? (x : UnitIndex) (t : TableId) (name : String) : Option (Text.Match FieldId) :=
  (x.tables.get? t).bind fun table =>
    Text.matchName name (x.fieldCandidates table) (table.kind = .schema)

/-- The field of a buffer that a name stands for. -/
def bufferField? (x : UnitIndex) (buffer : SymbolId) (name : String) :
    Option (Text.Match FieldId) :=
  (x.bufferTable? buffer).bind (x.fieldNamed? · name)

/-- The first index of a table with a name. -/
def indexNamed? (x : UnitIndex) (t : TableId) (name : String) : Option IndexId :=
  (x.tables.get? t).bind fun table =>
    table.indexes.find? fun i =>
      match x.indexes.get? i with
      | some index => Text.same index.name name
      | none => false

def fieldName? (x : UnitIndex) (f : FieldId) : Option String :=
  (x.fields.get? f).map (·.name)

/-- The names of the fields of an index, in order. -/
def indexFieldNames (x : UnitIndex) (i : IndexId) : List String :=
  match x.indexes.get? i with
  | some index => index.fields.filterMap x.fieldName?
  | none => []

end UnitIndex

end AblResolve
