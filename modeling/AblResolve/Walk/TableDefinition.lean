import AblResolve.Walk.Lookup
/-!
Definitions of temp-tables and work-tables. Fields are added as their clauses are read. The
fields of indexes, and the indexes taken over from the table of a LIKE clause, are looked up
when the definition ends and all fields are known; then the table is frozen.
-/
namespace AblResolve.Walk

/-- The table definition being read; without one, a table clause is misplaced. -/
def openTable : WalkM TableDefinition := do
  match (← get).tableDefinition with
  | some definition => return definition
  | none => misplaced .tableClause

def updateOpenTable (f : TableDefinition → TableDefinition) : WalkM Unit := do
  let definition ← openTable
  modify fun w => { w with tableDefinition := some (f definition) }

/-- The table definition being read, which ends with this. -/
def takeOpenTable : WalkM TableDefinition := do
  match (← get).tableDefinition with
  | some definition =>
    modify fun w => { w with tableDefinition := none }
    return definition
  | none => breach .noTableDefinition

/-- Begins a table definition. The table belongs to the whole unit: its default buffer is
attached to the root scope at once. -/
def beginTable (n : NodeId) (name : String) (kind : TableKind) : WalkM SymbolId := do
  if (← get).tableDefinition.isSome then
    misplaced .nestedTable
  let table := (← theIndex).tables.next
  modifyIndex fun x => { x with tables := x.tables.push { name, kind, definitionNode := some n } }
  let buffer ← createSymbol UnitIndex.rootScope (some n) name
    (.tableBuffer { table, isDefault := true }) false
  attach buffer
  beginDefinition buffer
  modify fun w => { w with tableDefinition := some { table, buffer } }
  return buffer

/-- Adds fields to a table that is not frozen. -/
def appendFields (t : TableId) (fields : List FieldId) : WalkM Unit := do
  let table ← tableAt t
  if table.frozen then
    breach (.frozenTable table.name)
  updateTable t fun table => { table with fields := table.fields ++ fields }

/-- A new index of a table that is not frozen. -/
def appendIndex (index : TableIndex) : WalkM IndexId := do
  let table ← tableAt index.table
  if table.frozen then
    breach (.frozenTable table.name)
  let id := (← theIndex).indexes.next
  modifyIndex fun x => { x with indexes := x.indexes.push index }
  updateTable index.table fun table => { table with indexes := table.indexes ++ [id] }
  return id

/-- Copies all fields of a table to the table being defined. -/
def copyFields (source : TableId) : WalkM Unit := do
  updateOpenTable fun d => { d with like := some source }
  let table := (← openTable).table
  let copies := (← (← tableAt source).fields.mapM fieldAt).map fun f =>
    { f with table := some table }
  let ids := (← theIndex).fields.nextIds copies.length
  modifyIndex fun x => { x with fields := x.fields.pushAll copies }
  appendFields table ids

/-- Begins a field of the table being defined. It is not yet a field of the table, so that its
own clauses cannot refer to it. -/
def beginField (n : NodeId) (name : String) : WalkM (FieldId × SymbolId) := do
  let buffer := (← openTable).buffer
  let field := (← theIndex).fields.next
  modifyIndex fun x => { x with fields := x.fields.push { name } }
  let symbol ← fieldBuffer buffer field
  annotate n fun a => { a with symbol := some symbol }
  updateSymbol symbol fun s => { s with definitionNode := some n }
  beginDefinition symbol
  return (field, symbol)

/-- Ends the clauses of a field, which now joins its table. -/
def joinField (field : FieldId) (symbol : SymbolId) : WalkM Unit := do
  endDefinition symbol
  let table := (← openTable).table
  updateField field fun f => { f with table := some table }
  appendFields table [field]

/-- An index of the table being defined, as its clause describes it. -/
def addIndex (env : Env) (n : NodeId) : WalkM Unit := do
  let t := env.tree
  let table := (← openTable).table
  let index ← appendIndex {
    name := t.definedName n
    table
    unique := t.hasKeyword n .unique
    primary := t.hasKeyword n .primary
    word := t.hasKeyword n .word }
  let pending := (t.childrenOfKind n .indexField).map fun f =>
    { index, name := t.text f, node := f : PendingIndexField }
  updateOpenTable fun d => { d with
    hasExplicitIndex := true
    indexFields := d.indexFields ++ pending }

/-! ### The end of a definition -/

/-- The fields of a table that correspond by name to the fields of an index; the name of a
field without counterpart is reported. -/
def correspondingFields (table : TableId) (index : TableIndex) (location : Location) :
    List FieldId → WalkM (List FieldId)
  | [] => return []
  | field :: rest => do
    let name := (← fieldAt field).name
    match (← theIndex).fieldNamed? table name with
    | some found => return found.item :: (← correspondingFields table index location rest)
    | none =>
      report (.skippedIndexField name index.name location)
      correspondingFields table index location rest

/-- Takes an index over to another table. -/
def copyIndex (env : Env) (source : IndexId) (table : TableId) : WalkM Unit := do
  let index ← indexAt source
  match (← tableAt table).definitionNode with
  | none => breach .tableWithoutNode
  | some n =>
    let fields ← correspondingFields table index (env.tree.location n) index.fields
    let _ ← appendIndex { index with table, fields }

/-- Takes over the indexes that USE-INDEX clauses name. -/
def copyNamedIndexes (env : Env) (source table : TableId) (names : List (String × NodeId)) :
    WalkM Unit :=
  names.forM fun (name, n) => do
    match (← theIndex).indexNamed? source name with
    | some index => copyIndex env index table
    | none =>
      report (.unknownUseIndex name (← tableAt source).name (env.tree.location n))

/-- The indexes that a table has because it is like another: those that USE-INDEX clauses name,
or else all of them, unless the definition has indexes of its own. -/
def inheritIndexes (env : Env) (d : TableDefinition) : WalkM Unit := do
  match d.like with
  | some source =>
    if !d.useIndex.isEmpty then
      copyNamedIndexes env source d.table d.useIndex
    else if !d.hasExplicitIndex then
      (← tableAt source).indexes.forM fun index => copyIndex env index d.table
  | none =>
    d.useIndex.forM fun (name, n) => do
      report (.unknownUseIndex name (← tableAt d.table).name (env.tree.location n))

/-- Looks up a field of an index; a name without a field is reported. -/
def resolveIndexField (env : Env) (table : TableId) (pending : PendingIndexField) :
    WalkM Unit := do
  match (← theIndex).fieldNamed? table pending.name with
  | some found =>
    updateTableIndex pending.index fun i => { i with fields := i.fields ++ [found.item] }
  | none =>
    let index ← indexAt pending.index
    report (.skippedIndexField pending.name index.name (env.tree.location pending.node))

/-- Ends a table definition. -/
def finishTable (env : Env) (d : TableDefinition) : WalkM Unit := do
  inheritIndexes env d
  d.indexFields.forM (resolveIndexField env d.table)
  updateTable d.table fun t => { t with frozen := true }

end AblResolve.Walk
