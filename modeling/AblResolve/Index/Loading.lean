import AblResolve.Catalog.Basic
import AblResolve.Index.Basic
/-!
Catalog tables enter the index of a unit when the unit first refers to them, complete and
frozen.
-/
namespace AblResolve

/-- What a catalog table is known by, whatever the spelling of the reference. -/
def Catalog.Entry.key (e : Catalog.Entry) : String :=
  Text.fold (e.database ++ "." ++ e.table.name)

def Extent.ofCatalog (size : UInt32) : Extent :=
  if 0 < size then .fixed size else .scalar

def Field.ofCatalog (table : TableId) (f : Catalog.Field) : Field where
  name := f.name
  table := some table
  type := { dataType := some f.dataType, extent := .ofCatalog f.extent }

/-- An index over the fields of its table that have exactly the names listed. -/
def TableIndex.ofCatalog (table : TableId) (fields : List (String × FieldId))
    (i : Catalog.Index) : TableIndex where
  name := i.name
  table := table
  fields := i.fields.filterMap fun name =>
    (fields.find? fun f => Text.same f.1 name).map (·.2)
  unique := i.unique
  primary := i.primary
  word := i.word

namespace UnitIndex

def schemaTable? (x : UnitIndex) (e : Catalog.Entry) : Option TableId :=
  (x.schemaTables.find? (·.1 = e.key)).map (·.2)

/-- The index with a copy of a catalog table. -/
def loadTable (x : UnitIndex) (e : Catalog.Entry) : UnitIndex :=
  let table := x.tables.next
  let fields := x.fields.nextIds e.table.fields.length
  let named := (e.table.fields.map (·.name)).zip fields
  { x with
    fields := x.fields.pushAll (e.table.fields.map (.ofCatalog table))
    indexes := x.indexes.pushAll (e.table.indexes.map (.ofCatalog table named))
    tables := x.tables.push {
      name := e.table.name
      kind := .schema
      definitionNode := none
      database := some e.database
      fields := fields
      indexes := x.indexes.nextIds e.table.indexes.length
      frozen := true }
    schemaTables := x.schemaTables ++ [(e.key, table)] }

end UnitIndex

end AblResolve
