import AblResolve.Index.Symbol
/-!
Tables, with their fields and indexes: those of the catalog that the unit refers to, and the
temp-tables and work-tables it defines. A table takes no more fields and indexes once it is
frozen.
-/
namespace AblResolve

inductive TableKind where
  | schema | tempTable | workTable
deriving Repr, DecidableEq, Inhabited

def TableKind.store : TableKind → Store
  | schema => .dbTable
  | tempTable => .tempTable
  | workTable => .workTable

structure Table where
  name : String
  kind : TableKind
  definitionNode : Option NodeId
  /-- The database of a catalog table. -/
  database : Option String := none
  fields : List FieldId := []
  indexes : List IndexId := []
  frozen : Bool := false
deriving Repr, DecidableEq, Inhabited

/-- The name with that of the database before it, for a catalog table. -/
def Table.qualifiedName (t : Table) : String :=
  match t.database with
  | some database => database ++ "." ++ t.name
  | none => t.name

structure Field where
  name : String
  /-- Its table; none while its definition is being read. -/
  table : Option TableId := none
  type : ValueType := {}
deriving Repr, DecidableEq, Inhabited

structure TableIndex where
  name : String
  table : TableId
  fields : List FieldId := []
  unique : Bool := false
  primary : Bool := false
  word : Bool := false
deriving Repr, DecidableEq, Inhabited

end AblResolve
