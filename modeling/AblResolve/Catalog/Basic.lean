import AblResolve.Text.Dotted
import AblResolve.Text.Match
import AblResolve.Tree.DataType
/-!
Catalogs of the databases a program works with. A table is found by its name or an abbreviation
of it that fits no other table; a name with a dot begins with the name of a database, which has
to be spelled out.
-/
namespace AblResolve

namespace Catalog

structure Field where
  name : String
  dataType : DataType
  /-- The size of an array, zero for a single value. -/
  extent : UInt32 := 0
deriving Repr, DecidableEq, Inhabited

structure Index where
  name : String
  fields : List String
  unique : Bool := false
  primary : Bool := false
  word : Bool := false
deriving Repr, DecidableEq, Inhabited

structure Table where
  name : String
  fields : List Field := []
  indexes : List Index := []
deriving Repr, DecidableEq, Inhabited

structure Database where
  name : String
  tables : List Table := []
deriving Repr, DecidableEq, Inhabited

/-- A table together with the name of its database. -/
structure Entry where
  database : String
  table : Table
deriving Repr, DecidableEq, Inhabited

end Catalog

structure Catalog where
  databases : List Catalog.Database := []
deriving Repr, DecidableEq, Inhabited

namespace Catalog

def Database.entries (d : Database) : List (String × Entry) :=
  d.tables.map fun t => (t.name, ⟨d.name, t⟩)

def database? (c : Catalog) (name : String) : Option Database :=
  c.databases.find? fun d => Text.same d.name name

/-- The tables a name can mean, by table name, and what the table is called in it. -/
def candidates? (c : Catalog) (name : String) : Option (List (String × Entry) × String) :=
  match Text.splitFirst? name with
  | some (database, table) => (c.database? database).map fun d => (d.entries, table)
  | none => some (c.databases.flatMap Database.entries, name)

/-- The table of a name. -/
def table? (c : Catalog) (name : String) : Option Entry := do
  let (entries, tableName) ← c.candidates? name
  (Text.matchName tableName entries true).map (·.item)

end Catalog

end AblResolve
