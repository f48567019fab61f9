import AblResolve.Catalog.Basic
import AblResolve.Outer.Json.Decode
import AblResolve.Outer.Json.Reader
/-!
Catalogs written in JSON, for the program around the library.
-/
namespace AblResolve.Catalog

def dataTypeOfJson? (json : Json) : Option DataType :=
  json.text?.bind DataType.ofKeyword?

def Field.ofJson? (json : Json) : Option Field := do
  let members ← json.members?
  return {
    name := ← Json.required? members "name" Json.text?
    dataType := ← Json.required? members "type" dataTypeOfJson?
    extent := ← Json.optional? members "extent" 0 Json.word? }

def Index.ofJson? (json : Json) : Option Index := do
  let members ← json.members?
  return {
    name := ← Json.required? members "name" Json.text?
    fields := ← Json.required? members "fields" (Json.listOf? Json.text?)
    unique := ← Json.optional? members "unique" false Json.bool?
    primary := ← Json.optional? members "primary" false Json.bool?
    word := ← Json.optional? members "word" false Json.bool? }

def Table.ofJson? (json : Json) : Option Table := do
  let members ← json.members?
  return {
    name := ← Json.required? members "name" Json.text?
    fields := ← Json.optional? members "fields" [] (Json.listOf? Field.ofJson?)
    indexes := ← Json.optional? members "indexes" [] (Json.listOf? Index.ofJson?) }

def Database.ofJson? (json : Json) : Option Database := do
  let members ← json.members?
  return {
    name := ← Json.required? members "name" Json.text?
    tables := ← Json.optional? members "tables" [] (Json.listOf? Table.ofJson?) }

def ofJson? (json : Json) : Option Catalog := do
  let members ← json.members?
  return { databases := ← Json.optional? members "databases" [] (Json.listOf? Database.ofJson?) }

/-- The catalog that a JSON text describes. -/
def parse? (text : String) : Option Catalog :=
  (Json.parse? text).bind ofJson?

end AblResolve.Catalog
