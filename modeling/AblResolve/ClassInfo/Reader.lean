import AblResolve.ClassInfo.Basic
import AblResolve.Options
import AblResolve.Outer.Json.Decode
import AblResolve.Outer.Json.Reader
/-!
Registries of types, written in JSON as a list of types, and options written in JSON, for the
program around the library.
-/
namespace AblResolve

def TypeInfo.ofJson? (json : Json) : Option TypeInfo := do
  let members ← json.members?
  return {
    typeName := ← Json.required? members "type_name" Json.text?
    parentTypeName := ← Json.optional? members "parent_type_name" none Json.optionalText?
    isInterface := ← Json.optional? members "is_interface" false Json.bool?
    isAbstract := ← Json.optional? members "is_abstract" false Json.bool?
    isFinal := ← Json.optional? members "is_final" false Json.bool?
    interfaces := ← Json.optional? members "interfaces" [] (Json.listOf? Json.text?) }

namespace TypeRegistry

def ofJson? (json : Json) : Option TypeRegistry :=
  (Json.listOf? TypeInfo.ofJson? json).map ofList

/-- The registry that a JSON text describes. -/
def parse? (text : String) : Option TypeRegistry :=
  (Json.parse? text).bind ofJson?

end TypeRegistry

namespace Options

def ofJson? (json : Json) : Option Options := do
  let members ← json.members?
  return {
    traceRules := ← Json.optional? members "trace_rules" false Json.bool?
    recordDefaultedQualifiers :=
      ← Json.optional? members "record_defaulted_qualifiers" false Json.bool? }

/-- The options that a JSON text describes. -/
def parse? (text : String) : Option Options :=
  (Json.parse? text).bind ofJson?

end Options

end AblResolve
