import AblResolve.Source.Location
/-!
What resolution has to say about a unit. Each kind of finding has a number, a severity and a
wording.
-/
namespace AblResolve

inductive Severity where
  | error | warning | info
deriving Repr, DecidableEq, Inhabited

namespace Severity

def render : Severity → String
  | error => "error"
  | warning => "warning"
  | info => "info"

/-- Graver findings come first. -/
def rank : Severity → Nat
  | error => 0
  | warning => 1
  | info => 2

end Severity

/-- The kinds of findings: five on names, two on definitions. -/
inductive DiagnosticCode where
  | unresolvedTable
  | unresolvedField
  | unresolvedLikeSource
  | unresolvedBuffer
  | unknownUseIndex
  | skippedIndexField
  | missingTypeInfo
deriving Repr, DecidableEq, Inhabited

def DiagnosticCode.number : DiagnosticCode → Nat
  | unresolvedTable => 1001
  | unresolvedField => 1002
  | unresolvedLikeSource => 1003
  | unresolvedBuffer => 1004
  | unknownUseIndex => 1005
  | skippedIndexField => 2001
  | missingTypeInfo => 2002

structure Diagnostic where
  severity : Severity
  code : DiagnosticCode
  message : String
  location : Location := {}
  /-- Further places, each with what it shows. -/
  related : List (Location × String) := []
deriving Repr, DecidableEq, Inhabited

namespace Diagnostic

def withRelated (d : Diagnostic) (l : Location) (message : String) : Diagnostic :=
  { d with related := d.related ++ [(l, message)] }

def unresolvedTable (name : String) (l : Location) : Diagnostic :=
  ⟨.error, .unresolvedTable, "Could not resolve table '" ++ name ++ "'", l, []⟩

def unresolvedField (name table : String) (l : Location) : Diagnostic :=
  ⟨.warning, .unresolvedField,
    "Field '" ++ name ++ "' not found in table '" ++ table ++ "'", l, []⟩

def unresolvedLikeSource (name : String) (l : Location) : Diagnostic :=
  ⟨.warning, .unresolvedLikeSource, "Unable to resolve LIKE source '" ++ name ++ "'", l, []⟩

def unresolvedBuffer (name : String) (l : Location) : Diagnostic :=
  ⟨.warning, .unresolvedBuffer, "Unknown buffer '" ++ name ++ "'", l, []⟩

def unknownUseIndex (index table : String) (l : Location) : Diagnostic :=
  ⟨.warning, .unknownUseIndex,
    "Index '" ++ index ++ "' not found in table '" ++ table ++ "'", l, []⟩

def skippedIndexField (field index : String) (l : Location) : Diagnostic :=
  ⟨.info, .skippedIndexField,
    "Field '" ++ field ++ "' of index '" ++ index ++ "' not found, skipped", l, []⟩

def missingTypeInfo (className : String) (l : Location) : Diagnostic :=
  ⟨.info, .missingTypeInfo, "No type information for class '" ++ className ++ "'", l, []⟩

/-- The finding on one line, and each further place on a line below it. -/
def render (d : Diagnostic) : String :=
  d.related.foldl
    (fun text (l, message) => text ++ "\n  note: " ++ message ++ " (at " ++ l.render ++ ")")
    (d.severity.render ++ ": " ++ d.message ++ " (at " ++ d.location.render ++ ")")

/-- Findings are ordered by place, then by severity. -/
def cmp (a b : Diagnostic) : Ordering :=
  (a.location.cmp b.location).then (compare a.severity.rank b.severity.rank)

end Diagnostic

end AblResolve
