import AblResolve.Diagnostic.Basic
/-!
The findings of a run, in the order in which they were made.
-/
namespace AblResolve

structure Diagnostics where
  all : List Diagnostic := []
deriving Repr, DecidableEq, Inhabited

namespace Diagnostics

def add (ds : Diagnostics) (d : Diagnostic) : Diagnostics := ⟨ds.all ++ [d]⟩

def withSeverity (ds : Diagnostics) (s : Severity) : List Diagnostic :=
  ds.all.filter (·.severity = s)

def errors (ds : Diagnostics) : List Diagnostic := ds.withSeverity .error

def warnings (ds : Diagnostics) : List Diagnostic := ds.withSeverity .warning

def withCode (ds : Diagnostics) (code : DiagnosticCode) : List Diagnostic :=
  ds.all.filter (·.code = code)

def hasErrors (ds : Diagnostics) : Bool := ds.all.any (·.severity = .error)

/-- Ordered by place and severity; findings equal in both keep their order. -/
def sort (ds : Diagnostics) : Diagnostics := ⟨ds.all.mergeSort fun a b => (a.cmp b).isLE⟩

def summary (ds : Diagnostics) : String :=
  if ds.all.isEmpty then "No issues found"
  else toString ds.errors.length ++ " errors, " ++ toString ds.warnings.length ++ " warnings"

end Diagnostics

end AblResolve
