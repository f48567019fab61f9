/-!
Dotted names: `field`, `table.field`, `database.table`, `database.table.field`, `package.Class`.
A table name is divided at its first dot, a field name at its last.
-/
namespace AblResolve.Text

/-- What stands before and after the first dot, if there is a dot. -/
def splitFirst? (name : String) : Option (String × String) :=
  match name.toList.span (· != '.') with
  | (before, _ :: after) => some (String.ofList before, String.ofList after)
  | (_, []) => none

/-- What stands before and after the last dot, if there is a dot. -/
def splitLast? (name : String) : Option (String × String) :=
  match name.toList.reverse.span (· != '.') with
  | (after, _ :: before) => some (String.ofList before.reverse, String.ofList after.reverse)
  | (_, []) => none

/-- What stands after the last dot; the whole name if it has none. -/
def lastSegment (name : String) : String :=
  match splitLast? name with
  | some (_, last) => last
  | none => name

end AblResolve.Text
