import AblResolve.Diagnostic.Basic
import AblResolve.Outer.Position
/-!
What a report on one finding shows against the text of the finding's file: a headline, the
position, and the further places that lie in the same file. Reports are made by the program around
the library.
-/
namespace AblResolve

def Severity.headlineWord : Severity → String
  | error => "Error"
  | warning => "Warning"
  | info => "Advice"

structure Report where
  headline : String
  /-- Where the finding begins. -/
  position : Source.Position
  /-- For each further place, whether the report shows it. -/
  relatedShown : List Bool
deriving Repr, DecidableEq

namespace Diagnostic

/-- Number, severity and message, as far as they fit the first line. -/
def headline (d : Diagnostic) : String :=
  "[" ++ toString d.code.number ++ "] " ++ d.severity.headlineWord ++ ": " ++
    String.ofList (d.message.toList.takeWhile (· != '\n'))

/-- The report on a finding, against the text of the file the finding is in. -/
def report (d : Diagnostic) (source : String) : Report where
  headline := d.headline
  position := Source.position source (Source.byteRange source d.location).start
  relatedShown := d.related.map fun (l, _) => l.file == d.location.file

end Diagnostic

end AblResolve
