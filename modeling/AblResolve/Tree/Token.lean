import AblResolve.Source.Location
import AblResolve.Tree.Section
/-!
Tokens: the text of a tree node and where it comes from.
-/
namespace AblResolve

structure Token where
  text : String := ""
  file : UInt32 := 0
  line : UInt32 := 0
  column : UInt32 := 0
  endFile : UInt32 := 0
  endLine : UInt32 := 0
  /-- The column of the last character. -/
  endColumn : UInt32 := 0
  /-- Which preprocessor source the token was read from; zero is the main source. -/
  macroSource : UInt32 := 0
  macroExpansion : Bool := false
  /-- The token was made up and not read. -/
  synthetic : Bool := false
  /-- The attributes of the code section that encloses the token. -/
  analyzeSuspend : Option String := none
deriving Repr, DecidableEq, Inhabited

namespace Token

/-- How many columns the last character of a text is after the first; none if the text is
empty. Widths are counted in 32 bits. -/
def reach (text : String) : UInt32 := UInt32.ofNat (text.length % UInt32.size - 1)

/-- A token read at a place, on one line. Its last column has to be a column. -/
def read (text : String) (file line column : UInt32) : Except PlaceError Token := do
  let endColumn ← advance column (reach text)
  return { text, file, line, column, endFile := file, endLine := line, endColumn }

/-- A token without a place of its own. -/
def made (text : String) : Token where
  text := text
  synthetic := true

def isNatural (t : Token) : Bool := !t.synthetic

def location (t : Token) : Location :=
  (Location.point t.file t.line t.column).withEnd t.endLine t.endColumn

/-- A token outside all code sections can be edited, another as its section says. -/
def isEditable (t : Token) : Bool :=
  match t.analyzeSuspend with
  | some attributes => Section.isEditable attributes
  | none => true

end Token

end AblResolve
