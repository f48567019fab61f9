import AblResolve.Source.Offset
/-!
From byte offsets to the positions that a report states: the line shown that contains the
offset, and the column in it in characters. The end of the text belongs to the last line, even
if that line is complete. A report shows lines as a reader sees them, who takes other line breaks
than newlines for line ends, too.
-/
namespace AblResolve.Source

/-- The line breaks of a report: newline, vertical tab, form feed, carriage return, next line,
line separator and paragraph separator. -/
def isLineBreak (c : Char) : Bool :=
  let n := c.toNat
  (0x0A ≤ n && n ≤ 0x0D) || n == 0x85 || n == 0x2028 || n == 0x2029

/-- A line break ends a line of a report, except that a carriage return and the newline after it
are one line end. -/
def endsShownLine (c : Char) (rest : List Char) : Bool :=
  isLineBreak c && !(c == '\r' && rest.head? == some '\n')

/-- The lines that a report shows. -/
def shownLines : List Char → List (List Char) := divide endsShownLine

/-- A line and a column, both from one. -/
structure Position where
  line : Nat
  column : Nat
deriving Repr, DecidableEq, Inhabited

/-- Line and column, as `line:column`. -/
def Position.render (p : Position) : String :=
  toString p.line ++ ":" ++ toString p.column

/-- The characters before a byte offset. -/
def charsBefore : List Char → Nat → List Char
  | [], _ => []
  | c :: rest, offset => if offset = 0 then [] else c :: charsBefore rest (offset - c.utf8Size)

/-- The position of a byte offset, counted from the first of these lines. -/
def positionIn : List (List Char) → Nat → Position
  | [], _ => ⟨1, 1⟩
  | line :: rest, offset =>
    if offset < byteLength line || rest.isEmpty then ⟨1, (charsBefore line offset).length + 1⟩
    else
      let p := positionIn rest (offset - byteLength line)
      { p with line := p.line + 1 }

/-- The position of a byte offset in the lines shown. -/
def position (source : String) (offset : Nat) : Position :=
  positionIn (shownLines source.toList) offset

end AblResolve.Source
