import AblResolve.Source.Line
import AblResolve.Source.Location
/-!
From lines and columns to byte offsets of the UTF-8 text. A line ends with its newline; the
newline and carriage returns before it are not part of the line's content. A column past the
content stands for the end of the content, and a line the text does not have for the end of the
text.
-/
namespace AblResolve.Source

/-- How many bytes the characters take. -/
def byteLength : List Char → Nat
  | [] => 0
  | c :: rest => c.utf8Size + byteLength rest

def isLineEnd (c : Char) : Bool := c == '\n' || c == '\r'

/-- A line without the newline and carriage returns at its end. -/
def content (line : List Char) : List Char :=
  (line.reverse.dropWhile isLineEnd).reverse

/-- The offset of a position, counted from the first of these lines. -/
def offsetIn : List (List Char) → (line column : Nat) → Nat
  | [], _, _ => 0
  | text :: rest, line, column =>
    if line = 1 then byteLength ((content text).take (column - 1))
    else byteLength text + offsetIn rest (line - 1) column

/-- The byte offset of a position. -/
def byteOffset (source : String) (line column : UInt32) : Nat :=
  offsetIn (splitLines source.toList) line.toNat column.toNat

/-- The width of the character that begins at a byte offset, zero at the end of the text. -/
def widthAt : List Char → Nat → Nat
  | [], _ => 0
  | c :: rest, offset => if offset = 0 then c.utf8Size else widthAt rest (offset - c.utf8Size)

/-- The bytes from `start` up to and without `stop`. -/
structure ByteRange where
  start : Nat
  stop : Nat
deriving Repr, DecidableEq

/-- The bytes of a place. A place that covers nothing is widened to one character. -/
def byteRange (source : String) (l : Location) : ByteRange :=
  let start := byteOffset source l.line l.column
  let stop := byteOffset source l.endLine l.endColumn
  if start < stop then ⟨start, stop⟩ else ⟨start, start + widthAt source.toList start⟩

end AblResolve.Source
