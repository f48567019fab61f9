import AblResolve.Text.Fold
/-!
The data types of the analysed language and the keywords that name them. Five keywords may be
abbreviated down to a least length.
-/
namespace AblResolve

inductive DataType where
  | character | integer | int64 | decimal | logical
  | date | dateTime | dateTimeTz
  | handle | widgetHandle | comHandle
  | rowid | recid | raw | memptr | longchar | clob | blob
  /-- An object; the name of its class is kept beside the type. -/
  | classRef
  | void
deriving Repr, DecidableEq, Inhabited

namespace DataType

def keyword : DataType → String
  | character => "CHARACTER"
  | integer => "INTEGER"
  | int64 => "INT64"
  | decimal => "DECIMAL"
  | logical => "LOGICAL"
  | date => "DATE"
  | dateTime => "DATETIME"
  | dateTimeTz => "DATETIME-TZ"
  | handle => "HANDLE"
  | widgetHandle => "WIDGET-HANDLE"
  | comHandle => "COM-HANDLE"
  | rowid => "ROWID"
  | recid => "RECID"
  | raw => "RAW"
  | memptr => "MEMPTR"
  | longchar => "LONGCHAR"
  | clob => "CLOB"
  | blob => "BLOB"
  | classRef => "CLASS"
  | void => "VOID"

/-- The types whose keyword has to be spelled out. -/
def spelledOut : List DataType :=
  [int64, date, dateTime, dateTimeTz, handle, comHandle, rowid, recid, raw, memptr, longchar,
    clob, blob, classRef, void]

/-- The types whose keyword may be abbreviated, with the least length. -/
def shortened : List (DataType × Nat) :=
  [(character, 4), (integer, 3), (decimal, 3), (logical, 3), (widgetHandle, 8)]

/-- `word` is `keyword` or a beginning of it of at least `least` characters. -/
def isShortened (word keyword : String) (least : Nat) : Bool :=
  decide (least ≤ word.utf8ByteSize) &&
    (Text.fold word).toList.isPrefixOf (Text.fold keyword).toList

/-- The type a word of the source names. -/
def ofKeyword? (word : String) : Option DataType :=
  match spelledOut.find? fun t => Text.same t.keyword word with
  | some t => some t
  | none => (shortened.find? fun (t, least) => isShortened word t.keyword least).map (·.1)

/-- What is said of a word that names no type. -/
def unknownMessage (word : String) : String :=
  "unknown data type '" ++ word ++ "'"

end DataType

end AblResolve
