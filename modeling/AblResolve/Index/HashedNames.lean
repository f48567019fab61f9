import AblResolve.Index.NameTable
import AblResolve.Text.Bytes
/-!
The names of a scope, found by hashing. The entries stand in a list, and a hash table leads from the
hash of a name to the position of its entry. Hash functions and tables of positions come from
libraries: what they consist of is left open here.
-/
namespace AblResolve

/-- A hash function that takes in one word or byte after the other. -/
structure Hasher where
  State : Type
  start : State
  writeWord : State → UInt64 → State
  writeByte : State → UInt8 → State
  finish : State → UInt64

/-- Tables that keep positions under hashes. -/
structure PositionTable where
  Table : Type
  empty : Table
  /-- A position that the test accepts, among those under the hash and perhaps some others. -/
  find : Table → UInt64 → (Nat → Bool) → Option Nat
  /-- The table with one more position under a hash. When it has to be laid out anew, the hashes of
  the positions in it are computed once more, by the function given. -/
  insertUnique : Table → UInt64 → Nat → (Nat → UInt64) → Table

/-- What a namespace adds to a hash: its number, and that of the sort of widgets. -/
def Namespace.words : Namespace → List UInt64
  | .variable => [0]
  | .routine => [1]
  | .buffer => [2]
  | .table => [3]
  | .event => [4]
  | .widget kind => [5, .ofNat kind.ctorIdx]

/-- The hash of a name in a namespace. The spelling of the name makes no difference to it. -/
def Hasher.hashKey (h : Hasher) (space : Namespace) (name : String) : UInt64 :=
  h.finish ((Text.foldedBytes name).foldl h.writeByte (space.words.foldl h.writeWord h.start))

/-- Entries in the order in which their names were first defined, and a table of their positions. -/
structure HashedNames (p : PositionTable) where
  entries : List NameEntry := []
  positions : p.Table := p.empty

namespace HashedNames

/-- The test for the position of an entry for the name. -/
def isAt (entries : List NameEntry) (space : Namespace) (name : String) (i : Nat) : Bool :=
  match entries[i]? with
  | some e => e.isFor space name
  | none => false

/-- The hash of the name of the entry at a position. -/
def hashAt (h : Hasher) (entries : List NameEntry) (i : Nat) : UInt64 :=
  match entries[i]? with
  | some e => h.hashKey e.space e.name
  | none => 0

variable {p : PositionTable}

/-- The position of the entry for a name. -/
def position? (h : Hasher) (t : HashedNames p) (space : Namespace) (name : String) : Option Nat :=
  p.find t.positions (h.hashKey space name) (isAt t.entries space name)

def find? (h : Hasher) (t : HashedNames p) (space : Namespace) (name : String) : Option SymbolId :=
  (t.position? h space name).bind fun i => t.entries[i]?.map (·.symbol)

/-- Defines a name; the first result is the symbol it stood for before. An entry that there is
already gets the new spelling and the new symbol, and keeps its position. -/
def insert (h : Hasher) (t : HashedNames p) (space : Namespace) (name : String)
    (symbol : SymbolId) : Option SymbolId × HashedNames p :=
  match t.position? h space name with
  | some i =>
    (t.entries[i]?.map (·.symbol),
      { t with entries := t.entries.modify i fun old => { old with name, symbol } })
  | none =>
    let entries := t.entries ++ [⟨space, name, symbol⟩]
    (none, ⟨entries, p.insertUnique t.positions (h.hashKey space name) t.entries.length
      (hashAt h entries)⟩)

/-- The entries of one namespace. -/
def inNamespace (t : HashedNames p) (space : Namespace) : List NameEntry :=
  t.entries.filter (·.space = space)

/-- The names that are defined one after the other, each for the symbol of its entry. -/
def ofList (p : PositionTable) (h : Hasher) (definitions : List NameEntry) : HashedNames p :=
  definitions.foldl (fun t d => (t.insert h d.space d.name d.symbol).2) {}

end HashedNames

/-- The names that are defined one after the other, each for the symbol of its entry. -/
def NameTable.ofList (definitions : List NameEntry) : NameTable :=
  definitions.foldl (fun t d => (t.insert d.space d.name d.symbol).2) {}

end AblResolve
