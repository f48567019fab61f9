import AblResolve.Catalog.Basic
import AblResolve.Index.Basic
import AblResolve.Options
import AblResolve.Tree.Annotation
import AblResolve.Walk.Fault
import AblResolve.Walk.SideTable
/-!
The state of a walk over a tree: the index and the annotations made so far, and what is open at
the place the walk has reached. Steps of the walk change the state and may end the walk; the
state in which a walk ended is not lost.
-/
namespace AblResolve

/-- What a walk is given. -/
structure Env where
  tree : ParseTree
  catalog : Catalog := {}
  types : TypeRegistry := {}
  options : Options := {}

/-- In which table the name of a field is looked up. -/
inductive TableHint where
  /-- Wherever a name can lead. -/
  | any
  /-- In the table referred to last. -/
  | last
  /-- In the table referred to before the last. -/
  | previous
deriving Repr, DecidableEq, Inhabited

/-- A field of an index, to be looked up when all fields of the table are known. -/
structure PendingIndexField where
  index : IndexId
  name : String
  node : NodeId
deriving Repr, DecidableEq, Inhabited

/-- The definition of a temp-table or work-table that is being read. -/
structure TableDefinition where
  table : TableId
  buffer : SymbolId
  /-- The table it is defined like. -/
  like : Option TableId := none
  /-- The indexes to be taken over from that table, with the clauses that name them. -/
  useIndex : List (String × NodeId) := []
  hasExplicitIndex : Bool := false
  indexFields : List PendingIndexField := []
deriving Repr, DecidableEq, Inhabited

structure Walk where
  index : UnitIndex := {}
  notes : Annotations
  /-- The open scopes, the innermost first. -/
  scopeStack : List ScopeId := []
  /-- The open blocks, the innermost first. -/
  blockStack : List BlockId := []
  /-- The symbols being defined, the innermost first; it is what clauses apply to. -/
  openDefinitions : List SymbolId := []
  qualifiers : SideTable Qualifier := {}
  hints : SideTable TableHint := {}
  /-- The FORWARD declarations that still wait for a body, by folded name. -/
  forwards : List (String × SymbolId) := []
  tableDefinition : Option TableDefinition := none
  /-- The event whose signature is being read. -/
  openEvent : Option SymbolId := none
  /-- The buffer of the record referred to last. -/
  lastTable : Option SymbolId := none
  /-- The buffer of the record referred to before the last. -/
  previousTable : Option SymbolId := none
deriving Repr, DecidableEq, Inhabited

abbrev WalkM := EStateM Fault Walk

namespace Walk

def breach {α : Type} (b : Breach) : WalkM α := throw (.breach b)

/-- Checks what the walk relies on. -/
def demand (condition : Bool) (b : Breach) : WalkM Unit :=
  if condition then pure () else breach b

def misplaced {α : Type} (m : Misplacement) : WalkM α := throw (.misplaced m)

def theIndex : WalkM UnitIndex := return (← get).index

def modifyIndex (f : UnitIndex → UnitIndex) : WalkM Unit :=
  modify fun w => { w with index := f w.index }

def annotate (n : NodeId) (f : Annotation → Annotation) : WalkM Unit :=
  modify fun w => { w with notes := w.notes.update n f }

def annotation (n : NodeId) : WalkM Annotation := return (← get).notes.get n

def report (d : Diagnostic) : WalkM Unit :=
  modifyIndex fun x => { x with diagnostics := x.diagnostics.add d }

/-- The element under a number that is in use. -/
def fetch {e : Entity} {α : Type} (a : Arena e α) (i : Id e) : WalkM α :=
  match a.get? i with
  | some x => pure x
  | none => breach (.dangling e i.val a.size)

def symbolAt (s : SymbolId) : WalkM Symbol := do fetch (← theIndex).symbols s

def scopeAt (s : ScopeId) : WalkM Scope := do fetch (← theIndex).scopes s

def blockAt (b : BlockId) : WalkM Block := do fetch (← theIndex).blocks b

def tableAt (t : TableId) : WalkM Table := do fetch (← theIndex).tables t

def fieldAt (f : FieldId) : WalkM Field := do fetch (← theIndex).fields f

def indexAt (i : IndexId) : WalkM TableIndex := do fetch (← theIndex).indexes i

def updateSymbol (s : SymbolId) (f : Symbol → Symbol) : WalkM Unit := do
  let _ ← symbolAt s
  modifyIndex fun x => { x with symbols := x.symbols.update s f }

def updateScope (s : ScopeId) (f : Scope → Scope) : WalkM Unit := do
  let _ ← scopeAt s
  modifyIndex fun x => { x with scopes := x.scopes.update s f }

def updateBlock (b : BlockId) (f : Block → Block) : WalkM Unit := do
  let _ ← blockAt b
  modifyIndex fun x => { x with blocks := x.blocks.update b f }

def updateTable (t : TableId) (f : Table → Table) : WalkM Unit := do
  let _ ← tableAt t
  modifyIndex fun x => { x with tables := x.tables.update t f }

def updateField (f : FieldId) (g : Field → Field) : WalkM Unit := do
  let _ ← fieldAt f
  modifyIndex fun x => { x with fields := x.fields.update f g }

def updateTableIndex (i : IndexId) (f : TableIndex → TableIndex) : WalkM Unit := do
  let _ ← indexAt i
  modifyIndex fun x => { x with indexes := x.indexes.update i f }

/-! ### Qualifiers and hints -/

/-- Tells a node how it is used, if it is of a kind that asks. -/
def qualify (env : Env) (n : NodeId) (q : Qualifier) : WalkM Unit := do
  if (env.tree.kind n).consumesQualifier then
    modify fun w => { w with qualifiers := w.qualifiers.set n q }

def hint (n : NodeId) (h : TableHint) : WalkM Unit :=
  modify fun w => { w with hints := w.hints.set n h }

/-- How a node is used; it is read if nothing else was said. -/
def takeQualifier (env : Env) (n : NodeId) : WalkM Qualifier := do
  let (found, rest) := (← get).qualifiers.take n
  modify fun w => { w with qualifiers := rest }
  match found with
  | some q => return q
  | none =>
    if env.options.recordDefaultedQualifiers then
      modifyIndex fun x => { x with defaulted := x.defaulted ++ [n] }
    return .ref

def takeHint (n : NodeId) : WalkM TableHint := do
  let (found, rest) := (← get).hints.take n
  modify fun w => { w with hints := rest }
  return found.getD .any

end Walk

end AblResolve
