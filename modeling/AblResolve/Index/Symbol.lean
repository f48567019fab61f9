import AblResolve.Arena
import AblResolve.Tree.Annotation
/-!
Symbols: what the names of a unit stand for. A symbol is pending while its definition is being
read, and attached from the moment names can lead to it.
-/
namespace AblResolve

/-- The dimension of a variable or field. -/
inductive Extent where
  | scalar
  | fixed (size : UInt32)
  /-- An array whose size is set at run time. -/
  | indeterminate
deriving Repr, DecidableEq, Inhabited

/-- How often a symbol is referred to, for each way of using it. -/
structure ReferenceCounts where
  tally : Vector Nat 9 := Vector.replicate 9 0
deriving Repr, DecidableEq, Inhabited

namespace ReferenceCounts

def get (c : ReferenceCounts) (q : Qualifier) : Nat := c.tally[q.index]

/-- One more reference. -/
def note (c : ReferenceCounts) (q : Qualifier) : ReferenceCounts :=
  ⟨c.tally.set q.index (c.get q + 1)⟩

/-- The references under any of these qualifiers. -/
def count (c : ReferenceCounts) : List Qualifier → Nat
  | [] => 0
  | q :: rest => c.get q + c.count rest

def total (c : ReferenceCounts) : Nat := c.count Qualifier.all

/-- The references that write. -/
def writes (c : ReferenceCounts) : Nat := c.count (Qualifier.all.filter (·.isWrite))

theorem get_note (c : ReferenceCounts) (p q : Qualifier) :
    (c.note p).get q = if p = q then c.get q + 1 else c.get q := by
  by_cases h : p = q
  · subst h
    simp [note, get]
  · have : p.index.val ≠ q.index.val := fun hi => h (Qualifier.index_injective (Fin.ext hi))
    simp [note, get, this, h]

end ReferenceCounts

/-- Type and dimension, as far as clauses have given them. -/
structure ValueType where
  dataType : Option DataType := none
  /-- The class, for an object. -/
  className : Option String := none
  extent : Extent := .scalar
deriving Repr, DecidableEq, Inhabited

structure Variable where
  type : ValueType := {}
  isParameter : Bool := false
  isProperty : Bool := false
deriving Repr, DecidableEq, Inhabited

inductive RoutineKind where
  | program | procedure | function | method | constructor | destructor | propertyAccessor
deriving Repr, DecidableEq, Inhabited

inductive ParameterMode where
  | input | output | inputOutput | return | buffer
deriving Repr, DecidableEq, Inhabited

structure Routine where
  kind : RoutineKind
  /-- The scope of its body. -/
  body : ScopeId
  parameters : List (SymbolId × ParameterMode) := []
  returnType : Option DataType := none
  returnClass : Option String := none
  /-- The FORWARD declaration it was announced by. -/
  forwardNode : Option NodeId := none
deriving Repr, DecidableEq, Inhabited

/-- A view of the records of a table, one record at a time. -/
structure TableBuffer where
  table : TableId
  /-- The buffer that the name of the table itself stands for. -/
  isDefault : Bool
  /-- The symbols through which fields of the buffer have been reached. -/
  fields : List (FieldId × SymbolId) := []
deriving Repr, DecidableEq, Inhabited

def TableBuffer.field? (b : TableBuffer) (f : FieldId) : Option SymbolId :=
  (b.fields.find? (·.1 = f)).map (·.2)

/-- A field as reached through one buffer. -/
structure FieldBuffer where
  buffer : SymbolId
  field : FieldId
deriving Repr, DecidableEq, Inhabited

structure Browse where
  query : Option String := none
  /-- What is shown in its columns, in order. -/
  columns : List SymbolId := []
deriving Repr, DecidableEq, Inhabited

inductive SymbolKind where
  | variable (v : Variable)
  | routine (r : Routine)
  | tableBuffer (b : TableBuffer)
  | fieldBuffer (f : FieldBuffer)
  /-- An event with the parameters of its signature, which no name leads to. -/
  | event (parameters : List SymbolId)
  | browse (b : Browse)
  | widget (kind : WidgetKind)
deriving Repr, DecidableEq, Inhabited

structure Symbol where
  name : String
  /-- The scope it is defined in. -/
  scope : ScopeId
  definitionNode : Option NodeId
  attached : Bool := false
  references : ReferenceCounts := {}
  kind : SymbolKind
deriving Repr, DecidableEq, Inhabited

namespace Symbol

def asVariable? (s : Symbol) : Option Variable :=
  match s.kind with
  | .variable v => some v
  | _ => none

def asRoutine? (s : Symbol) : Option Routine :=
  match s.kind with
  | .routine r => some r
  | _ => none

def asTableBuffer? (s : Symbol) : Option TableBuffer :=
  match s.kind with
  | .tableBuffer b => some b
  | _ => none

def asFieldBuffer? (s : Symbol) : Option FieldBuffer :=
  match s.kind with
  | .fieldBuffer f => some f
  | _ => none

def asEvent? (s : Symbol) : Option (List SymbolId) :=
  match s.kind with
  | .event parameters => some parameters
  | _ => none

def asBrowse? (s : Symbol) : Option Browse :=
  match s.kind with
  | .browse b => some b
  | _ => none

def noteReference (s : Symbol) (q : Qualifier) : Symbol :=
  { s with references := s.references.note q }

end Symbol

end AblResolve
