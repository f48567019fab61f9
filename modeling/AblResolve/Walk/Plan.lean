import AblResolve.Walk.State
/-!
What a visit of a node has still to do once the node has been entered: which children are
visited in which order, what is done before and after each, and what is done at the end. A plan
is data. Its choice of children depends on the tree alone.
-/
namespace AblResolve.Walk

/-- The deeds of a visit that are done after a node has been entered. -/
inductive Action where
  | leaveScope
  | leaveBlock
  | endDefinition (symbol : SymbolId)
  | attach (symbol : SymbolId)
  | addParameter (symbol : SymbolId) (mode : ParameterMode)
  /-- Ends the signature of an event; the signature around it goes on. -/
  | closeEvent (outer : Option SymbolId)
  /-- Gives a symbol the type of what a field below a LIKE clause stands for. -/
  | copyType (field : NodeId) (target : SymbolId)
  /-- Makes the fields that these nodes stand for the columns of a browse. -/
  | setColumns (browse : SymbolId) (columns : List NodeId)
  /-- Copies the fields of a record's table to the table being defined. -/
  | copyFields (record : NodeId)
  | joinField (field : FieldId) (symbol : SymbolId)
  /-- Ends a table definition. -/
  | closeTable (buffer : SymbolId)
  /-- Gives up a table definition. -/
  | abandonTable (buffer : SymbolId)
  /-- Defines a named buffer for the table of a record. -/
  | defineBuffer (definition : NodeId) (record : Option NodeId)
  /-- Defines a named buffer for the table of a record, as a parameter. -/
  | addBufferParameter (definition : NodeId) (record : Option NodeId)
  /-- Makes the buffer of a record a parameter. -/
  | addTableParameter (record : NodeId) (mode : ParameterMode)
  /-- Binds the buffer of a record to the current block. -/
  | bindStrongly (record : NodeId)
  /-- Counts a further use of what a field stands for. -/
  | countUse (field : NodeId) (q : Qualifier)
deriving Repr, DecidableEq

/-- The visit of one child. -/
structure Step (t : ParseTree) (n : NodeId) where
  child : t.Child n
  /-- How the child is used, if the node says so. -/
  qualifier : Option Qualifier := none
  hint : Option TableHint := none
  before : List Action := []
  after : List Action := []
  /-- What is done when a record in the child names no table. -/
  onFailure : List Action := []

structure Plan (t : ParseTree) (n : NodeId) where
  steps : List (Step t n) := []
  leave : List Action := []

variable {t : ParseTree} {n : NodeId}

/-- Further actions for the case that a step fails, after those it has. -/
def Step.guard (actions : List Action) (s : Step t n) : Step t n :=
  { s with onFailure := s.onFailure ++ actions }

/-- The child is visited and nothing is said about it. -/
def Step.plain (c : t.Child n) : Step t n := { child := c }

def plainSteps (t : ParseTree) (n : NodeId) : List (Step t n) :=
  (t.childList n).map Step.plain

/-- Every child is told the same qualifier. -/
def qualifiedSteps (t : ParseTree) (n : NodeId) (q : Qualifier) : List (Step t n) :=
  (t.childList n).map fun c => { child := c, qualifier := some q }

/-- Children of one kind are told a qualifier. -/
def qualifyingSteps (t : ParseTree) (n : NodeId) (kind : NodeKind) (q : Qualifier) :
    List (Step t n) :=
  (t.childList n).map fun c =>
    { child := c, qualifier := if t.kind c.val = kind then some q else none }

/-- The first child that asks is told one qualifier, those after it another. -/
def operandSteps (t : ParseTree) (n : NodeId) (first rest : Qualifier) : List (Step t n) :=
  go first (t.childList n)
where
  go (q : Qualifier) : List (t.Child n) → List (Step t n)
    | [] => []
    | c :: cs =>
      if (t.kind c.val).consumesQualifier then { child := c, qualifier := some q } :: go rest cs
      else Step.plain c :: go q cs

/-- The first child of a kind is told a qualifier. -/
def firstSteps (t : ParseTree) (n : NodeId) (kind : NodeKind) (q : Qualifier) :
    List (Step t n) :=
  (t.childList n).map fun c =>
    { child := c, qualifier := if t.childOfKind? n kind = some c.val then some q else none }

/-- The first child of a kind, alone. -/
def onlySteps (t : ParseTree) (n : NodeId) (kind : NodeKind) (q : Qualifier) :
    List (Step t n) :=
  ((t.childList n).filter fun c => t.childOfKind? n kind = some c.val).map fun c =>
    { child := c, qualifier := some q }

namespace Plan

def plain (t : ParseTree) (n : NodeId) : Plan t n := { steps := plainSteps t n }

def qualified (t : ParseTree) (n : NodeId) (q : Qualifier) : Plan t n :=
  { steps := qualifiedSteps t n q }

def qualifying (t : ParseTree) (n : NodeId) (kind : NodeKind) (q : Qualifier) : Plan t n :=
  { steps := qualifyingSteps t n kind q }

def operands (t : ParseTree) (n : NodeId) (first rest : Qualifier) : Plan t n :=
  { steps := operandSteps t n first rest }

/-- Nothing below the node is visited. -/
def done : Plan t n := {}

/-- The steps, each undone by the same actions if it fails, and the actions at the end. -/
def around (steps : List (Step t n)) (onFailure leave : List Action) : Plan t n :=
  { steps := steps.map (Step.guard onFailure), leave }

end Plan

end AblResolve.Walk
