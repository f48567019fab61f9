import AblResolve.Arena
import AblResolve.Diagnostic.Basic
/-!
How an analysis can end without a result. A record that names no table is an error of the
program analysed. A clause in a place where it has no meaning is an error of the tree. A breach
is a contradiction in the state of the walk itself.
-/
namespace AblResolve

/-- Trees that no grammar of the language produces. -/
inductive Misplacement where
  | asClause
  | likeClause
  | extentClause
  | tableClause
  | nestedTable
  | bufferWithoutTable
deriving Repr, DecidableEq, Inhabited

def Misplacement.message : Misplacement → String
  | asClause => "AS clause outside of a definition"
  | likeClause => "LIKE clause outside of a definition"
  | extentClause => "EXTENT clause outside of a definition"
  | tableClause => "table clause outside of a table definition"
  | nestedTable => "table definitions do not nest"
  | bufferWithoutTable => "buffer definitions name their table"

inductive Breach where
  /-- A number under which nothing is stored. -/
  | dangling (entity : Entity) (id size : Nat)
  | noScope
  | noBlock
  | noRoutine
  | noRecordBlock
  | notRoutine
  | notTableBuffer
  | recordWithoutBuffer
  | attachedFieldBuffer
  | frozenTable (name : String)
  | tableWithoutNode
  | noTableDefinition
  /-- A definition is to be closed while another one is the innermost. -/
  | definitionOrder (innermost : Option SymbolId) (closing : SymbolId)
  /-- A scope is left from another block than the one around its code. -/
  | blockLeftOpen (block around : BlockId)
  | rootScopeLeft
  /-- The block around the code of a scope is left as if it were a control block. -/
  | rootBlockLeft
  | blockOutsideScope
  | pendingTableBuffer
  /-- More or less than the root scope is open at the end of a walk. -/
  | scopesOpen (count : Nat)
  | blocksOpen (count : Nat)
  | definitionOpen
  | qualifierLeft
deriving Repr, DecidableEq, Inhabited

/-- The symbol that a definition is of, if there is one, as a breach states it. -/
def Breach.definition : Option SymbolId → String
  | some symbol => "Some(" ++ toString symbol.val ++ ")"
  | none => "None"

/-- Two values that ought to be the same, as a breach states them. -/
def Breach.unequal (what left right : String) : String :=
  "assertion `left == right` failed: " ++ what ++ "\n  left: " ++ left ++ "\n right: " ++ right

def Breach.message : Breach → String
  | dangling _ id size =>
    "index out of bounds: the len is " ++ toString size ++ " but the index is " ++ toString id
  | noScope => "no scope is open"
  | noBlock => "no block is open"
  | noRoutine => "the root scope always has the program routine"
  | noRecordBlock => "every scope's root block scopes records"
  | notRoutine => "forward declarations are routines"
  | notTableBuffer => "field buffers hang off table buffers"
  | recordWithoutBuffer => "record lookups only return table buffers"
  | attachedFieldBuffer => "field buffers are reached through their buffer"
  | frozenTable name => "field added to frozen table '" ++ name ++ "'"
  | tableWithoutNode => "temp-tables keep their DEFINE node"
  | noTableDefinition => "table definition still open"
  | definitionOrder innermost closing =>
    unequal "definitions closed out of order" (definition innermost) (definition (some closing))
  | blockLeftOpen block around =>
    unequal "control block left open at the end of a scope" (toString block.val)
      (toString around.val)
  | rootScopeLeft => "popped the root scope"
  | rootBlockLeft =>
    "assertion `left != right` failed: scope root block popped as a control block\n" ++
      "  left: Root\n right: Root"
  | blockOutsideScope => "current block is outside the current scope"
  | pendingTableBuffer =>
    unequal "temp-table buffers are attached when defined" "Pending" "Attached"
  | scopesOpen count => unequal "scope stack not unwound" (toString count) "1"
  | blocksOpen count => unequal "block stack not unwound" (toString count) "1"
  | definitionOpen => "definition left open"
  | qualifierLeft => "context qualifier assigned to a node that was never visited"

inductive Fault where
  /-- A record that names no buffer and no table. -/
  | unresolvedTable (name file : String) (location : Location)
  | misplaced (what : Misplacement)
  | breach (what : Breach)
deriving Repr, DecidableEq, Inhabited

namespace Fault

def isUnresolvedTable : Fault → Bool
  | unresolvedTable .. => true
  | _ => false

def message : Fault → String
  | unresolvedTable name file location =>
    "could not resolve table '" ++ name ++ "' in " ++ file ++ " at line " ++
      toString location.line.toNat ++ ", column " ++ toString location.column.toNat
  | misplaced what => what.message
  | breach what => what.message

end Fault

end AblResolve
