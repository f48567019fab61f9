import AblResolve.Tree.Basic
/-!
What resolution writes on the nodes of a tree. The tree itself never changes; its annotations
are kept beside it, one for each node.
-/
namespace AblResolve

/-- How a construct uses what a name below it stands for. -/
inductive Qualifier where
  /-- It is read. -/
  | ref
  /-- It is read and written. -/
  | refUp
  /-- It is written. -/
  | updating
  /-- A record whose buffer is bound to the enclosing block. -/
  | init
  /-- A record whose buffer is bound weakly to the current block. -/
  | initWeak
  /-- Its name is looked up, nothing more. -/
  | symbol
  /-- The name of an existing buffer is looked up. -/
  | bufferSymbol
  /-- The name of a temp-table is looked up. -/
  | tempTableSymbol
  /-- The name of a table of the catalog is looked up. -/
  | schemaTableSymbol
deriving Repr, DecidableEq, Inhabited

namespace Qualifier

def all : List Qualifier :=
  [ref, refUp, updating, init, initWeak, symbol, bufferSymbol, tempTableSymbol,
    schemaTableSymbol]

/-- The position in `all`. -/
def index : Qualifier → Fin 9
  | ref => 0
  | refUp => 1
  | updating => 2
  | init => 3
  | initWeak => 4
  | symbol => 5
  | bufferSymbol => 6
  | tempTableSymbol => 7
  | schemaTableSymbol => 8

def isWrite : Qualifier → Bool
  | refUp | updating => true
  | _ => false

def render : Qualifier → String
  | ref => "REF"
  | refUp => "REFUP"
  | updating => "UPDATING"
  | init => "INIT"
  | initWeak => "INITWEAK"
  | symbol => "SYMBOL"
  | bufferSymbol => "BUFFERSYMBOL"
  | tempTableSymbol => "TEMPTABLESYMBOL"
  | schemaTableSymbol => "SCHEMATABLESYMBOL"

theorem index_injective {p q : Qualifier} (h : p.index = q.index) : p = q := by
  cases p <;> cases q <;> simp_all [index]

end Qualifier

/-- Where the value of a resolved name is stored. -/
inductive Store where
  | variable | dbTable | tempTable | workTable
deriving Repr, DecidableEq, Inhabited

structure Annotation where
  symbol : Option SymbolId := none
  scope : Option ScopeId := none
  block : Option BlockId := none
  bufferScope : Option BufferScopeId := none
  store : Option Store := none
  qualifier : Option Qualifier := none
  /-- The name abbreviates that of the table or field it stands for. -/
  abbreviated : Bool := false
  /-- A field of a table, named without its table. -/
  unqualified : Bool := false
deriving Repr, DecidableEq, Inhabited

structure Annotations where
  cells : Arena .node Annotation
deriving Repr, DecidableEq, Inhabited

namespace Annotations

/-- Nothing is written on any of `size` nodes. -/
def blank (size : Nat) : Annotations := ⟨⟨Array.replicate size {}⟩⟩

def get (a : Annotations) (n : NodeId) : Annotation := (a.cells.get? n).getD {}

/-- Changes what is written on a node. Every number can be written on: the cells reach as far as
something has been written. -/
def update (a : Annotations) (n : NodeId) (f : Annotation → Annotation) : Annotations :=
  ⟨(a.cells.pushAll (List.replicate (n.val + 1 - a.cells.size) {})).update n f⟩

@[simp] theorem get_blank (size : Nat) (n : NodeId) : (blank size).get n = {} := by
  simp only [get, blank, Arena.get?, Array.getElem?_replicate]
  split <;> rfl

theorem get_update (a : Annotations) (n m : NodeId) (f : Annotation → Annotation) :
    (a.update n f).get m = if n = m then f (a.get m) else a.get m := by
  simp only [get, update, Arena.get?_update, Arena.get?_pushAll, Id.ext_iff]
  by_cases hm : m.val < a.cells.size
  · obtain ⟨x, hx⟩ := Option.isSome_iff_exists.1 (Arena.get?_isSome_iff.2 hm)
    split <;> simp [hx]
  · have hnone : a.cells.get? m = none := by
      simpa using mt Arena.get?_isSome_iff.1 hm
    rw [if_neg hm, List.getElem?_replicate, hnone]
    split
    · rw [if_pos (by omega)]
      rfl
    · split <;> rfl

@[simp] theorem get_update_self (a : Annotations) (n : NodeId) (f : Annotation → Annotation) :
    (a.update n f).get n = f (a.get n) := by
  simp [get_update]

theorem get_update_of_ne {n m : NodeId} (h : n ≠ m) (a : Annotations)
    (f : Annotation → Annotation) : (a.update n f).get m = a.get m := by
  simp [get_update, h]

end Annotations

end AblResolve
