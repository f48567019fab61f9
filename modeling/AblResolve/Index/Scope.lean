import AblResolve.ClassInfo.Basic
import AblResolve.Index.NameTable
/-!
Lexical scopes. They form a tree with the scope of the program or class at its root; each has
the names defined in it and a block that encloses all its code.
-/
namespace AblResolve

inductive ScopeKind where
  | program | classBody | interface | procedure | function | method | constructor | destructor
  | propertyAccessor | trigger | catch
deriving Repr, DecidableEq, Inhabited

def ScopeKind.render : ScopeKind → String
  | program => "program"
  | classBody => "class"
  | interface => "interface"
  | procedure => "procedure"
  | function => "function"
  | method => "method"
  | constructor => "constructor"
  | destructor => "destructor"
  | propertyAccessor => "property accessor"
  | trigger => "trigger"
  | .catch => "catch"

structure Scope where
  parent : Option ScopeId
  kind : ScopeKind
  /-- The node that opened it. -/
  node : NodeId
  /-- The block that encloses its code. -/
  rootBlock : BlockId
  /-- The routine whose body it is. -/
  routine : Option SymbolId := none
  /-- The class defined by the unit, in the root scope. -/
  className : Option String := none
  typeInfo : Option TypeInfo := none
  names : NameTable := {}
  /-- The default buffers of catalog tables, in the order of their first use. -/
  unnamedBuffers : List (TableId × SymbolId) := []
deriving Repr, DecidableEq, Inhabited

namespace Scope

/-- A name defined in this very scope. -/
def find? (s : Scope) (space : Namespace) (name : String) : Option SymbolId :=
  s.names.find? space name

def unnamedBuffer? (s : Scope) (t : TableId) : Option SymbolId :=
  (s.unnamedBuffers.find? (·.1 = t)).map (·.2)

/-- The buffers that fields without a table name are searched in. -/
def buffers (s : Scope) : List SymbolId :=
  (s.names.inNamespace .buffer).map (·.symbol) ++ (s.names.inNamespace .table).map (·.symbol) ++
    s.unnamedBuffers.map (·.2)

end Scope

end AblResolve
