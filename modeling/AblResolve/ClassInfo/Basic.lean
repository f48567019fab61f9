import AblResolve.Text.Fold
/-!
What is known of compiled classes and interfaces. A later entry for a type takes the place of an
earlier one.
-/
namespace AblResolve

structure TypeInfo where
  typeName : String
  parentTypeName : Option String := none
  isInterface : Bool := false
  isAbstract : Bool := false
  isFinal : Bool := false
  interfaces : List String := []
deriving Repr, DecidableEq, Inhabited

/-- Types in the order of their first entry. -/
structure TypeRegistry where
  types : List TypeInfo := []
deriving Repr, DecidableEq, Inhabited

namespace TypeRegistry

def find? (r : TypeRegistry) (name : String) : Option TypeInfo :=
  r.types.find? fun info => Text.same info.typeName name

def insert (r : TypeRegistry) (info : TypeInfo) : TypeRegistry :=
  if (r.find? info.typeName).isSome then
    ⟨r.types.map fun old => if Text.same old.typeName info.typeName then info else old⟩
  else ⟨r.types ++ [info]⟩

def ofList (infos : List TypeInfo) : TypeRegistry := infos.foldl insert {}

def size (r : TypeRegistry) : Nat := r.types.length

/-- Two classes, for examples. -/
def sample : TypeRegistry :=
  ofList [
    { typeName := "acme.Customer", parentTypeName := some "Progress.Lang.Object",
      isFinal := true, interfaces := ["acme.IEntity"] },
    { typeName := "acme.IEntity", isInterface := true }]

end TypeRegistry

end AblResolve
