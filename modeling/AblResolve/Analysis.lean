import AblResolve.Walk.Visit
/-!
Resolving the names of compilation units. An analysis that meets a record without a table leaves
no annotation behind, so that a tree is either resolved or clean.
-/
namespace AblResolve

/-- A tree and what has been written on its nodes. -/
structure CompilationUnit where
  tree : ParseTree
  notes : Annotations

namespace CompilationUnit

/-- The unit of a tree on which nothing is written. -/
def ofTree (tree : ParseTree) : CompilationUnit := ⟨tree, .blank tree.size⟩

/-- The unit with nothing written on its tree. -/
def clear (u : CompilationUnit) : CompilationUnit := ofTree u.tree

/-- Resolves the names of a unit. The tree of the unit that comes back is the same; its
annotations are those of the analysis on top of those it had. -/
def analyze (u : CompilationUnit) (catalog : Catalog) (types : TypeRegistry)
    (options : Options) : Except Fault UnitIndex × CompilationUnit :=
  let env : Env := { tree := u.tree, catalog, types, options }
  match Walk.walkUnit env (Walk.start env u.notes) with
  | .ok _ w => (.ok w.index, { u with notes := w.notes })
  | .error fault w =>
    (.error fault, if fault.isUnresolvedTable then u.clear else { u with notes := w.notes })

end CompilationUnit

/-- Resolves the names of several units, each for itself. A record without a table ends the
analysis of its own unit only. Any other fault lies in how a tree was built and not in the
program it stands for: it ends the whole run, and the first unit with such a fault gives it. -/
def analyzeUnits (units : List CompilationUnit) (catalog : Catalog) (types : TypeRegistry)
    (options : Options) : Except Fault (List (Except Fault UnitIndex × CompilationUnit)) :=
  units.mapM fun u =>
    match u.analyze catalog types options with
    | (.ok index, u) => .ok (.ok index, u)
    | (.error fault, u) => if fault.isUnresolvedTable then .ok (.error fault, u) else .error fault

end AblResolve
