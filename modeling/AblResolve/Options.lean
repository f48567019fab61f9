/-!
The choices a run of the analysis takes.
-/
namespace AblResolve

structure Options where
  /-- Whether visits of nodes are to be logged; resolution does not depend on it. -/
  traceRules : Bool := false
  /-- Whether to list the nodes whose qualifier nothing determined. -/
  recordDefaultedQualifiers : Bool := false
deriving Repr, DecidableEq, Inhabited

end AblResolve
