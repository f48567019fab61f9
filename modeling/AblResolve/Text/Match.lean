import AblResolve.Text.Fold
/-!
Matching a name against a list of candidates. A candidate spelled out wins over abbreviated
ones; an abbreviation counts only if it abbreviates exactly one entry of the list.
-/
namespace AblResolve.Text

/-- The candidate a name stands for, and whether the name abbreviates it. -/
structure Match (α : Type) where
  item : α
  abbreviated : Bool
deriving Repr, DecidableEq

/-- The candidate that `name` stands for. -/
def matchName {α : Type} (name : String) (candidates : List (String × α))
    (mayAbbreviate : Bool) : Option (Match α) :=
  match candidates.find? fun c => same c.1 name with
  | some (_, item) => some ⟨item, false⟩
  | none =>
    if mayAbbreviate && name != "" then
      match candidates.filter fun c => abbreviates name c.1 with
      | [(_, item)] => some ⟨item, true⟩
      | _ => none
    else none

end AblResolve.Text
