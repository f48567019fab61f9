/-!
Places in the source files of a compilation unit. Lines and columns are counted from one, and
columns count characters.
-/
namespace AblResolve

/-- Lines and columns are numbers of 32 bits; a place beyond them cannot be stated. -/
inductive PlaceError where
  | overflow
deriving Repr, DecidableEq, Inhabited

def PlaceError.message : PlaceError → String
  | overflow => "attempt to add with overflow"

/-- The line or column that lies `steps` after `n`. -/
def advance (n steps : UInt32) : Except PlaceError UInt32 :=
  if n.toNat + steps.toNat < UInt32.size then .ok (n + steps) else .error .overflow

theorem toNat_of_advance {n steps m : UInt32} (h : advance n steps = .ok m) :
    m.toNat = n.toNat + steps.toNat := by
  unfold advance at h
  split at h
  · rename_i hlt
    cases h
    rw [UInt32.toNat_add]
    exact Nat.mod_eq_of_lt hlt
  · cases h

/-- A stretch of text: the file it is in, by its position in the unit's list of files, and
where it begins and ends. -/
structure Location where
  file : UInt32 := 0
  line : UInt32 := 0
  column : UInt32 := 0
  endLine : UInt32 := 0
  endColumn : UInt32 := 0
deriving Repr, DecidableEq, Inhabited

namespace Location

/-- The place at one position. -/
def point (file line column : UInt32) : Location :=
  ⟨file, line, column, line, column⟩

/-- The same beginning with another end. -/
def withEnd (l : Location) (line column : UInt32) : Location :=
  { l with endLine := line, endColumn := column }

/-- Places are ordered by file, then by beginning, then by end. -/
def cmp (a b : Location) : Ordering :=
  ((((compare a.file b.file).then (compare a.line b.line)).then
    (compare a.column b.column)).then (compare a.endLine b.endLine)).then
    (compare a.endColumn b.endColumn)

/-- The beginning, as `file:line:column`. -/
def render (l : Location) : String :=
  toString l.file.toNat ++ ":" ++ toString l.line.toNat ++ ":" ++ toString l.column.toNat

end Location

end AblResolve
