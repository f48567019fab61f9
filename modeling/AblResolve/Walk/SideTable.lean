import AblResolve.Arena
/-!
Notes that a construct leaves for the nodes below it. A note is left before its node is visited
and taken away by the visit.
-/
namespace AblResolve

structure SideTable (α : Type) where
  entries : List (NodeId × α) := []
deriving Repr, DecidableEq, Inhabited

namespace SideTable

variable {α : Type}

def find? (t : SideTable α) (n : NodeId) : Option α :=
  (t.entries.find? (·.1 = n)).map (·.2)

def erase (t : SideTable α) (n : NodeId) : SideTable α :=
  ⟨t.entries.filter (·.1 ≠ n)⟩

/-- Leaves a note for a node, in place of one it may have. -/
def set (t : SideTable α) (n : NodeId) (value : α) : SideTable α :=
  ⟨(n, value) :: (t.erase n).entries⟩

/-- The note of a node, and the table without it. -/
def take (t : SideTable α) (n : NodeId) : Option α × SideTable α :=
  (t.find? n, t.erase n)

def size (t : SideTable α) : Nat := t.entries.length

theorem find?_erase (t : SideTable α) (n m : NodeId) :
    (t.erase n).find? m = if n = m then none else t.find? m := by
  obtain ⟨entries⟩ := t
  simp only [find?, erase]
  induction entries with
  | nil => split <;> rfl
  | cons e rest ih =>
    by_cases hn : e.1 = n <;> by_cases hm : e.1 = m <;> by_cases hnm : n = m <;>
      simp_all

theorem find?_set (t : SideTable α) (n m : NodeId) (value : α) :
    (t.set n value).find? m = if n = m then some value else t.find? m := by
  by_cases h : n = m
  · simp [find?, set, h]
  · have := find?_erase t n m
    simp_all [find?, set]

@[simp] theorem find?_set_self (t : SideTable α) (n : NodeId) (value : α) :
    (t.set n value).find? n = some value := by
  simp [find?_set]

@[simp] theorem find?_erase_self (t : SideTable α) (n : NodeId) : (t.erase n).find? n = none := by
  simp [find?_erase]

end SideTable

end AblResolve
