/-!
Names of the analysed language are compared without regard to the case of ASCII letters; all
other characters are compared as they are. `same` is therefore equality of folded names.
-/
namespace AblResolve.Text

/-- The name with its ASCII letters in lower case. -/
def fold (name : String) : String := name.map Char.toLower

/-- Two spellings of one name. -/
def same (a b : String) : Bool := fold a == fold b

/-- `short` is a proper abbreviation of `long`: fewer bytes, and a beginning of it. -/
def abbreviates (short long : String) : Bool :=
  decide (short.utf8ByteSize < long.utf8ByteSize) &&
    (fold short).toList.isPrefixOf (fold long).toList

theorem same_iff {a b : String} : same a b = true ↔ fold a = fold b := by
  simp [same]

theorem same_refl (a : String) : same a a = true := by simp [same]

theorem same_symm {a b : String} (h : same a b = true) : same b a = true :=
  same_iff.2 (same_iff.1 h).symm

theorem same_trans {a b c : String} (h : same a b = true) (k : same b c = true) :
    same a c = true :=
  same_iff.2 ((same_iff.1 h).trans (same_iff.1 k))

end AblResolve.Text
