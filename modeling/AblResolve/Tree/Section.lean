import AblResolve.Text.Blank
import AblResolve.Text.Fold
/-!
Code sections of generated programs. The attributes of a section, separated by commas, tell
whether the program's generator lets its user edit the section.
-/
namespace AblResolve.Section

/-- A text divided at its commas. -/
def splitCommas : List Char → List (List Char)
  | [] => [[]]
  | c :: rest =>
    if c = ',' then [] :: splitCommas rest
    else
      match splitCommas rest with
      | [] => [[c]]
      | part :: parts => (c :: part) :: parts

/-- The attributes: trimmed, the empty ones left out. -/
def attributes (text : String) : List String :=
  (((splitCommas text.toList).map Text.trim).filter (!·.isEmpty)).map String.ofList

/-- Whether a code block with these attributes, after the first, can be edited. The markers of
procedures and functions count only in capitals. -/
def isEditableBlock : List String → Bool
  | second :: rest =>
    (Text.same second "_CUSTOM" &&
      match rest with
      | third :: _ => Text.same third "_DEFINITIONS"
      | [] => false) ||
    Text.same second "_CONTROL" ||
    (second == "_PROCEDURE" &&
      match rest with
      | [_, _] => true
      | [_, _, last] => last == "_FREEFORM"
      | _ => false) ||
    second == "_FUNCTION"
  | [] => false

/-- Whether the section with this attribute text can be edited. -/
def isEditable (text : String) : Bool :=
  match attributes text with
  | first :: rest => Text.same first "_UIB-CODE-BLOCK" && isEditableBlock rest
  | [] => false

end AblResolve.Section
