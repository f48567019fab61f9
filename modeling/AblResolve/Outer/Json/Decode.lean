import AblResolve.Outer.Json.Basic
import AblResolve.Text.Numeral
/-!
Decoding JSON values into records. Unknown members are ignored; a known member may occur once,
and only where a default is given may it be absent. `null` stands only for an absent text that
may be absent.
-/
namespace AblResolve.Json

def text? : Json → Option String
  | .string text => text
  | _ => none

def bool? : Json → Option Bool
  | .bool b => some b
  | _ => none

/-- An integer literal of 32-bit size, without sign, fraction and exponent. -/
def word? : Json → Option UInt32
  | .number literal => Text.digitsValue? literal.toList
  | _ => none

/-- A text, or `null` for none. -/
def optionalText? : Json → Option (Option String)
  | .null => some none
  | json => json.text?.map some

def listOf? {α : Type} (decode : Json → Option α) : Json → Option (List α)
  | .array items => items.mapM decode
  | _ => none

/-- The members of an object, all of whose keys denote a text. -/
def members? : Json → Option (List (String × Json))
  | .object members => members.mapM fun (key, value) => key.map (·, value)
  | _ => none

/-- The value of a member, or none if it is absent; a repeated member is refused. -/
def lookup? (members : List (String × Json)) (key : String) : Option (Option Json) :=
  match members.filter (·.1 == key) with
  | [] => some none
  | [(_, value)] => some (some value)
  | _ => none

/-- A member that has to be present. -/
def required? {α : Type} (members : List (String × Json)) (key : String)
    (decode : Json → Option α) : Option α := do
  decode (← (← lookup? members key))

/-- A member with a default. -/
def optional? {α : Type} (members : List (String × Json)) (key : String) (default : α)
    (decode : Json → Option α) : Option α := do
  match ← lookup? members key with
  | some value => decode value
  | none => some default

end AblResolve.Json
