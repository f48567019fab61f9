import AblResolve.Outer.Json.Basic
import AblResolve.Outer.Json.Lexer
/-!
JSON values from their lexemes, by an automaton that keeps the arrays and objects still open.
Exactly one value is accepted, with nothing after it.
-/
namespace AblResolve.Json

/-- An open array or object; its items are in reverse order. -/
inductive Container where
  | items (done : List Json)
  | members (done : List (Option String × Json)) (key : Option String)

/-- What the next lexeme has to be. -/
inductive Expect where
  /-- A value. -/
  | value
  /-- The first item of an array, or its end. -/
  | item
  /-- The first member of an object, or its end. -/
  | member
  /-- A further member of an object with these members. -/
  | key (done : List (Option String × Json))
  /-- The colon after a key. -/
  | colon (done : List (Option String × Json)) (key : Option String)
  /-- This value is complete: a comma, the end of its container, or the end of the text. -/
  | after (value : Json)

structure ReadState where
  inside : List Container
  expect : Expect

/-- A value begins, or is complete at once. -/
def beginValue? (inside : List Container) : Lexeme → Option ReadState
  | .null => some ⟨inside, .after .null⟩
  | .bool b => some ⟨inside, .after (.bool b)⟩
  | .number literal => some ⟨inside, .after (.number literal)⟩
  | .string text => some ⟨inside, .after (.string text)⟩
  | .openArray => some ⟨.items [] :: inside, .item⟩
  | .openObject => some ⟨inside, .member⟩
  | _ => none

def ReadState.step? (state : ReadState) (lexeme : Lexeme) : Option ReadState :=
  match state.expect, lexeme with
  | .value, l => beginValue? state.inside l
  | .item, .closeArray =>
    match state.inside with
    | .items done :: inside => some ⟨inside, .after (.array done.reverse)⟩
    | _ => none
  | .item, l => beginValue? state.inside l
  | .member, .closeObject => some ⟨state.inside, .after (.object [])⟩
  | .member, .string key => some ⟨state.inside, .colon [] key⟩
  | .key done, .string key => some ⟨state.inside, .colon done key⟩
  | .colon done key, .colon => some ⟨.members done key :: state.inside, .value⟩
  | .after value, .comma =>
    match state.inside with
    | .items done :: inside => some ⟨.items (value :: done) :: inside, .value⟩
    | .members done key :: inside => some ⟨inside, .key ((key, value) :: done)⟩
    | [] => none
  | .after value, .closeArray =>
    match state.inside with
    | .items done :: inside => some ⟨inside, .after (.array (value :: done).reverse)⟩
    | _ => none
  | .after value, .closeObject =>
    match state.inside with
    | .members done key :: inside =>
      some ⟨inside, .after (.object ((key, value) :: done).reverse)⟩
    | _ => none
  | _, _ => none

def readFrom? : ReadState → List Lexeme → Option Json
  | ⟨[], .after value⟩, [] => some value
  | _, [] => none
  | state, lexeme :: rest => (state.step? lexeme).bind (readFrom? · rest)

/-- The value a text denotes. -/
def parse? (text : String) : Option Json := do
  readFrom? ⟨[], .value⟩ (← lex? text)

end AblResolve.Json
