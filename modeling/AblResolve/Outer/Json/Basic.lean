/-!
JSON values as they are written. A number keeps its literal, because `2`, `2.0` and `2e0` are
different to a reader that asks for an integer. A string with an unpaired surrogate escape is
well formed but denotes no text; it is kept as `none`. Members stay in order, repeated keys
included.

The modules below `Outer` belong to the program around the library, with the readers of catalogs and
types and the reports on findings: they do what a JSON library and a renderer of reports do. The
analysis and its theory depend on none of them.
-/
namespace AblResolve

inductive Json where
  | null
  | bool (value : Bool)
  | number (literal : String)
  | string (text : Option String)
  | array (items : List Json)
  | object (members : List (Option String × Json))
deriving Inhabited

end AblResolve
