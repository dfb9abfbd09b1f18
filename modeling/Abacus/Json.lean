import Abacus.Value.Text

/-!
# Abacus.Json

Values as JSON.  `Json.compact` writes a document on one line, `Json.pretty`
puts each element on a line of its own, indented by two spaces per level.
Functions become their display text, and what has no JSON number becomes null.
-/

namespace Abacus

/-- JSON documents.  Members of an object keep their order. -/
inductive Json where
  | null
  | boolean (b : Bool)
  | number (n : Float)
  | string (s : String)
  | array (items : List Json)
  | object (members : List (String × Json))

namespace Json

/-! ## Strings -/

/-- A character as it stands in a JSON string. -/
def escape (c : Char) : List Char :=
  match c with
  | '"' => ['\\', '"']
  | '\\' => ['\\', '\\']
  | '\x08' => ['\\', 'b']
  | '\x0c' => ['\\', 'f']
  | '\n' => ['\\', 'n']
  | '\r' => ['\\', 'r']
  | '\t' => ['\\', 't']
  | c =>
    if c.toNat < 0x20 then
      ['\\', 'u', '0', '0', Nat.digitChar (c.toNat / 16), Nat.digitChar (c.toNat % 16)]
    else [c]

/-- A JSON string. -/
def quoted (s : String) : String :=
  String.ofList ('"' :: (s.toList.flatMap escape ++ ['"']))

/-! ## Documents -/

mutual
/-- A document on one line without spaces. -/
def compact : Json → String
  | null => "null"
  | boolean b => if b then "true" else "false"
  | number n => Style.json.text n
  | string s => quoted s
  | array items => "[" ++ String.intercalate "," (compacts items) ++ "]"
  | object members => "\x7b" ++ String.intercalate "," (compactMembers members) ++ "\x7d"

/-- Documents on one line each. -/
def compacts : List Json → List String
  | [] => []
  | j :: js => compact j :: compacts js

/-- Members on one line each. -/
def compactMembers : List (String × Json) → List String
  | [] => []
  | (key, j) :: rest => (quoted key ++ ":" ++ compact j) :: compactMembers rest
end

/-- The start of a line at the given level. -/
def indent (level : Nat) : String := "\n" ++ String.ofList (List.replicate (2 * level) ' ')

/-- Lines between brackets, each on a line of its own one level further in. -/
def bracketed (opening closing : String) (level : Nat) : List String → String
  | [] => opening ++ closing
  | lines =>
    opening ++ indent (level + 1) ++ String.intercalate ("," ++ indent (level + 1)) lines ++
      indent level ++ closing

mutual
/-- A document over several lines, at the given level. -/
def prettyAt (level : Nat) : Json → String
  | array items => bracketed "[" "]" level (prettyItems (level + 1) items)
  | object members => bracketed "\x7b" "\x7d" level (prettyMembers (level + 1) members)
  | j => compact j

/-- The elements of an array over several lines. -/
def prettyItems (level : Nat) : List Json → List String
  | [] => []
  | j :: js => prettyAt level j :: prettyItems level js

/-- The members of an object over several lines. -/
def prettyMembers (level : Nat) : List (String × Json) → List String
  | [] => []
  | (key, j) :: rest => (quoted key ++ ": " ++ prettyAt level j) :: prettyMembers level rest
end

/-- A document over several lines. -/
def pretty (j : Json) : String := prettyAt 0 j

end Json

namespace Value

mutual
/-- A value as a JSON document. -/
def toJson : Value → Json
  | number n => .number n
  | string s => .string s
  | boolean b => .boolean b
  | list items => .array (toJsons items)
  | function f => .string (display (function f))
  | builtin b => .string (display (builtin b))
  | none => .null

/-- Values as JSON documents. -/
def toJsons : List Value → List Json
  | [] => []
  | v :: vs => toJson v :: toJsons vs
end

end Value

end Abacus
