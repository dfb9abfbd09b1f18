import Abacus.Number.Read
import Abacus.Number.Style
import Abacus.Token.Basic

/-!
# Abacus.Token.Display

Token listings.  A line of a listing is the tag of a token, its text and its
literal value, where tokens without a value have `null`.
-/

namespace Abacus

namespace Token

/-- The literal value of a token in a listing. -/
def literal (t : Token) : String :=
  match t.kind with
  | .string s => s
  | .number =>
    match Number.read? t.lexeme with
    | some x => Number.literal x
    | none => "null"
  | _ => "null"

/-- The line of a token in a listing. -/
def display (t : Token) : String := t.kind.tag ++ " " ++ t.lexeme ++ " " ++ t.literal

end Token

end Abacus
