import Abacus.Number.Style
import Abacus.Text.Quoted
import Abacus.Value.Basic

/-!
# Abacus.Value.Text

How values are shown: the display text that programs print, and a summary of a
closure for the host.
-/

namespace Abacus

/-- Texts with a comma and a space between them. -/
def listed (texts : List String) : String := String.intercalate ", " texts

namespace Value

mutual
/-- The display text of a value. -/
def display : Value → String
  | number n => Number.display n
  | string s => s
  | boolean b => if b then "true" else "false"
  | list items => "[" ++ listed (displays items) ++ "]"
  | function f => "<function " ++ f.name ++ ">"
  | builtin b => "<builtin " ++ b.name ++ ">"
  | none => "none"

/-- The display texts of values. -/
def displays : List Value → List String
  | [] => []
  | v :: vs => display v :: displays vs
end

end Value

/-- The name and the parameters of a closure in one line. -/
def Closure.summary (f : Closure) : String :=
  "Function \x7b name: " ++ Text.quoted f.name ++
    ", params: [" ++ listed (f.params.map Text.quoted) ++ "], .. \x7d"

end Abacus
