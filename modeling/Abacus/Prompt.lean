import Abacus.Session
import Abacus.Token.Balance

/-!
# Abacus.Prompt

The interactive prompt.  Lines are collected until their braces balance and are
then run as one submission; its value or its error is answered, and the session
goes on either way.  Everything is written to the output of the session.
-/

namespace Abacus

namespace Prompt

/-! ## Lines of input -/

/-- Cut bytes after each line break. -/
def cutLines : List UInt8 → List (List UInt8)
  | [] => []
  | b :: bs =>
    if b = 10 then [b] :: cutLines bs
    else
      match cutLines bs with
      | [] => [[b]]
      | line :: lines => (b :: line) :: lines

/-- A line of input: its text, line break included, or a failure to read it. -/
abbrev Line := Except IoError String

/-- The text of the bytes of a line. -/
def decodeLine (bytes : List UInt8) : Line :=
  match String.fromUTF8? bytes.toByteArray with
  | some s => .ok s
  | none => .error .invalidText

/-- The lines of an input. -/
def lines (input : ByteArray) : List Line := (cutLines input.toList).map decodeLine

/-! ## One line at a time -/

/-- The greeting. -/
def banner : String :=
  "Welcome to MathScript REPL\nType 'exit' or press Ctrl+D to quit\n"

/-- The sign that asks for a line, given the lines that wait for more. -/
def sign (pending : String) : String := if pending = "" then ">>> " else "... "

/-- Ask for a line. -/
def ask (pending : String) : Run Unit := do
  Run.write (sign pending)
  Run.flush

/-- Run a submission and write its answer, be it a value or an error. -/
def submit (host : Host) (fuel : Nat) (source : String) : Run Unit := fun m =>
  match runSubmission host fuel source m with
  | .ok (some text) m => Run.write (text ++ "\n") m
  | .ok none m => .ok () m
  | .error (.failed e) m => Run.write ("Error: " ++ e.message ++ "\n") m
  | .error .exhausted m => .error .exhausted m

/-- What to do with a line. -/
inductive Action where
  /-- Leave the line out. -/
  | skip
  /-- End the session. -/
  | leave
  /-- Wait for more lines after these. -/
  | wait (pending : String)
  /-- Run these lines. -/
  | run (source : String)
deriving DecidableEq, Repr

/-- What to do with a line that follows the waiting ones.  Blank lines and the
words that end the session count only when nothing waits. -/
def action (pending line : String) : Action :=
  let word := String.ofList (Text.trim line.toList)
  if pending = "" ∧ word = "" then .skip
  else if pending = "" ∧ (word = "exit" ∨ word = "quit") then .leave
  else if 0 < openBraces (pending ++ line) then .wait (pending ++ line)
  else .run (pending ++ line)

/-- Take a line that follows the waiting ones; the result is what waits now, or
nothing if the session is over. -/
def take (host : Host) (fuel : Nat) (pending line : String) : Run (Option String) :=
  match action pending line with
  | .skip => return some pending
  | .leave => return none
  | .wait pending => return some pending
  | .run source => do
    submit host fuel source
    return some ""

/-! ## Whole sessions -/

/-- Ask for lines and take them until they run out or end the session. -/
def converse (host : Host) (fuel : Nat) (pending : String) : List Line → Run Unit
  | [] => do
    ask pending
    Run.write "\n"
  | line :: rest => do
    ask pending
    match line with
    | .error e => Run.fail (.io e)
    | .ok text =>
      match ← take host fuel pending text with
      | none => return ()
      | some pending => converse host fuel pending rest

/-- A whole interactive session over the given input. -/
def session (host : Host) (fuel : Nat) (input : ByteArray) : Run Unit := do
  Run.write banner
  converse host fuel "" (lines input)

end Prompt

end Abacus
