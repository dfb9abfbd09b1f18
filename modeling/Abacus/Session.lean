import Abacus.Eval.Evaluate
import Abacus.Json

/-!
# Abacus.Session

Sessions.  The outermost scope of a machine keeps the variables from one source
to the next.  A source is read as a whole before any of it is run; a trailing
bare expression gives the source its value.
-/

namespace Abacus

/-- The outermost scope of a session. -/
def globals : FrameId := 0

/-- The state of a fresh session that writes to the given sink. -/
def Machine.fresh (sink : Sink) : Machine := ⟨Heap.empty.newRoot, sink, 0, 0⟩

/-- The variables of a session in ascending order of names. -/
def Machine.globalBindings (m : Machine) : Bindings := m.heap.snapshot globals

/-! ## Running sources -/

/-- Read a source text, or stop with its fault. -/
def readSource (source : String) : Run (List Stmt) :=
  match parseSource source with
  | .ok program => pure program
  | .error e => Run.fail (.source e)

/-- Run top-level statements in order. -/
def runProgram (host : Host) (fuel : Nat) : List Stmt → Run Unit
  | [] => pure ()
  | s :: rest => do
    discard (execute host fuel s globals)
    runProgram host fuel rest

/-- The statements of a program before its trailing bare expression, and that
expression if there is one. -/
def splitLast : List Stmt → List Stmt × Option Expr
  | [] => ([], none)
  | [.expression e] => ([], some e)
  | s :: rest =>
    let (init, last) := splitLast rest
    (s :: init, last)

/-- Read and run a source text.  Its value is that of a trailing bare
expression. -/
def runSource (host : Host) (fuel : Nat) (source : String) : Run (Option Value) := do
  let program ← readSource source
  let (init, last) := splitLast program
  runProgram host fuel init
  match last with
  | some e => return some (← evaluate host fuel e globals)
  | none => return none

/-- Read and run a source text for its effects. -/
def interpretSource (host : Host) (fuel : Nat) (source : String) : Run Unit := do
  let program ← readSource source
  runProgram host fuel program

/-- Read a source text and run it as a block, in a fresh scope inside the
outermost one.  The result is how it ended and the scope it ran in. -/
def runAsBlock (host : Host) (fuel : Nat) (source : String) : Run (Flow × FrameId) := do
  let program ← readSource source
  let scope ← Run.newChild globals
  let flow ← executeBlock host fuel program scope
  return (flow, scope)

/-- The text that answers a submission: its value, unless it has none. -/
def echo? : Option Value → Option String
  | none => none
  | some .none => none
  | some v => some v.display

/-- Run a submission and give the text that answers it. -/
def runSubmission (host : Host) (fuel : Nat) (source : String) : Run (Option String) := do
  return echo? (← runSource host fuel source)

/-! ## Listing variables -/

/-- Bindings as a JSON object. -/
def Bindings.toJson (bs : Bindings) : Json := .object (bs.map fun b => (b.1, b.2.toJson))

/-- The lines that list bindings. -/
def Bindings.listing (bs : Bindings) : String :=
  "Variables:\n" ++ String.join (bs.map fun b => "  " ++ b.1 ++ " = " ++ b.2.display ++ "\n")

end Abacus
