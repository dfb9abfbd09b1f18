import Abacus.Prompt
import Abacus.Token.Display
import Abacus.Tree.Form

/-!
# Abacus.Command

The commands of the program.  A command writes to the output of a fresh session
and ends with an exit code: 0 for success, 65 for a faulty source text, 70 for a
failed run, and 1 when input or output failed.
-/

namespace Abacus

/-- The commands that work on a source file. -/
inductive Command where
  | tokenize
  | parse
  | run (json : Bool)
deriving DecidableEq, Repr

/-- What a command leaves behind: its output, its complaint and its exit code. -/
structure Report where
  output : ByteArray
  complaint : String
  code : UInt32

/-- Why a source file could not be used. -/
inductive FileFailure where
  | opening (cause : String)
  | reading (cause : String)
deriving DecidableEq, Repr

namespace Command

/-! ## What commands do -/

/-- List the tokens of a source text. -/
def listTokens (source : String) : Run Unit :=
  match Abacus.tokenize source with
  | .ok tokens => Run.write (String.join (tokens.map fun t => t.display ++ "\n"))
  | .error e => Run.fail (.source (.lexical e))

/-- List the statements of a source text in prefix form. -/
def listForms (source : String) : Run Unit := do
  let program ← readSource source
  Run.write (String.join (program.map fun s => s.form ++ "\n"))

/-- Run a source text and list the variables it leaves. -/
def runAndList (host : Host) (fuel : Nat) (json : Bool) (source : String) : Run Unit := do
  interpretSource host fuel source
  let listed := (← get).globalBindings
  Run.write (if json then listed.toJson.pretty ++ "\n" else listed.listing)

/-- What a command does with a source text. -/
def perform (host : Host) (fuel : Nat) (source : String) : Command → Run Unit
  | tokenize => listTokens source
  | parse => listForms source
  | run json => runAndList host fuel json source

/-! ## Reports -/

/-- The complaint about an error. -/
def complaint (e : Error) : String := "Error: " ++ e.message ++ "\n"

/-- The complaint about a failed operation and its cause. -/
def complaintWithCause (context cause : String) : String :=
  "Error: " ++ context ++ "\n\nCaused by:\n    " ++ cause ++ "\n"

/-- The exit code of an error. -/
def exitCode (e : Error) : UInt32 := if e.isStatic then 65 else 70

/-- The report of a command on a source text; none if the fuel runs out. -/
def report? (host : Host) (fuel : Nat) (source : String) (command : Command) : Option Report :=
  match command.perform host fuel source (.fresh .unlimited) with
  | .ok _ m => some ⟨m.sink.written, "", 0⟩
  | .error (.failed e) m => some ⟨m.sink.written, complaint e, exitCode e⟩
  | .error .exhausted _ => none

/-- The report of a command whose file could not be used. -/
def fileReport (file : String) : FileFailure → Report
  | .opening cause =>
    ⟨.empty, complaintWithCause ("Failed to open file " ++ Text.quoted file) cause, 1⟩
  | .reading cause =>
    ⟨.empty, complaintWithCause ("Failed to read file " ++ Text.quoted file) cause, 1⟩

/-- The text of the bytes of a source file. -/
def decodeSource (bytes : ByteArray) : Except FileFailure String :=
  match String.fromUTF8? bytes with
  | some source => .ok source
  | none => .error (.reading IoError.invalidText.text)

/-- The report of a command on a source file, given its bytes or why there are
none; none if the fuel runs out. -/
def reportFile? (host : Host) (fuel : Nat) (file : String) (bytes : Except FileFailure ByteArray)
    (command : Command) : Option Report :=
  match bytes.bind decodeSource with
  | .ok source => command.report? host fuel source
  | .error failure => some (fileReport file failure)

/-- The complaint and the exit code of an interactive session that failed. -/
def sessionFailure (e : Error) : String × UInt32 :=
  (complaintWithCause "REPL I/O failure" e.message, 1)

/-- The report of an interactive session over the given input; none if the fuel
runs out. -/
def reportSession? (host : Host) (fuel : Nat) (input : ByteArray) : Option Report :=
  match Prompt.session host fuel input (.fresh .unlimited) with
  | .ok _ m => some ⟨m.sink.written, "", 0⟩
  | .error (.failed e) m => some ⟨m.sink.written, (sessionFailure e).1, (sessionFailure e).2⟩
  | .error .exhausted _ => none

end Command

end Abacus
