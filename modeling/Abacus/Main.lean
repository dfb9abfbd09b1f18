import Abacus.Command

/-!
# Abacus.Main

The command line.  It finds the command among the arguments, reads the source
file or the lines of the terminal, and writes what the command leaves behind.
-/

namespace Abacus

namespace CommandLine

/-- Fuel that no run uses up. -/
def fuel : Nat := 4611686018427387904

/-- What the arguments ask for: the words among them and the options. -/
structure Request where
  words : List String
  json : Bool
  maxDepth : Nat

/-- The number that a text of digits spells. -/
def limit? (s : String) : Option Nat :=
  if s = "" || !s.toList.all Text.isDigit then none
  else some (Number.digitsValue s.toList)

/-- Sort the arguments into words and options; none if they make no sense. -/
def Request.read? (r : Request) : List String → Option Request
  | [] => some { r with words := r.words.reverse }
  | "--json" :: rest => read? { r with json := true } rest
  | "--log" :: rest => read? r rest
  | "--max-depth" :: n :: rest =>
    (limit? n).bind fun limit => read? { r with maxDepth := limit } rest
  | word :: rest =>
    if word.startsWith "-" then none else read? { r with words := word :: r.words } rest

/-- Write a report and give its exit code. -/
def finish (report : Report) : IO UInt32 := do
  let output ← IO.getStdout
  output.write report.output
  output.flush
  IO.eprint report.complaint
  return report.code

/-- The bytes of a file, or why there are none. -/
def fileBytes (file : String) : IO (Except FileFailure ByteArray) := do
  try
    return .ok (← IO.FS.readBinFile file)
  catch e =>
    match e with
    | .noFileOrDirectory _ _ _ =>
      return .error (.opening "No such file or directory (os error 2)")
    | .permissionDenied _ _ _ => return .error (.opening "Permission denied (os error 13)")
    | .inappropriateType _ _ _ => return .error (.reading "Is a directory (os error 21)")
    | e => return .error (.reading (toString e))

/-- Run a command on a file. -/
def onFile (host : Host) (command : Command) (file : String) : IO UInt32 := do
  let bytes ← fileBytes file
  match command.reportFile? host fuel file bytes with
  | some report => finish report
  | none => return 70

/-- Let a computation change the machine, and write what it wrote. -/
def perform {α : Type} (m : Machine) (x : Run α) : IO (Except Stop α × Machine) := do
  let (result, m) := match x m with
    | .ok a m => (Except.ok a, m)
    | .error e m => (.error e, m)
  let output ← IO.getStdout
  output.write m.sink.written
  output.flush
  return (result, { m with sink := .unlimited })

/-- The bytes of a line of the terminal, line break included, after those
already read in reverse. -/
partial def readBytes (stdin : IO.FS.Stream) (before : List UInt8) : IO (List UInt8) := do
  match (← stdin.read 1).toList with
  | [] => return before.reverse
  | b :: _ => if b = 10 then return (b :: before).reverse else readBytes stdin (b :: before)

/-- A line of the terminal; none at the end of input. -/
def readLine : IO (Option Prompt.Line) := do
  let bytes ← readBytes (← IO.getStdin) []
  return if bytes.isEmpty then none else some (Prompt.decodeLine bytes)

/-- Give the exit code of an interactive session that stopped. -/
def stopped : Stop → IO UInt32
  | .failed e => do
    IO.eprint (Command.sessionFailure e).1
    return (Command.sessionFailure e).2
  | .exhausted => return 70

/-- Ask for lines and take them until they run out or end the session. -/
partial def converse (host : Host) (pending : String) (m : Machine) : IO UInt32 := do
  let (asked, m) ← perform m (Prompt.ask pending)
  if let .error e := asked then return ← stopped e
  match ← readLine with
  | none =>
    discard (perform m (Run.write "\n"))
    return 0
  | some (.error e) => stopped (.failed (.io e))
  | some (.ok line) =>
    let (taken, m) ← perform m (Prompt.take host fuel pending line)
    match taken with
    | .error e => stopped e
    | .ok none => return 0
    | .ok (some pending) => converse host pending m

/-- Run an interactive session on the terminal. -/
def session (host : Host) : IO UInt32 := do
  let (_, m) ← perform (.fresh .unlimited) (Run.write Prompt.banner)
  converse host "" m

end CommandLine

end Abacus

open Abacus CommandLine in
/-- The program. -/
def main (args : List String) : IO UInt32 := do
  let usage : IO UInt32 := do
    IO.eprintln "usage: (tokenize | parse | run [--json] | repl) [file] [--max-depth n] [--log]"
    return 2
  match Request.read? ⟨[], false, Host.defaultMaxDepth⟩ args with
  | none => usage
  | some request =>
    let host := { Host.standard with maxDepth := request.maxDepth }
    match request.words with
    | ["tokenize", file] => onFile host .tokenize file
    | ["parse", file] => onFile host .parse file
    | ["run", file] => onFile host (.run request.json) file
    | ["repl"] => session host
    | _ => usage
