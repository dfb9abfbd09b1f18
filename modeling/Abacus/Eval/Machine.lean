import Abacus.Builtin.Registry
import Abacus.Scope

/-!
# Abacus.Eval.Machine

The state of a run and the steps on it.  A `Machine` holds the scopes, the
output and two counters: how many blocks and calls are open, and how many of
them are calls.  A `Run` changes the machine and gives a value, or stops; it
keeps the machine when it stops.  Stopping for want of fuel is apart from every
error, so an answer is never mistaken for the lack of one.
-/

namespace Abacus

/-- The state of a run. -/
structure Machine where
  heap : Heap
  sink : Sink
  /-- How many blocks and calls are open. -/
  depth : Nat
  /-- How many calls are open. -/
  calls : Nat

/-- Why a run stops without a value. -/
inductive Stop where
  | failed (e : Error)
  | exhausted

/-- Computations on a machine. -/
abbrev Run (α : Type) := EStateM Stop Machine α

namespace Run

/-! ## Stopping -/

/-- Stop for want of fuel. -/
def exhausted {α : Type} : Run α := throw .exhausted

/-- Stop with an error. -/
def fail {α : Type} (e : Error) : Run α := throw (.failed e)

/-- Stop with a fault at a place. -/
def fault {α : Type} (f : RuntimeFault) (pos : Position) : Run α := fail (.runtime f pos)

/-- Give the value of a result, or stop with its fault at a place. -/
def ofResult {α : Type} (pos : Position) : Except RuntimeFault α → Run α
  | .ok a => pure a
  | .error f => fault f pos

/-! ## Scopes -/

/-- Make a scope inside another one. -/
def newChild (parent : FrameId) : Run FrameId := fun m =>
  .ok m.heap.nextId { m with heap := m.heap.newChild parent }

/-- Bind a name in a scope. -/
def define (scope : FrameId) (name : String) (v : Value) : Run Unit := fun m =>
  .ok () { m with heap := m.heap.define scope name v }

/-- Bind names to values in a scope, one after the other. -/
def defineAll (scope : FrameId) : List (String × Value) → Run Unit
  | [] => pure ()
  | (name, v) :: rest => do
    define scope name v
    defineAll scope rest

/-- Make a closure over a scope. -/
def close (name : String) (params : List String) (body : List Stmt) (scope : FrameId) :
    Run Closure := fun m =>
  let (f, heap) := m.heap.close name params body scope
  .ok f { m with heap := heap }

/-! ## Output -/

/-- Write a text to the output. -/
def write (text : String) : Run Unit := fun m =>
  match m.sink.write text.toUTF8 with
  | (sink, none) => .ok () { m with sink := sink }
  | (sink, some e) => .error (.failed (.io e)) { m with sink := sink }

/-- Write the text of a builtin's reply and give its answer. -/
def deliver (reply : Reply) : Run Answer := fun m =>
  let (sink, answer) := reply.deliver m.sink
  .ok answer { m with sink := sink }

/-- Flush the output. -/
def flush : Run Unit := fun m =>
  match m.sink.flushError? with
  | none => .ok () m
  | some e => .error (.failed (.io e)) m

/-! ## Counters -/

/-- Change the machine around a computation, also when it stops. -/
def around {α : Type} (before after : Machine → Machine) (x : Run α) : Run α := fun m =>
  match x (before m) with
  | .ok a m => .ok a (after m)
  | .error e m => .error e (after m)

/-- Run inside one more level of nesting, unless the limit is reached. -/
def deeper {α : Type} (limit : Nat) (pos : Position) (x : Run α) : Run α := do
  if (← get).depth < limit then
    around (fun m => { m with depth := m.depth + 1 }) (fun m => { m with depth := m.depth - 1 }) x
  else fault (.recursionLimit limit) pos

/-- Run inside one more call. -/
def insideCall {α : Type} (x : Run α) : Run α :=
  around (fun m => { m with calls := m.calls + 1 }) (fun m => { m with calls := m.calls - 1 }) x

end Run

end Abacus
