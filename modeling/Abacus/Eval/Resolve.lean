import Abacus.Eval.Machine

/-!
# Abacus.Eval.Resolve

What names stand for.  Reading a name takes its nearest binding in the scopes
and otherwise what the registry has.  Calling a name takes the nearest binding
only if it can be called, and otherwise the registry's builtin.
-/

namespace Abacus

/-- The value of a name as seen from a scope. -/
def readName (host : Host) (heap : Heap) (scope : FrameId) (name : String) :
    Except RuntimeFault Value :=
  match (heap.get? scope name).or (Bindings.lookup name host.registry) with
  | some v => .ok v
  | none => .error (.undefinedName name)

/-- What a call invokes. -/
inductive Callee where
  | closure (f : Closure)
  | builtin (b : Builtin)

/-- The callable that a value is, if it is one. -/
def Value.callee? : Value → Option Callee
  | .function f => some (.closure f)
  | .builtin b => some (.builtin b)
  | _ => .none

/-- The builtin that a registry has under a name, if it has one. -/
def Registry.builtin? (r : Registry) (name : String) : Option Builtin :=
  match Bindings.lookup name r with
  | some (.builtin b) => some b
  | _ => none

/-- What a call of a name from a scope invokes. -/
def calledName (host : Host) (heap : Heap) (scope : FrameId) (name : String) :
    Except RuntimeFault Callee :=
  match (heap.get? scope name).bind Value.callee? with
  | some callee => .ok callee
  | none =>
    match Registry.builtin? host.registry name with
    | some b => .ok (.builtin b)
    | none =>
      match readName host heap scope name with
      | .ok v => .error (.type (.notCallable name v.type))
      | .error f => .error f

end Abacus
