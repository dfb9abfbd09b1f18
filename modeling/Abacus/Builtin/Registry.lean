import Abacus.Bindings
import Abacus.Builtin.Body

/-!
# Abacus.Builtin.Registry

What a host offers to programs: a registry of builtins and constants by name,
the behaviour of its own builtins, and the limit on how deeply blocks and calls
may nest.
-/

namespace Abacus

/-- Builtins and constants by name. -/
abbrev Registry := Bindings

namespace Registry

/-- A registry with nothing in it. -/
def empty : Registry := []

/-- The ratio of a circle's circumference to its diameter. -/
def pi : Float := 3.141592653589793

/-- The base of the natural logarithm. -/
def euler : Float := 2.718281828459045

/-- Register a builtin under its name. -/
def register (r : Registry) (b : Builtin) : Registry := Bindings.put b.name (.builtin b) r

/-- Register a constant under a name. -/
def constant (r : Registry) (name : String) (v : Value) : Registry := Bindings.put name v r

/-- The standard library: mathematics, printing, lists and conversions. -/
def standard : Registry :=
  Builtin.standard.foldl register
    (((empty.constant "pi" (.number pi)).constant "π" (.number pi)).constant "e" (.number euler))

end Registry

/-- What a session is run with. -/
structure Host where
  /-- What names stand for when no scope binds them. -/
  registry : Registry
  /-- What the builtins of the host itself do. -/
  foreign : String → List Value → Reply
  /-- The limit on nested blocks and calls. -/
  maxDepth : Nat

namespace Host

/-- The usual limit on nested blocks and calls. -/
def defaultMaxDepth : Nat := 1000

/-- A host without builtins of its own: a foreign builtin gives nothing. -/
def noForeign : String → List Value → Reply := fun _ _ => .silent (.ok .none)

/-- The host with the standard library. -/
def standard : Host := ⟨.standard, noForeign, defaultMaxDepth⟩

end Host

end Abacus
