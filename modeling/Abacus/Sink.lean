/-!
# Abacus.Sink

Where output goes.  A sink keeps the bytes written to it; it may hold only so
many, in which case a write is cut at the exact byte and fails, and it may
refuse to be flushed.
-/

namespace Abacus

/-- Failures of input and output. -/
inductive IoError where
  | sinkFull
  | flushFailed
  | invalidText
  | other (text : String)
deriving DecidableEq, Repr

/-- What an input or output failure says. -/
def IoError.text : IoError → String
  | sinkFull => "sink full"
  | flushFailed => "flush failed"
  | invalidText => "stream did not contain valid UTF-8"
  | other text => text

/-- An output sink: the bytes it has taken, how many it can take in all, and
whether it can be flushed. -/
structure Sink where
  written : ByteArray
  capacity : Option Nat
  flushable : Bool

namespace Sink

/-- A sink that takes everything. -/
def unlimited : Sink := ⟨.empty, none, true⟩

/-- Write bytes.  What does not fit is lost and the write fails. -/
def write (s : Sink) (bytes : ByteArray) : Sink × Option IoError :=
  match s.capacity with
  | none => ({ s with written := s.written ++ bytes }, none)
  | some capacity =>
    let room := capacity - s.written.size
    if bytes.size ≤ room then ({ s with written := s.written ++ bytes }, none)
    else ({ s with written := s.written ++ bytes.extract 0 room }, some .sinkFull)

/-- A sink without a limit takes every write. -/
theorem write_of_capacity_eq_none {s : Sink} (h : s.capacity = none) (bytes : ByteArray) :
    s.write bytes = ({ s with written := s.written ++ bytes }, none) := by
  unfold write
  rw [h]

/-- Why a sink cannot be flushed, if it cannot. -/
def flushError? (s : Sink) : Option IoError := if s.flushable then none else some .flushFailed

end Sink

end Abacus
