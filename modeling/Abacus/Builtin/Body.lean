import Abacus.Error
import Abacus.Number.Read

/-!
# Abacus.Builtin.Body

What the builtins do.  A builtin answers a list of argument values with a
`Reply`: the text it writes and the value it gives, or why it gives none.  A
fault of a builtin knows no place; `NativeFault.located` adds that of the call.
-/

namespace Abacus

/-! ## Replies -/

/-- Why a builtin gives no value. -/
inductive NativeFault where
  | argument (fault : ArgumentFault)
  | domain (fault : DomainFault)
  | io (e : IoError)

namespace NativeFault

/-- What a fault of a builtin says. -/
def text : NativeFault → String
  | argument fault => fault.text
  | domain fault => fault.text
  | io e => e.text

/-- The error of a call of the named builtin at the given place. -/
def located (name : String) (pos : Position) : NativeFault → Error
  | argument fault => .runtime (.type (.argument name fault)) pos
  | domain fault => .runtime (.domain name fault) pos
  | io e => .io e

end NativeFault

/-- What a builtin gives back: a value or a fault. -/
abbrev Answer := Except NativeFault Value

/-- The reply of a builtin: the text it writes first, and its answer. -/
structure Reply where
  text : String
  answer : Answer

namespace Reply

/-- A reply that writes nothing. -/
def silent (answer : Answer) : Reply := ⟨"", answer⟩

/-- Write the text of a reply to a sink.  Its answer stands only if the text
could be written. -/
def deliver (r : Reply) (sink : Sink) : Sink × Answer :=
  match sink.write r.text.toUTF8 with
  | (sink, none) => (sink, r.answer)
  | (sink, some e) => (sink, .error (.io e))

end Reply

namespace Builtin

/-! ## Arguments -/

/-- The fault of an argument, as an answer. -/
def refuse {α : Type} (fault : ArgumentFault) : Except NativeFault α := .error (.argument fault)

/-- The number among the arguments at the given index, counted from zero. -/
def numberAt (args : List Value) (index : Nat) : Except NativeFault Float :=
  match args[index]? with
  | some (.number n) => .ok n
  | some v => refuse (.notNumber (index + 1) v.type)
  | none => refuse (.missing (index + 1))

/-- The first argument. -/
def firstOf (args : List Value) : Except NativeFault Value :=
  match args with
  | v :: _ => .ok v
  | [] => refuse (.missing 1)

/-! ## Numbers -/

/-- The square root of a number that is not negative. -/
def squareRoot (args : List Value) : Answer := do
  let x ← numberAt args 0
  if x < 0 then throw (.domain .outside)
  return .number x.sqrt

/-- A function defined from minus one to one. -/
def inverse (f : Float → Float) (args : List Value) : Answer := do
  let x ← numberAt args 0
  if !(decide (-1 ≤ x) && decide (x ≤ 1)) then throw (.domain .outside)
  return .number (f x)

/-- The natural logarithm, or with two arguments the logarithm to a base. -/
def logarithm (args : List Value) : Answer := do
  let x ← numberAt args 0
  if x ≤ 0 then throw (.domain .outside)
  if args.length = 1 then return .number x.log
  let base ← numberAt args 1
  if base ≤ 0 || base == 1 then throw (.domain .logBase)
  return .number (x.log / base.log)

/-- A power. -/
def powerOf (args : List Value) : Answer := do
  let x ← numberAt args 0
  let y ← numberAt args 1
  return .number (Float.pow x y)

/-- The best of the numbers from the given index on, by a choice of the better
of two. -/
def bestFrom (better : Float → Float → Float) : Nat → List Value → Float →
    Except NativeFault Float
  | _, [], best => .ok best
  | index, .number n :: rest, best => bestFrom better (index + 1) rest (better best n)
  | index, v :: _, _ => refuse (.notNumber (index + 1) v.type)

/-- The best of one or more numbers. -/
def bestOf (better : Float → Float → Float) (args : List Value) : Answer := do
  let first ← numberAt args 0
  return .number (← bestFrom better 1 args.tail first)

/-! ## Lists and texts -/

/-- The number of characters of a string or of elements of a list. -/
def lengthOf (args : List Value) : Answer := do
  match ← firstOf args with
  | .string s => return .number (Float.ofNat s.length)
  | .list items => return .number (Float.ofNat items.length)
  | v => refuse (.notMeasurable v.type)

/-- The numbers `start + i * step` for `i` below `count`. -/
def progression (start step : Float) (count : Nat) : List Value :=
  (List.range count).map fun i => .number (start + Float.ofNat i * step)

/-- The numbers from a start up to an end, which is left out, by a step. -/
def rangeOf (args : List Value) : Answer := do
  let start ← if args.length = 1 then pure 0 else numberAt args 0
  let stop ← numberAt args (if args.length = 1 then 0 else 1)
  let step ← if args.length = 3 then numberAt args 2 else pure 1
  if step == 0 || !step.isFinite then throw (.domain .rangeStep)
  if !start.isFinite || !stop.isFinite then throw (.domain .rangeBounds)
  let span := ((stop - start) / step).ceil
  let count := if 0 < span then span else 0
  if Float.ofNat rangeLimit < count then throw (.domain (.rangeLength count))
  return .list (progression start step (Binary.ofFloat count).truncate.toNat)

/-- The display text of a value, as a string. -/
def textOf (args : List Value) : Answer := do return .string (← firstOf args).display

/-- A number, or the number that a string spells. -/
def numberOf (args : List Value) : Answer := do
  match ← firstOf args with
  | .number n => return .number n
  | .string s =>
    match Number.readTrimmed? s with
    | some n => return .number n
    | none => throw (.domain (.unreadable s))
  | v => refuse (.notConvertible v.type)

/-- The line that shows the given values. -/
def line (args : List Value) : String := String.intercalate " " (Value.displays args) ++ "\n"

/-! ## Bodies -/

/-- What a builtin does with its arguments; foreign builtins do what the host
says. -/
def reply (host : String → List Value → Reply) : Builtin → List Value → Reply
  | elementary f, args => .silent ((numberAt args 0).map fun x => .number (f.apply x))
  | sqrt, args => .silent (squareRoot args)
  | asin, args => .silent (inverse Float.asin args)
  | acos, args => .silent (inverse Float.acos args)
  | log, args => .silent (logarithm args)
  | pow, args => .silent (powerOf args)
  | min, args => .silent (bestOf Number.smaller args)
  | max, args => .silent (bestOf Number.larger args)
  | print, args => ⟨line args, .ok .none⟩
  | len, args => .silent (lengthOf args)
  | range, args => .silent (rangeOf args)
  | str, args => .silent (textOf args)
  | num, args => .silent (numberOf args)
  | foreign name _, args => host name args

end Builtin

end Abacus
