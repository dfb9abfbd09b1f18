import Abacus.Parse.Program
import Abacus.Sink
import Abacus.Value.Text

/-!
# Abacus.Error

What can go wrong, by cause.  Faults of a source text are found before anything
is run; faults of a run carry the place of the token that met them; failures of
the output have no place.  The wording of every cause is in its `text`.
-/

namespace Abacus

/-! ## Faults of operands -/

/-- What a value was needed for. -/
inductive Role where
  | ifCondition | whileCondition
  | side (op : BinaryOp)
  | operand (op : UnaryOp)
  | lowerBound | upperBound | aggregateBody | integrand
deriving DecidableEq, Repr

/-- How a message names what a value was needed for. -/
def Role.text : Role → String
  | ifCondition => "if condition"
  | whileCondition => "while condition"
  | side op => op.symbol
  | operand op => "operand of '" ++ op.symbol ++ "'"
  | lowerBound => "lower bound"
  | upperBound => "upper bound"
  | aggregateBody => "aggregate body"
  | integrand => "integrand"

/-- Faults of the arguments of a builtin.  Arguments are counted from one. -/
inductive ArgumentFault where
  | missing (index : Nat)
  | notNumber (index : Nat) (got : ValueType)
  | notMeasurable (got : ValueType)
  | notConvertible (got : ValueType)
  | other (text : String)
deriving DecidableEq, Repr

/-- What a fault of an argument says. -/
def ArgumentFault.text : ArgumentFault → String
  | missing index => "missing argument " ++ toString index
  | notNumber index got =>
    "argument " ++ toString index ++ " must be a number, got " ++ got.name
  | notMeasurable got => "argument must be a string or list, got " ++ got.name
  | notConvertible got => "cannot convert " ++ got.name ++ " to a number"
  | other text => text

/-- The longest list that a range may have. -/
def rangeLimit : Nat := 1000000

/-- Arguments outside the domain of a builtin. -/
inductive DomainFault where
  | outside
  | logBase
  | rangeStep
  | rangeBounds
  | rangeLength (count : Float)
  | unreadable (s : String)
  | other (text : String)

/-- What a fault of a domain says. -/
def DomainFault.text : DomainFault → String
  | outside => "math domain error"
  | logBase => "invalid logarithm base"
  | rangeStep => "step must be a non-zero finite number"
  | rangeBounds => "bounds must be finite numbers"
  | rangeLength count =>
    "range of " ++ Style.display.text count ++ " elements exceeds the limit of " ++
      toString rangeLimit
  | unreadable s => "cannot convert " ++ Text.quoted s ++ " to a number"
  | other text => text

/-- Values of the wrong type. -/
inductive TypeFault where
  | notBoolean (role : Role) (got : ValueType)
  | notNumber (role : Role) (got : ValueType)
  | addition (left right : ValueType)
  | arithmetic (op : BinaryOp) (left right : ValueType)
  | incomparable (left right : ValueType)
  | unordered (op : BinaryOp) (left right : ValueType)
  | notCallable (name : String) (got : ValueType)
  | argument (builtin : String) (fault : ArgumentFault)
deriving DecidableEq, Repr

/-- What a fault of a type says. -/
def TypeFault.text : TypeFault → String
  | notBoolean role got => role.text ++ " must be a boolean, got " ++ got.name
  | notNumber role got => role.text ++ " must be a number, got " ++ got.name
  | addition left right =>
    "operands of '+' must be two numbers or two strings, got " ++ left.name ++ " and " ++
      right.name
  | arithmetic op left right =>
    "operands of '" ++ op.symbol ++ "' must be numbers, got " ++ left.name ++ " and " ++
      right.name
  | incomparable left right => "cannot compare " ++ left.name ++ " with " ++ right.name
  | unordered op left right =>
    "cannot order " ++ left.name ++ " and " ++ right.name ++ " with '" ++ op.symbol ++ "'"
  | notCallable name got => "'" ++ name ++ "' is a " ++ got.name ++ ", not a function"
  | argument builtin fault => builtin ++ ": " ++ fault.text

/-! ## Faults of a run -/

/-- Faults that a running program meets at a place of its source. -/
inductive RuntimeFault where
  | undefinedName (name : String)
  | arity (name : String) (expected : Arity) (found : Nat)
  | type (fault : TypeFault)
  | divisionByZero
  | notIterable (got : ValueType)
  | domain (builtin : String) (fault : DomainFault)
  | returnOutsideFunction
  | recursionLimit (limit : Nat)

/-- What a fault of a run says. -/
def RuntimeFault.text : RuntimeFault → String
  | undefinedName name => "Undefined name '" ++ name ++ "'"
  | arity name expected found =>
    "'" ++ name ++ "' expects " ++ expected.text ++ " argument(s) but got " ++ toString found
  | type fault => "Type error: " ++ fault.text
  | divisionByZero => "Division by zero"
  | notIterable got => "Value of type " ++ got.name ++ " is not iterable"
  | domain builtin fault => builtin ++ ": " ++ fault.text
  | returnOutsideFunction => "'return' outside of a function"
  | recursionLimit limit => "Maximum nesting depth of " ++ toString limit ++ " exceeded"

/-! ## Errors -/

/-- Everything that can end a run. -/
inductive Error where
  | source (e : SourceError)
  | runtime (fault : RuntimeFault) (pos : Position)
  | io (e : IoError)

namespace SourceError

/-- Where a fault of a source text is reported. -/
def pos : SourceError → Position
  | lexical e => e.pos
  | grammar e => e.pos

/-- What a fault of a source text says, its place apart. -/
def text : SourceError → String
  | lexical e => e.text
  | grammar e => e.text

end SourceError

namespace Error

/-- Where an error is reported; failures of the output have no place. -/
def pos? : Error → Option Position
  | source e => some e.pos
  | runtime _ pos => some pos
  | io _ => none

/-- A text with the place it is about in front. -/
def located (pos : Position) (text : String) : String := "[" ++ pos.describe ++ "] " ++ text

/-- The whole message of an error. -/
def message : Error → String
  | source e => located e.pos e.text
  | runtime fault pos => located pos fault.text
  | io e => e.text

/-- Whether an error was found before anything was run. -/
def isStatic : Error → Bool
  | source _ => true
  | _ => false

end Error

end Abacus
