import Abacus.Tree.Basic

/-!
# Abacus.Value.Basic

The values that programs compute.  Functions come in two sorts: closures, which
a program defines and which remember the scope of their definition, and
builtins, which the host provides.  Closures are told apart by an identity
number, builtins by their name.
-/

namespace Abacus

/-! ## Builtins -/

/-- How many arguments a callable takes. -/
inductive Arity where
  | exactly (n : Nat)
  | between (least greatest : Nat)
  | atLeast (n : Nat)
deriving DecidableEq, Repr

namespace Arity

/-- Whether a call with the given number of arguments is allowed. -/
def accepts : Arity → Nat → Bool
  | exactly n, count => count = n
  | between least greatest, count => least ≤ count && count ≤ greatest
  | atLeast n, count => n ≤ count

/-- How a message names the allowed numbers of arguments. -/
def text : Arity → String
  | exactly n => toString n
  | between least greatest => toString least ++ " to " ++ toString greatest
  | atLeast n => "at least " ++ toString n

end Arity

/-- The functions of one number that are defined everywhere. -/
inductive Elementary where
  | sin | cos | tan | atan | sinh | cosh | tanh | exp | abs | floor | ceil | round
deriving DecidableEq, Repr

namespace Elementary

/-- Every elementary function. -/
def all : List Elementary :=
  [sin, cos, tan, atan, sinh, cosh, tanh, exp, abs, floor, ceil, round]

/-- The name of an elementary function. -/
def name : Elementary → String
  | sin => "sin"
  | cos => "cos"
  | tan => "tan"
  | atan => "atan"
  | sinh => "sinh"
  | cosh => "cosh"
  | tanh => "tanh"
  | exp => "exp"
  | abs => "abs"
  | floor => "floor"
  | ceil => "ceil"
  | round => "round"

/-- The value of an elementary function. -/
def apply : Elementary → Float → Float
  | sin => Float.sin
  | cos => Float.cos
  | tan => Float.tan
  | atan => Float.atan
  | sinh => Float.sinh
  | cosh => Float.cosh
  | tanh => Float.tanh
  | exp => Float.exp
  | abs => Float.abs
  | floor => Float.floor
  | ceil => Float.ceil
  | round => Float.round

end Elementary

/-- The callables that a host provides: the standard ones, and foreign ones
whose behaviour the host supplies. -/
inductive Builtin where
  | elementary (f : Elementary)
  | sqrt | asin | acos | log | pow | min | max
  | print | len | range | str | num
  | foreign (name : String) (arity : Arity)
deriving DecidableEq, Repr

namespace Builtin

/-- The standard builtins. -/
def standard : List Builtin :=
  Elementary.all.map elementary ++
    [sqrt, asin, acos, log, pow, min, max, print, len, range, str, num]

/-- The name of a builtin. -/
def name : Builtin → String
  | elementary f => f.name
  | sqrt => "sqrt"
  | asin => "asin"
  | acos => "acos"
  | log => "log"
  | pow => "pow"
  | min => "min"
  | max => "max"
  | print => "print"
  | len => "len"
  | range => "range"
  | str => "str"
  | num => "num"
  | foreign name _ => name

/-- How many arguments a builtin takes. -/
def arity : Builtin → Arity
  | elementary _ | sqrt | asin | acos | len | str | num => .exactly 1
  | log => .between 1 2
  | pow => .exactly 2
  | min | max => .atLeast 1
  | print => .atLeast 0
  | range => .between 1 3
  | foreign _ arity => arity

end Builtin

/-! ## Values -/

/-- The number of a scope. -/
abbrev FrameId := Nat

/-- A function of the program: its name, parameters and body, the scope of its
definition, and the number that tells it from other definitions. -/
structure Closure where
  name : String
  params : List String
  body : List Stmt
  scope : FrameId
  identity : Nat

instance : Inhabited Closure := ⟨⟨"", [], [], 0, 0⟩⟩

/-- How many arguments a closure takes. -/
def Closure.arity (f : Closure) : Arity := .exactly f.params.length

/-- The values of the language. -/
inductive Value where
  | number (n : Float)
  | string (s : String)
  | boolean (b : Bool)
  | list (items : List Value)
  | function (f : Closure)
  | builtin (b : Builtin)
  | none

instance : Inhabited Value := ⟨.none⟩

/-- The types of values. -/
inductive ValueType where
  | number | string | boolean | list | function | builtin | none
deriving DecidableEq, Repr

/-- The name of a type in messages. -/
def ValueType.name : ValueType → String
  | number => "number"
  | string => "string"
  | boolean => "boolean"
  | list => "list"
  | function => "function"
  | builtin => "builtin"
  | none => "none"

namespace Value

/-- The type of a value. -/
def type : Value → ValueType
  | number _ => .number
  | string _ => .string
  | boolean _ => .boolean
  | list _ => .list
  | function _ => .function
  | builtin _ => .builtin
  | none => .none

mutual
/-- Whether two values are the same.  Numbers compare as numbers, so what is
not a number differs from itself; functions compare by identity and builtins by
name. -/
def same : Value → Value → Bool
  | number a, number b => a == b
  | string a, string b => a = b
  | boolean a, boolean b => a = b
  | list as, list bs => allSame as bs
  | function f, function g => f.identity = g.identity
  | builtin a, builtin b => a.name = b.name
  | none, none => true
  | _, _ => false

/-- Whether two lists hold the same values in the same order. -/
def allSame : List Value → List Value → Bool
  | [], [] => true
  | a :: as, b :: bs => same a b && allSame as bs
  | _, _ => false
end

end Value

end Abacus
