import Abacus.Error

/-!
# Abacus.Eval.Operator

The operators on values.  Numbers are doubles with their usual arithmetic, save
that dividing by zero is a fault; `+` also joins strings.  Values of one type
can be compared for equality, functions apart, and numbers and strings can be
ordered.
-/

namespace Abacus

namespace Value

/-- The truth value of a boolean. -/
def expectBoolean (role : Role) : Value → Except RuntimeFault Bool
  | boolean b => .ok b
  | v => .error (.type (.notBoolean role v.type))

/-- The number of a number. -/
def expectNumber (role : Role) : Value → Except RuntimeFault Float
  | number n => .ok n
  | v => .error (.type (.notNumber role v.type))

/-- What a loop over a value visits: the elements of a list, or the characters
of a string. -/
def items : Value → Except RuntimeFault (List Value)
  | list vs => .ok vs
  | string s => .ok (s.toList.map fun c => .string c.toString)
  | v => .error (.notIterable v.type)

end Value

/-- Whether values of a type can be compared for equality. -/
def ValueType.comparable : ValueType → Bool
  | number | string | boolean | list | none => true
  | function | builtin => false

namespace BinaryOp

/-- The value of the left operand that decides the result without the right
one, for the operators that have such a value. -/
def decisive? : BinaryOp → Option Bool
  | and => some false
  | or => some true
  | _ => none

/-- The arithmetic of a numeric operator. -/
def arithmetic : BinaryOp → Float → Float → Float
  | subtract, a, b => a - b
  | multiply, a, b => a * b
  | divide, a, b => a / b
  | modulo, a, b => Number.remainder a b
  | power, a, b => Float.pow a b
  | _, a, b => a + b

/-- A numeric operator on two values. -/
def numeric (op : BinaryOp) : Value → Value → Except RuntimeFault Value
  | .number a, .number b => .ok (.number (op.arithmetic a b))
  | a, b => .error (.type (.arithmetic op a.type b.type))

/-- A division, or its remainder, on two values. -/
def quotient (op : BinaryOp) : Value → Value → Except RuntimeFault Value
  | .number a, .number b =>
    if b == 0 then .error .divisionByZero else .ok (.number (op.arithmetic a b))
  | a, b => .error (.type (.arithmetic op a.type b.type))

/-- The sum of two numbers or the concatenation of two strings. -/
def sum : Value → Value → Except RuntimeFault Value
  | .number a, .number b => .ok (.number (a + b))
  | .string a, .string b => .ok (.string (a ++ b))
  | a, b => .error (.type (.addition a.type b.type))

/-- Whether two values are the same, if they can be compared. -/
def equality (a b : Value) : Except RuntimeFault Bool :=
  if a.type = b.type ∧ a.type.comparable then .ok (a.same b)
  else .error (.type (.incomparable a.type b.type))

/-- The order that a comparison asks for, on numbers. -/
def ordersNumbers : BinaryOp → Float → Float → Bool
  | less, a, b => decide (a < b)
  | lessEqual, a, b => decide (a ≤ b)
  | greater, a, b => decide (b < a)
  | _, a, b => decide (b ≤ a)

/-- The order that a comparison asks for, on strings. -/
def ordersStrings : BinaryOp → String → String → Bool
  | less, a, b => decide (a < b)
  | lessEqual, a, b => !decide (b < a)
  | greater, a, b => decide (b < a)
  | _, a, b => !decide (a < b)

/-- A comparison of two numbers or two strings. -/
def ordering (op : BinaryOp) : Value → Value → Except RuntimeFault Value
  | .number a, .number b => .ok (.boolean (op.ordersNumbers a b))
  | .string a, .string b => .ok (.boolean (op.ordersStrings a b))
  | a, b => .error (.type (.unordered op a.type b.type))

/-- The combination of two truth values, both of them given. -/
def logical (op : BinaryOp) (a b : Value) : Except RuntimeFault Value := do
  let x ← a.expectBoolean (.side op)
  let y ← b.expectBoolean (.side op)
  return .boolean (if op = and then x && y else x || y)

/-- An operator on two values. -/
def apply (op : BinaryOp) (a b : Value) : Except RuntimeFault Value :=
  match op with
  | add => sum a b
  | subtract | multiply | power => op.numeric a b
  | divide | modulo => op.quotient a b
  | equal => (equality a b).map .boolean
  | notEqual => (equality a b).map fun e => .boolean (!e)
  | less | lessEqual | greater | greaterEqual => op.ordering a b
  | and | or => op.logical a b

end BinaryOp

/-- An operator on one value. -/
def UnaryOp.apply (op : UnaryOp) (v : Value) : Except RuntimeFault Value :=
  match op with
  | negate => (v.expectNumber (.operand op)).map fun n => .number (-n)
  | plus => (v.expectNumber (.operand op)).map .number
  | not => (v.expectBoolean (.operand op)).map fun b => .boolean (!b)

end Abacus
