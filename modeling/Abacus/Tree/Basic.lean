import Abacus.Token.Basic

/-!
# Abacus.Tree.Basic

The syntax trees of the language.  Every node that can fail when it is run
keeps the place of the token that introduced it.
-/

namespace Abacus

/-! ## Operations -/

/-- The operations on two operands. -/
inductive BinaryOp where
  | add | subtract | multiply | divide | power | modulo
  | equal | notEqual | less | lessEqual | greater | greaterEqual
  | and | or
deriving DecidableEq, Repr

namespace BinaryOp

/-- The operation that an operator symbol denotes between operands, if any. -/
def ofOperator? : Operator → Option BinaryOp
  | .plus => some add
  | .minus => some subtract
  | .star => some multiply
  | .slash => some divide
  | .caret => some power
  | .percent => some modulo
  | .equal => some equal
  | .notEqual => some notEqual
  | .less => some less
  | .lessEqual => some lessEqual
  | .greater => some greater
  | .greaterEqual => some greaterEqual
  | .assign | .sum | .product | .integral => none

/-- The spelling of an operation. -/
def symbol : BinaryOp → String
  | add => "+"
  | subtract => "-"
  | multiply => "*"
  | divide => "/"
  | power => "^"
  | modulo => "%"
  | equal => "=="
  | notEqual => "!="
  | less => "<"
  | lessEqual => "<="
  | greater => ">"
  | greaterEqual => ">="
  | and => "and"
  | or => "or"

end BinaryOp

/-- The operations on one operand. -/
inductive UnaryOp where
  | negate | plus | not
deriving DecidableEq, Repr

/-- The spelling of an operation. -/
def UnaryOp.symbol : UnaryOp → String
  | negate => "-"
  | plus => "+"
  | not => "not"

/-- The folds over a bound variable: sums and products over an interval of
integers, and left Riemann sums. -/
inductive Aggregate where
  | sum | product | integral
deriving DecidableEq, Repr

namespace Aggregate

/-- The spelling of a fold. -/
def symbol : Aggregate → String
  | sum => "∑"
  | product => "∏"
  | integral => "∫"

/-- The fold that an operator symbol introduces, if any. -/
def ofOperator? : Operator → Option Aggregate
  | .sum => some sum
  | .product => some product
  | .integral => some integral
  | _ => none

end Aggregate

/-! ## Trees -/

/-- Expressions. -/
inductive Expr where
  | number (value : Float)
  | string (value : String)
  | boolean (value : Bool)
  | variable (name : String) (pos : Position)
  | binary (op : BinaryOp) (left right : Expr) (pos : Position)
  | unary (op : UnaryOp) (operand : Expr) (pos : Position)
  | call (name : String) (args : List Expr) (pos : Position)
  | aggregate (kind : Aggregate) (var : String) (start stop body : Expr) (pos : Position)

instance : Inhabited Expr := ⟨.boolean false⟩

/-- Statements.  A braced block is a list of statements. -/
inductive Stmt where
  | expression (value : Expr)
  | assign (name : String) (value : Expr) (pos : Position)
  | ifThen (condition : Expr) (body : List Stmt) (pos : Position)
  | ifElse (condition : Expr) (body other : List Stmt) (pos : Position)
  | whileLoop (condition : Expr) (body : List Stmt) (pos : Position)
  | forLoop (var : String) (items : Expr) (body : List Stmt) (pos : Position)
  | function (name : String) (params : List String) (body : List Stmt) (pos : Position)
  | giveBack (value : Option Expr) (pos : Position)

instance : Inhabited Stmt := ⟨.expression default⟩

end Abacus
