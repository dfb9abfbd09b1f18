import Abacus.Number.Read
import Abacus.Parse.State

/-!
# Abacus.Parse.Expression

The rules for expressions.  Six levels of binary operators, from `or` down to
`^`, fold to the left over unary expressions; a unary expression is a chain of
unary operators in front of a primary one.

```
expression → disjunction
level      → tighter ( operator tighter )*
unary      → ( "-" | "+" | "not" ) unary | primary
primary    → NUMBER | STRING | "true" | "false" | IDENT
           | IDENT "(" arguments? ")" | "(" expression ")" | aggregate
aggregate  → ( "∑" | "∏" | "∫" ) "(" IDENT "=" expression "to" expression ")"
             unary ( "d" IDENT )?
```

Every rule that calls itself does so after taking a token, so a fuel above the
number of tokens left is never used up.
-/

namespace Abacus

/-! ## Levels of binary operators -/

/-- The levels of binary operators. -/
inductive Level where
  | disjunction | conjunction | comparison | additive | multiplicative | power
deriving DecidableEq, Repr

namespace Level

/-- The levels from the loosest to the tightest. -/
def all : List Level := [disjunction, conjunction, comparison, additive, multiplicative, power]

/-- The level of a binary operation. -/
def ofOp : BinaryOp → Level
  | .or => disjunction
  | .and => conjunction
  | .equal | .notEqual | .less | .lessEqual | .greater | .greaterEqual => comparison
  | .add | .subtract => additive
  | .multiply | .divide | .modulo => multiplicative
  | .power => power

end Level

/-- The binary operation that a token denotes between operands, if any. -/
def Kind.binaryOp? : Kind → Option BinaryOp
  | .keyword .orKw => some .or
  | .keyword .andKw => some .and
  | .operator o => BinaryOp.ofOperator? o
  | _ => none

/-- The operation of the given level that a token denotes, if any. -/
def Level.operator? (level : Level) (kind : Kind) : Option BinaryOp :=
  kind.binaryOp?.filter fun op => Level.ofOp op = level

/-- The unary operation that a token denotes before an operand, if any. -/
def Kind.unaryOp? : Kind → Option UnaryOp
  | .operator .minus => some .negate
  | .operator .plus => some .plus
  | .keyword .notKw => some .not
  | _ => none

namespace Parse

/-! ## Operators -/

/-- Read the operators of a level and their right operands, folding to the left
from `left`.  Each operator stays charged until the whole chain is read. -/
def operators (level : Level) (operand : Parser Expr) : Nat → Expr → Parser Expr
  | 0, _ => exhausted
  | n + 1, left => do
    let t ← peek
    match level.operator? t.kind with
    | none => return left
    | some op =>
      discard advance
      nested .operators do
        let right ← operand
        operators level operand n (.binary op left right t.pos)

/-- Read an expression whose binary operators have one of the given levels. -/
def climb (fuel : Nat) (operand : Parser Expr) : List Level → Parser Expr
  | [] => operand
  | level :: tighter => do
    let left ← climb fuel operand tighter
    operators level (climb fuel operand tighter) fuel left

/-- Read a whole expression over the given unary expressions. -/
def expression (fuel : Nat) (unary : Parser Expr) : Parser Expr :=
  nested .expressions (climb fuel unary Level.all)

/-! ## Primary expressions -/

/-- Read the arguments of a call and its closing parenthesis. -/
def arguments (expr : Parser Expr) : Parser (List Expr) := do
  let args ←
    if ← sees .rightParen then pure []
    else separated .fewerArguments expr listLimit
  discard (expect .rightParen .closeArguments)
  return args

/-- Take the differential `d` and `var`, written as one name, if it is there. -/
def differential (var : String) : Parser Unit := do
  if ← sees .identifier then
    if (← peek).lexeme = "d" ++ var then discard advance

/-- Read an aggregate from its symbol on. -/
def aggregate (expr unary : Parser Expr) (kind : Aggregate) : Parser Expr := do
  let symbol ← advance
  discard (expect .leftParen .openBounds)
  let var ← expect .identifier .boundVariable
  discard (expect (.operator .assign) .boundAssign)
  let start ← expr
  discard (expect (.keyword .toKw) .toWord)
  let stop ← expr
  discard (expect .rightParen .closeBounds)
  let body ← unary
  if kind = .integral then differential var.lexeme
  return .aggregate kind var.lexeme start stop body symbol.pos

/-- Read a primary expression. -/
def primary (expr unary : Parser Expr) : Parser Expr := do
  let t ← peek
  match t.kind with
  | .number =>
    discard advance
    match Number.read? t.lexeme with
    | some n => return .number n
    | none => throw (.fault (.atToken .numericLiteral t))
  | .string s =>
    discard advance
    return .string s
  | .keyword .trueKw =>
    discard advance
    return .boolean true
  | .keyword .falseKw =>
    discard advance
    return .boolean false
  | .identifier =>
    discard advance
    if ← accept .leftParen then
      let args ← arguments expr
      return .call t.lexeme args t.pos
    else return .variable t.lexeme t.pos
  | .leftParen =>
    discard advance
    let e ← expr
    discard (expect .rightParen .closeGroup)
    return e
  | .operator o =>
    match Aggregate.ofOperator? o with
    | some kind => aggregate expr unary kind
    | none => fail .expression
  | _ => fail .expression

/-! ## Unary expressions -/

/-- Read a unary expression. -/
def unary : Nat → Parser Expr
  | 0 => exhausted
  | n + 1 => do
    let t ← peek
    match t.kind.unaryOp? with
    | some op =>
      discard advance
      let operand ← nested .unaryOperators (unary n)
      return .unary op operand t.pos
    | none => primary (expression n (unary n)) (unary n)

end Parse

end Abacus
