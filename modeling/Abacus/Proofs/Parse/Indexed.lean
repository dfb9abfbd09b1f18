import Abacus.Parse.Program

/-!
# Abacus.Proofs.Parse.Indexed

The parser as a reader of a slice.  A `Place` is an index into the slice and the
nesting; the token there, and the one before it, are read at their indices, and an
index outside the slice stops the reading with `Halt.outside`.  The rules look back at
the token that was just taken for the place of a construct, where a `Parser` keeps that
token; otherwise they are the same.  `Indexed.parse` reads a whole slice.
-/

namespace Abacus

/-- An index into a slice of tokens and the number of open constructs. -/
structure Place where
  current : Nat
  nesting : Nat
deriving DecidableEq, Repr

/-- Why reading by index halts: as a parser stops, or because there is no token at an
index that is read. -/
inductive Halt where
  | stop (e : ParseStop)
  | outside
deriving DecidableEq, Repr

/-- Readers of a slice. -/
abbrev Indexed (α : Type) := EStateM Halt Place α

namespace Indexed

variable {α : Type} (tokens : List Token)

/-! ## The cursor -/

/-- The token at an index. -/
def tokenAt (i : Nat) : Indexed Token :=
  match tokens[i]? with
  | some t => pure t
  | none => throw .outside

/-- The token at the cursor. -/
def peek : Indexed Token := do tokenAt tokens (← get).current

/-- The token before the cursor. -/
def previous : Indexed Token := do
  match (← get).current with
  | 0 => throw .outside
  | i + 1 => tokenAt tokens i

/-- Whether the end of input is at the cursor. -/
def atEnd : Indexed Bool := do return (← peek tokens).kind = .endOfInput

/-- Whether a token of the given kind is at the cursor; the end of input has none. -/
def check (kind : Kind) : Indexed Bool := do
  if ← atEnd tokens then return false
  else return (← peek tokens).kind = kind

/-- Move the cursor, unless it is at the end of input, and look back. -/
def advance : Indexed Token := do
  if ← atEnd tokens then previous tokens
  else
    modify fun s => { s with current := s.current + 1 }
    previous tokens

/-- Take the next token if it has the given kind. -/
def accept (kind : Kind) : Indexed Bool := do
  if ← check tokens kind then
    discard (advance tokens)
    return true
  else return false

/-- Fail at the next token. -/
def fail (expected : Expected) : Indexed α := do
  throw (.stop (.fault (.atToken expected (← peek tokens))))

/-- Take the next token, which must have the given kind. -/
def consume (kind : Kind) (expected : Expected) : Indexed Token := do
  if ← check tokens kind then advance tokens else fail tokens expected

/-- Whether the token after the next one is an equals sign, if there is one. -/
def nextIsAssign : Indexed Bool := do
  return tokens[(← get).current + 1]?.any fun t => t.kind = .operator .assign

/-- Give up for want of fuel. -/
def exhausted : Indexed α := throw (.stop .exhausted)

/-! ## Nesting and repetition -/

/-- Charge one level of nesting. -/
def enter (what : Construct) : Indexed Unit := do
  if (← get).nesting < nestingLimit then
    modify fun s => { s with nesting := s.nesting + 1 }
  else fail tokens (.shallower what)

/-- Read a construct inside one more level of nesting, which is given back after it. -/
def nested (what : Construct) (x : Indexed α) : Indexed α := do
  enter tokens what
  let a ← x
  modify fun s => { s with nesting := s.nesting - 1 }
  return a

/-- Take every semicolon at the cursor. -/
def skipSeparators : Nat → Indexed Unit
  | 0 => exhausted
  | n + 1 => do
    if ← accept tokens .semicolon then skipSeparators n

/-- Read items separated by commas, one at least and `n` at most. -/
def separated (tooMany : Expected) (item : Indexed α) : Nat → Indexed (List α)
  | 0 => fail tokens tooMany
  | n + 1 => do
    let a ← item
    if ← accept tokens .comma then
      let rest ← separated tooMany item n
      return a :: rest
    else return [a]

/-! ## Expressions -/

/-- Take an operator of a level.  Those that are words are looked back at. -/
def matchOperator (level : Level) : Indexed (Option (BinaryOp × Position)) := do
  match level with
  | .disjunction =>
    if ← accept tokens (.keyword .orKw) then return some (.or, (← previous tokens).pos)
    else return none
  | .conjunction =>
    if ← accept tokens (.keyword .andKw) then return some (.and, (← previous tokens).pos)
    else return none
  | level =>
    match level.operator? (← peek tokens).kind with
    | some op => return some (op, (← advance tokens).pos)
    | none => return none

/-- Read the operators of a level and their right operands. -/
def operators (level : Level) (operand : Indexed Expr) : Nat → Expr → Indexed Expr
  | 0, _ => exhausted
  | n + 1, left => do
    match ← matchOperator tokens level with
    | none => return left
    | some (op, pos) =>
      nested tokens .operators do
        let right ← operand
        operators level operand n (.binary op left right pos)

/-- Read an expression whose binary operators have one of the given levels. -/
def climb (fuel : Nat) (operand : Indexed Expr) : List Level → Indexed Expr
  | [] => operand
  | level :: tighter => do
    let left ← climb fuel operand tighter
    operators tokens level (climb fuel operand tighter) fuel left

/-- Read a whole expression over the given unary expressions. -/
def expression (fuel : Nat) (unary : Indexed Expr) : Indexed Expr :=
  nested tokens .expressions (climb tokens fuel unary Level.all)

/-- Read the arguments of a call and its closing parenthesis. -/
def arguments (expr : Indexed Expr) : Indexed (List Expr) := do
  let args ←
    if ← check tokens .rightParen then pure []
    else separated tokens .fewerArguments expr listLimit
  discard (consume tokens .rightParen .closeArguments)
  return args

/-- Read a call after its opening parenthesis. -/
def finishCall (expr : Indexed Expr) (callee : Token) : Indexed Expr := do
  let args ← arguments tokens expr
  return .call callee.lexeme args callee.pos

/-- Take the differential of a variable if it is there. -/
def differential (var : String) : Indexed Unit := do
  if ← check tokens .identifier then
    if (← peek tokens).lexeme = "d" ++ var then discard (advance tokens)

/-- Read an aggregate from its symbol on. -/
def aggregate (expr unary : Indexed Expr) (kind : Aggregate) : Indexed Expr := do
  let pos := (← advance tokens).pos
  discard (consume tokens .leftParen .openBounds)
  let var ← consume tokens .identifier .boundVariable
  discard (consume tokens (.operator .assign) .boundAssign)
  let start ← expr
  discard (consume tokens (.keyword .toKw) .toWord)
  let stop ← expr
  discard (consume tokens .rightParen .closeBounds)
  let body ← unary
  if kind = .integral then differential tokens var.lexeme
  return .aggregate kind var.lexeme start stop body pos

/-- Read a primary expression. -/
def primary (expr unary : Indexed Expr) : Indexed Expr := do
  let t ← peek tokens
  match t.kind with
  | .number =>
    discard (advance tokens)
    match Number.read? t.lexeme with
    | some n => return .number n
    | none => throw (.stop (.fault (.atToken .numericLiteral t)))
  | .string s =>
    discard (advance tokens)
    return .string s
  | .keyword .trueKw =>
    discard (advance tokens)
    return .boolean true
  | .keyword .falseKw =>
    discard (advance tokens)
    return .boolean false
  | .identifier =>
    discard (advance tokens)
    if ← accept tokens .leftParen then finishCall tokens expr t
    else return .variable t.lexeme t.pos
  | .leftParen =>
    discard (advance tokens)
    let e ← expr
    discard (consume tokens .rightParen .closeGroup)
    return e
  | .operator o =>
    match Aggregate.ofOperator? o with
    | some kind => aggregate tokens expr unary kind
    | none => fail tokens .expression
  | _ => fail tokens .expression

/-- Read a unary expression. -/
def unary : Nat → Indexed Expr
  | 0 => exhausted
  | n + 1 => do
    match (← peek tokens).kind.unaryOp? with
    | some op =>
      let pos := (← advance tokens).pos
      let operand ← nested tokens .unaryOperators (unary n)
      return .unary op operand pos
    | none => primary tokens (expression tokens n (unary n)) (unary n)

/-! ## Statements -/

/-- Read statements up to a closing brace or the end of input. -/
def statements (fuel : Nat) (statement : Indexed Stmt) : Nat → Indexed (List Stmt)
  | 0 => exhausted
  | n + 1 => do
    skipSeparators tokens fuel
    if (← check tokens .rightBrace) || (← atEnd tokens) then return []
    else
      let s ← statement
      let rest ← statements fuel statement n
      return s :: rest

/-- Read a braced block. -/
def block (fuel : Nat) (statement : Indexed Stmt) : Indexed (List Stmt) := do
  discard (consume tokens .leftBrace .openBlock)
  nested tokens .blocks do
    let body ← statements tokens fuel statement fuel
    discard (consume tokens .rightBrace .closeBlock)
    return body

/-- Read a function definition after its keyword. -/
def functionDefinition (block : Indexed (List Stmt)) : Indexed Stmt := do
  let pos := (← previous tokens).pos
  let name ← consume tokens .identifier .functionName
  discard (consume tokens .leftParen .openParameters)
  let params ←
    if ← check tokens .rightParen then pure []
    else separated tokens .fewerParameters (consume tokens .identifier .parameterName) listLimit
  discard (consume tokens .rightParen .closeParameters)
  let body ← block
  return .function name.lexeme (params.map Token.lexeme) body pos

/-- Read a conditional after its keyword. -/
def ifStatement (expr : Indexed Expr) (block : Indexed (List Stmt)) : Nat → Indexed Stmt
  | 0 => exhausted
  | n + 1 => do
    let pos := (← previous tokens).pos
    let condition ← expr
    let body ← block
    if ← accept tokens (.keyword .elseKw) then
      if ← accept tokens (.keyword .ifKw) then
        let chained ← nested tokens .elseIfBranches (ifStatement expr block n)
        return .ifElse condition body [chained] pos
      else
        let other ← block
        return .ifElse condition body other pos
    else return .ifThen condition body pos

/-- Read a loop after its keyword. -/
def whileStatement (expr : Indexed Expr) (block : Indexed (List Stmt)) : Indexed Stmt := do
  let pos := (← previous tokens).pos
  let condition ← expr
  let body ← block
  return .whileLoop condition body pos

/-- Read a loop over items after its keyword. -/
def forStatement (expr : Indexed Expr) (block : Indexed (List Stmt)) : Indexed Stmt := do
  let pos := (← previous tokens).pos
  let var ← consume tokens .identifier .loopVariable
  discard (consume tokens (.keyword .inKw) .inWord)
  let items ← expr
  let body ← block
  return .forLoop var.lexeme items body pos

/-- Read what a `return` gives back, after its keyword. -/
def returnStatement (expr : Indexed Expr) : Indexed Stmt := do
  let pos := (← previous tokens).pos
  if (← check tokens .rightBrace) || (← check tokens .semicolon) || (← atEnd tokens) then
    return .giveBack none pos
  else
    let value ← expr
    return .giveBack (some value) pos

/-- Read an assignment. -/
def assignment (expr : Indexed Expr) : Indexed Stmt := do
  let name ← advance tokens
  discard (consume tokens (.operator .assign) .assignSign)
  let value ← expr
  return .assign name.lexeme value name.pos

/-- Read a statement up to its semicolon. -/
def statementBody (fuel : Nat) (expr : Indexed Expr) (block : Indexed (List Stmt)) :
    Indexed Stmt := do
  if ← accept tokens (.keyword .functionKw) then functionDefinition tokens block
  else if ← accept tokens (.keyword .ifKw) then ifStatement tokens expr block fuel
  else if ← accept tokens (.keyword .whileKw) then whileStatement tokens expr block
  else if ← accept tokens (.keyword .forKw) then forStatement tokens expr block
  else if ← accept tokens (.keyword .returnKw) then returnStatement tokens expr
  else if (← check tokens .identifier) && (← nextIsAssign tokens) then assignment tokens expr
  else return .expression (← expr)

/-- Read a statement and the semicolon that may follow it. -/
def statement (fuel : Nat) (expr : Indexed Expr) : Nat → Indexed Stmt
  | 0 => exhausted
  | n + 1 => do
    let s ← statementBody tokens fuel expr (block tokens fuel (statement fuel expr n))
    discard (accept tokens .semicolon)
    return s

/-! ## Programs -/

/-- Read statements up to the end of input. -/
def program (fuel : Nat) (statement : Indexed Stmt) : Nat → Indexed (List Stmt)
  | 0 => exhausted
  | n + 1 => do
    skipSeparators tokens fuel
    if ← atEnd tokens then return []
    else
      let s ← statement
      let rest ← program fuel statement n
      return s :: rest

/-- Read a whole slice, which must end in an end of input. -/
def parse (fuel : Nat) : Indexed (List Stmt) :=
  if Parse.terminated tokens then
    program tokens fuel
      (statement tokens fuel (expression tokens fuel (unary tokens fuel)) fuel) fuel
  else throw (.stop (.fault (Parse.unterminated tokens)))

end Indexed

end Abacus
