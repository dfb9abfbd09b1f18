import Abacus.Proofs.Parse.Primitive

/-!
# Abacus.Proofs.Parse.Charted

The parser with a chart of its course.  A `Waypoint` has the constructs themselves that are
open where a `Cursor` has their number, and a `Course` keeps every waypoint that the parse has
been at.  Levels are given back by number, those of a chain of operators all at once after
its last operand, and to give back more than are charged is a mishap; a `Parser` cuts the
difference off at zero instead.  Otherwise the rules are the same: every step that looks at
a token or takes one is a step of a `Parser`.
-/

namespace Abacus

/-! ## Courses -/

/-- The tokens still to be read and the constructs that are open, the innermost first. -/
structure Waypoint where
  rest : List Token
  opened : List Construct
deriving DecidableEq, Repr

/-- What a parser sees of a waypoint. -/
def Waypoint.cursor (s : Waypoint) : Cursor := ⟨s.rest, s.opened.length⟩

/-- The waypoint that a parse is at, and those where it has been before, the latest first. -/
structure Course where
  here : Waypoint
  past : List Waypoint
deriving Repr

/-- All waypoints of a course. -/
def Course.waypoints (u : Course) : List Waypoint := u.here :: u.past

/-- Why a charted parse ends: as a parser stops, or because it gives back more than it
has charged. -/
inductive Mishap where
  | stop (e : ParseStop)
  | underflow
deriving DecidableEq, Repr

/-- Parsers that keep a chart. -/
abbrev Charted (α : Type) := EStateM Mishap Course α

namespace Charted

variable {α : Type}

/-! ## Steps -/

/-- A step of a parser that leaves the constructs alone. -/
def step (p : Parser α) : Charted α := fun u =>
  match p u.here.cursor with
  | .ok a c => .ok a ⟨⟨c.rest, u.here.opened⟩, u.waypoints⟩
  | .error e c => .error (.stop e) ⟨⟨c.rest, u.here.opened⟩, u.waypoints⟩

/-- Change which constructs are open. -/
def reopen (f : List Construct → List Construct) : Charted Unit :=
  modify fun u => ⟨⟨u.here.rest, f u.here.opened⟩, u.waypoints⟩

def exhausted : Charted α := step Parse.exhausted
def peek : Charted Token := step Parse.peek
def sees (kind : Kind) : Charted Bool := step (Parse.sees kind)
def atEnd : Charted Bool := step Parse.atEnd
def assignFollows : Charted Bool := step Parse.assignFollows
def advance : Charted Token := step Parse.advance
def fail (expected : Expected) : Charted α := step (Parse.fail expected)
def accept (kind : Kind) : Charted Bool := step (Parse.accept kind)

def expect (kind : Kind) (expected : Expected) : Charted Token :=
  step (Parse.expect kind expected)

/-- Open a construct, unless as many are open as there may be. -/
def enter (what : Construct) : Charted Unit := do
  if (← get).here.opened.length < nestingLimit then reopen (what :: ·)
  else fail (.shallower what)

/-- Give the levels of the `n` innermost constructs back. -/
def refund (n : Nat) : Charted Unit := do
  if n ≤ (← get).here.opened.length then reopen (List.drop n)
  else throw .underflow

/-- Read a construct inside one more level of nesting. -/
def nested (what : Construct) (x : Charted α) : Charted α := do
  enter what
  let a ← x
  refund 1
  return a

/-- Take every semicolon at the front. -/
def skipSeparators : Nat → Charted Unit
  | 0 => exhausted
  | n + 1 => do
    if ← accept .semicolon then skipSeparators n

/-- Read items separated by commas, one at least and `n` at most. -/
def separated (tooMany : Expected) (item : Charted α) : Nat → Charted (List α)
  | 0 => fail tooMany
  | n + 1 => do
    let a ← item
    if ← accept .comma then
      let rest ← separated tooMany item n
      return a :: rest
    else return [a]

/-! ## Expressions -/

/-- Read the operators of a level and their right operands.  The levels of all operators
of the chain, of which there were `folds` before, are given back at its end. -/
def operators (level : Level) (operand : Charted Expr) : Nat → Nat → Expr → Charted Expr
  | 0, _, _ => exhausted
  | n + 1, folds, left => do
    let t ← peek
    match level.operator? t.kind with
    | none =>
      refund folds
      return left
    | some op =>
      discard advance
      enter .operators
      let right ← operand
      operators level operand n (folds + 1) (.binary op left right t.pos)

/-- Read an expression whose binary operators have one of the given levels. -/
def climb (fuel : Nat) (operand : Charted Expr) : List Level → Charted Expr
  | [] => operand
  | level :: tighter => do
    let left ← climb fuel operand tighter
    operators level (climb fuel operand tighter) fuel 0 left

/-- Read a whole expression over the given unary expressions. -/
def expression (fuel : Nat) (unary : Charted Expr) : Charted Expr :=
  nested .expressions (climb fuel unary Level.all)

/-- Read the arguments of a call and its closing parenthesis. -/
def arguments (expr : Charted Expr) : Charted (List Expr) := do
  let args ←
    if ← sees .rightParen then pure []
    else separated .fewerArguments expr listLimit
  discard (expect .rightParen .closeArguments)
  return args

/-- Take the differential of a variable if it is there. -/
def differential (var : String) : Charted Unit := do
  if ← sees .identifier then
    if (← peek).lexeme = "d" ++ var then discard advance

/-- Read an aggregate from its symbol on. -/
def aggregate (expr unary : Charted Expr) (kind : Aggregate) : Charted Expr := do
  let symbol ← advance
  discard (expect .leftParen .openBounds)
  let var ← expect .identifier .boundVariable
  discard (expect (.operator .assign) .boundAssign)
  let start ← expr
  discard (expect (.keyword .toKw) .toWord)
  let stop ← expr
  discard (expect .rightParen .closeBounds)
  let body ← unary
  if kind = .integral then differential var.lexeme
  return .aggregate kind var.lexeme start stop body symbol.pos

/-- Read a primary expression. -/
def primary (expr unary : Charted Expr) : Charted Expr := do
  let t ← peek
  match t.kind with
  | .number =>
    discard advance
    match Number.read? t.lexeme with
    | some n => return .number n
    | none => throw (.stop (.fault (.atToken .numericLiteral t)))
  | .string s =>
    discard advance
    return .string s
  | .keyword .trueKw =>
    discard advance
    return .boolean true
  | .keyword .falseKw =>
    discard advance
    return .boolean false
  | .identifier =>
    discard advance
    if ← accept .leftParen then
      let args ← arguments expr
      return .call t.lexeme args t.pos
    else return .variable t.lexeme t.pos
  | .leftParen =>
    discard advance
    let e ← expr
    discard (expect .rightParen .closeGroup)
    return e
  | .operator o =>
    match Aggregate.ofOperator? o with
    | some kind => aggregate expr unary kind
    | none => fail .expression
  | _ => fail .expression

/-- Read a unary expression. -/
def unary : Nat → Charted Expr
  | 0 => exhausted
  | n + 1 => do
    let t ← peek
    match t.kind.unaryOp? with
    | some op =>
      discard advance
      let operand ← nested .unaryOperators (unary n)
      return .unary op operand t.pos
    | none => primary (expression n (unary n)) (unary n)

/-! ## Statements -/

/-- Read statements until the cursor is where `stop` says. -/
def statementsUntil (stop : Cursor → Bool) (fuel : Nat) (statement : Charted Stmt) :
    Nat → Charted (List Stmt)
  | 0 => exhausted
  | n + 1 => do
    skipSeparators fuel
    if stop (← get).here.cursor then return []
    else
      let s ← statement
      let rest ← statementsUntil stop fuel statement n
      return s :: rest

/-- Read a braced block. -/
def block (fuel : Nat) (statement : Charted Stmt) : Charted (List Stmt) := do
  discard (expect .leftBrace .openBlock)
  nested .blocks do
    let body ← statementsUntil (fun c => c.sees .rightBrace || c.atEnd) fuel statement fuel
    discard (expect .rightBrace .closeBlock)
    return body

/-- Read a function definition after its keyword. -/
def definition (block : Charted (List Stmt)) (pos : Position) : Charted Stmt := do
  let name ← expect .identifier .functionName
  discard (expect .leftParen .openParameters)
  let params ←
    if ← sees .rightParen then pure []
    else separated .fewerParameters (expect .identifier .parameterName) listLimit
  discard (expect .rightParen .closeParameters)
  let body ← block
  return .function name.lexeme (params.map Token.lexeme) body pos

/-- Read a conditional after its keyword. -/
def conditional (expr : Charted Expr) (block : Charted (List Stmt)) :
    Nat → Position → Charted Stmt
  | 0, _ => exhausted
  | n + 1, pos => do
    let condition ← expr
    let body ← block
    if ← accept (.keyword .elseKw) then
      let t ← peek
      if ← accept (.keyword .ifKw) then
        let chained ← nested .elseIfBranches (conditional expr block n t.pos)
        return .ifElse condition body [chained] pos
      else
        let other ← block
        return .ifElse condition body other pos
    else return .ifThen condition body pos

/-- Read a loop over items after its keyword. -/
def iteration (expr : Charted Expr) (block : Charted (List Stmt)) (pos : Position) :
    Charted Stmt := do
  let var ← expect .identifier .loopVariable
  discard (expect (.keyword .inKw) .inWord)
  let items ← expr
  let body ← block
  return .forLoop var.lexeme items body pos

/-- Read what a `return` gives back, after its keyword. -/
def giveBack (expr : Charted Expr) (pos : Position) : Charted Stmt := do
  if (← sees .rightBrace) || (← sees .semicolon) || (← atEnd) then return .giveBack none pos
  else
    let value ← expr
    return .giveBack (some value) pos

/-- Read an assignment. -/
def assignment (expr : Charted Expr) : Charted Stmt := do
  let name ← advance
  discard (expect (.operator .assign) .assignSign)
  let value ← expr
  return .assign name.lexeme value name.pos

/-- Read a bare expression. -/
def bare (expr : Charted Expr) : Charted Stmt := do return .expression (← expr)

/-- Read a statement up to its semicolon. -/
def statementBody (fuel : Nat) (expr : Charted Expr) (block : Charted (List Stmt)) :
    Charted Stmt := do
  let t ← peek
  match t.kind with
  | .keyword .functionKw =>
    discard advance
    definition block t.pos
  | .keyword .ifKw =>
    discard advance
    conditional expr block fuel t.pos
  | .keyword .whileKw =>
    discard advance
    let condition ← expr
    let body ← block
    return .whileLoop condition body t.pos
  | .keyword .forKw =>
    discard advance
    iteration expr block t.pos
  | .keyword .returnKw =>
    discard advance
    giveBack expr t.pos
  | .identifier => if ← assignFollows then assignment expr else bare expr
  | _ => bare expr

/-- Read a statement and the semicolon that may follow it. -/
def statement (fuel : Nat) (expr : Charted Expr) : Nat → Charted Stmt
  | 0 => exhausted
  | n + 1 => do
    let s ← statementBody fuel expr (block fuel (statement fuel expr n))
    discard (accept .semicolon)
    return s

/-! ## Programs -/

/-- Read a whole program, with the given fuel for every rule that calls itself. -/
def wholeProgram (fuel : Nat) : Charted (List Stmt) :=
  statementsUntil Cursor.atEnd fuel (statement fuel (expression fuel (unary fuel)) fuel) fuel

/-- The outcome of reading a whole token sequence, with its course. -/
def run (tokens : List Token) : EStateM.Result Mishap Course (List Stmt) :=
  wholeProgram (tokens.length + 1) ⟨⟨tokens, []⟩, []⟩

end Charted

end Abacus
