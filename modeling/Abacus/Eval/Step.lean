import Abacus.Eval.Operator
import Abacus.Eval.Resolve

/-!
# Abacus.Eval.Step

One step of evaluation: what a node does, given what its parts do.  The steps
take the evaluation of expressions and the execution of statements as a
`Recursion`, so each law of a run is proved once for a step and then holds of
runs of every length.
-/

namespace Abacus

/-- How a statement ends: normally, or by giving a value back to the caller. -/
inductive Flow where
  | normal
  | returned (v : Value)

/-- The evaluation and execution that a step relies on for the parts of a node. -/
structure Recursion where
  eval : Expr → FrameId → Run Value
  exec : Stmt → FrameId → Run Flow

namespace Recursion

/-! ## Sequences -/

/-- Evaluate expressions from left to right. -/
def evalAll (self : Recursion) (scope : FrameId) : List Expr → Run (List Value)
  | [] => return []
  | e :: es => do
    let v ← self.eval e scope
    let vs ← evalAll self scope es
    return v :: vs

/-- Execute statements in order up to the first that gives a value back. -/
def execAll (self : Recursion) (scope : FrameId) : List Stmt → Run Flow
  | [] => return .normal
  | s :: rest => do
    match ← self.exec s scope with
    | .normal => execAll self scope rest
    | .returned v => return .returned v

/-- Execute the body of a block or call in a scope of its own, one level deeper. -/
def body (host : Host) (self : Recursion) (pos : Position) (stmts : List Stmt)
    (scope : FrameId) : Run Flow :=
  Run.deeper host.maxDepth pos (self.execAll scope stmts)

/-- Execute a block in a fresh scope inside the given one. -/
def block (host : Host) (self : Recursion) (pos : Position) (stmts : List Stmt)
    (scope : FrameId) : Run Flow := do
  let inner ← Run.newChild scope
  self.body host pos stmts inner

/-! ## Calls -/

/-- Call a closure.  Its arguments are evaluated in the scope of the call, its
body in a fresh scope inside that of its definition. -/
def callClosure (host : Host) (self : Recursion) (f : Closure) (args : List Expr)
    (pos : Position) (scope : FrameId) : Run Value := do
  if args.length = f.params.length then
    let values ← self.evalAll scope args
    let inner ← Run.newChild f.scope
    Run.defineAll inner (f.params.zip values)
    match ← Run.insideCall (self.body host pos f.body inner) with
    | .returned v => return v
    | .normal => return .none
  else Run.fault (.arity f.name f.arity args.length) pos

/-- Deliver the reply of a builtin and flush the output, or stop with its
fault. -/
def settle (name : String) (pos : Position) (reply : Reply) : Run Value := do
  let answer ← Run.deliver reply
  match answer with
  | .ok v =>
    Run.flush
    return v
  | .error fault => Run.fail (fault.located name pos)

/-- Call a builtin. -/
def callBuiltin (host : Host) (self : Recursion) (b : Builtin) (args : List Expr)
    (pos : Position) (scope : FrameId) : Run Value := do
  if b.arity.accepts args.length then
    let values ← self.evalAll scope args
    settle b.name pos (b.reply host.foreign values)
  else Run.fault (.arity b.name b.arity args.length) pos

/-- Call a name. -/
def call (host : Host) (self : Recursion) (name : String) (args : List Expr)
    (pos : Position) (scope : FrameId) : Run Value := do
  match ← Run.ofResult pos (calledName host (← get).heap scope name) with
  | .closure f => self.callClosure host f args pos scope
  | .builtin b => self.callBuiltin host b args pos scope

/-! ## Aggregates -/

/-- Evaluate an expression that must give a number. -/
def evalNumber (self : Recursion) (role : Role) (pos : Position) (e : Expr)
    (scope : FrameId) : Run Float := do
  let v ← self.eval e scope
  Run.ofResult pos (v.expectNumber role)

/-- Evaluate the body of an aggregate with its variable bound. -/
def term (self : Recursion) (role : Role) (pos : Position) (var : String) (body : Expr)
    (scope : FrameId) (x : Float) : Run Float := do
  Run.define scope var (.number x)
  self.evalNumber role pos body scope

/-- Fold over `count` integers from `i` on. -/
def foldFrom (combine : Float → Float → Float) (term : Float → Run Float) :
    Nat → Int → Float → Run Float
  | 0, _, total => return total
  | count + 1, i, total => do
    let x ← term (Float.ofInt i)
    foldFrom combine term count (i + 1) (combine total x)

/-- The number of steps of an integral. -/
def integralSteps : Nat := 1000

/-- The value of an aggregate between two bounds, given its terms.  An integral
is a left Riemann sum. -/
def total (kind : Aggregate) (term : Float → Run Float) (start stop : Float) : Run Float :=
  let count := (Number.bound stop - Number.bound start + 1).toNat
  match kind with
  | .sum => foldFrom (· + ·) term count (Number.bound start) 0
  | .product => foldFrom (· * ·) term count (Number.bound start) 1
  | .integral =>
    let delta := (stop - start) / Float.ofNat integralSteps
    foldFrom (fun total x => total + x * delta) (fun i => term (start + i * delta))
      integralSteps 0 0

/-- What the body of an aggregate is needed for. -/
def termRole : Aggregate → Role
  | .sum | .product => .aggregateBody
  | .integral => .integrand

/-- Evaluate an aggregate.  Its variable is bound in a scope of its own. -/
def aggregate (self : Recursion) (kind : Aggregate) (var : String) (start stop body : Expr)
    (pos : Position) (scope : FrameId) : Run Value := do
  let low ← self.evalNumber .lowerBound pos start scope
  let high ← self.evalNumber .upperBound pos stop scope
  let inner ← Run.newChild scope
  let sum ← total kind (self.term (termRole kind) pos var body inner) low high
  return .number sum

/-! ## Expressions -/

/-- Evaluate an expression that must give a truth value. -/
def evalBoolean (self : Recursion) (role : Role) (pos : Position) (e : Expr)
    (scope : FrameId) : Run Bool := do
  let v ← self.eval e scope
  Run.ofResult pos (v.expectBoolean role)

/-- Evaluate a binary operation.  The right operand is left alone when the left
one decides. -/
def binary (self : Recursion) (op : BinaryOp) (left right : Expr) (pos : Position)
    (scope : FrameId) : Run Value := do
  match op.decisive? with
  | some b =>
    if (← self.evalBoolean (.side op) pos left scope) = b then return .boolean b
    else return .boolean (← self.evalBoolean (.side op) pos right scope)
  | none =>
    let a ← self.eval left scope
    let b ← self.eval right scope
    Run.ofResult pos (op.apply a b)

/-- Evaluate an expression. -/
def evalStep (host : Host) (self : Recursion) (e : Expr) (scope : FrameId) : Run Value :=
  match e with
  | .number n => return .number n
  | .string s => return .string s
  | .boolean b => return .boolean b
  | .variable name pos => do Run.ofResult pos (readName host (← get).heap scope name)
  | .binary op left right pos => self.binary op left right pos scope
  | .unary op operand pos => do
    let v ← self.eval operand scope
    Run.ofResult pos (op.apply v)
  | .call name args pos => self.call host name args pos scope
  | .aggregate kind var start stop body pos =>
    self.aggregate kind var start stop body pos scope

/-! ## Statements -/

/-- Execute a block once for every item, with the loop variable bound in the
surrounding scope. -/
def each (host : Host) (self : Recursion) (var : String) (stmts : List Stmt)
    (pos : Position) (scope : FrameId) : List Value → Run Flow
  | [] => return .normal
  | item :: rest => do
    Run.define scope var item
    match ← self.block host pos stmts scope with
    | .normal => each host self var stmts pos scope rest
    | .returned v => return .returned v

/-- Execute a statement. -/
def execStep (host : Host) (self : Recursion) (s : Stmt) (scope : FrameId) : Run Flow :=
  match s with
  | .expression e => do
    discard (self.eval e scope)
    return .normal
  | .assign name value _ => do
    let v ← self.eval value scope
    Run.define scope name v
    return .normal
  | .ifThen condition stmts pos => do
    if ← self.evalBoolean .ifCondition pos condition scope then self.block host pos stmts scope
    else return .normal
  | .ifElse condition stmts other pos => do
    if ← self.evalBoolean .ifCondition pos condition scope then self.block host pos stmts scope
    else self.block host pos other scope
  | .whileLoop condition stmts pos => do
    if ← self.evalBoolean .whileCondition pos condition scope then
      match ← self.block host pos stmts scope with
      | .normal => self.exec (.whileLoop condition stmts pos) scope
      | .returned v => return .returned v
    else return .normal
  | .forLoop var items stmts pos => do
    let v ← self.eval items scope
    let vs ← Run.ofResult pos v.items
    self.each host var stmts pos scope vs
  | .function name params stmts _ => do
    let f ← Run.close name params stmts scope
    Run.define scope name (.function f)
    return .normal
  | .giveBack value pos => do
    if (← get).calls = 0 then Run.fault .returnOutsideFunction pos
    else
      match value with
      | some e => return .returned (← self.eval e scope)
      | none => return .returned .none

end Recursion

end Abacus
