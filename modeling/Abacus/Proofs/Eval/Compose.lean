import Abacus.Proofs.Eval.Visit
import Abacus.Proofs.Session.Step

/-!
# Abacus.Proofs.Eval.Compose

Properties of runs that are built up as evaluation is.  Evaluation reaches the
output only by writing and flushing; the rest of what it does is `Silent`, that
is, the same on every sink.  A property of families of runs is `Composable` if
silent runs, writing and flushing have it and if it passes from the parts of a
run to the whole; then every step of evaluation has it (`Common.evalStep`,
`Common.execStep`), every run with the same fuel (`Composable.common_heralded`)
and every step of a session (`Common.perform`).

A family is indexed by whatever the property compares: its members are heralded
each in its own way.
-/

namespace Abacus

/-! ## Sinks aside -/

/-- The machine with another sink. -/
def Machine.withSink (m : Machine) (sink : Sink) : Machine := { m with sink := sink }

/-- The result with another sink. -/
def Result.withSink {α : Type} (r : EStateM.Result Stop Machine α) (sink : Sink) :
    EStateM.Result Stop Machine α :=
  match r with
  | .ok a m => .ok a (m.withSink sink)
  | .error e m => .error e (m.withSink sink)

namespace Machine

@[simp] theorem withSink_sink (m : Machine) (sink : Sink) : (m.withSink sink).sink = sink := rfl

@[simp] theorem withSink_withSink (m : Machine) (sink sink' : Sink) :
    (m.withSink sink).withSink sink' = m.withSink sink' := rfl

@[simp] theorem withSink_self (m : Machine) : m.withSink m.sink = m := rfl

end Machine

/-- The run does the same on every sink, and leaves it alone. -/
def Run.Silent {α : Type} (x : Run α) : Prop :=
  ∀ m sink, x (m.withSink sink) = Result.withSink (x m) sink

/-! ## Composable properties -/

/-- A property of families of runs that silent runs, writing and flushing have,
and that passes from the parts of a run to the whole. -/
structure Run.Composable {ι : Type} (P : {α : Type} → (ι → Run α) → Prop) : Prop where
  silent : ∀ {α : Type} {x : Run α}, x.Silent → P fun _ => x
  write : ∀ text, P fun _ => Run.write text
  flush : P fun _ => Run.flush
  bind : ∀ {α β : Type} {x : ι → Run α} {f : ι → α → Run β}, P x → (∀ a, P fun i => f i a) →
    P fun i => x i >>= f i
  /-- The run may look at the machine, but not at its sink. -/
  look : ∀ {α : Type} {f : ι → Machine → Run α}, (∀ m sink i, f i (m.withSink sink) = f i m) →
    (∀ m, P fun i => f i m) → P fun i => get >>= f i
  /-- The counters may be changed around a run. -/
  around : ∀ {α : Type} {x : ι → Run α} {before after : Machine → Machine},
    (∀ m sink, before (m.withSink sink) = (before m).withSink sink) →
    (∀ m sink, after (m.withSink sink) = (after m).withSink sink) → P x →
    P fun i => Run.around before after (x i)

/-- Evaluation and execution have the property, whatever the node. -/
structure Recursion.Common {ι : Type} (P : {α : Type} → (ι → Run α) → Prop)
    (parts : ι → Recursion) : Prop where
  eval : ∀ e scope, P fun i => (parts i).eval e scope
  exec : ∀ s scope, P fun i => (parts i).exec s scope

variable {ι : Type} {P : {α : Type} → (ι → Run α) → Prop} {α : Type}

/-- What both branches have, the choice between them has. -/
theorem Run.branch {c : Prop} [Decidable c] {x y : ι → Run α} (hx : P x) (hy : P y) :
    P fun i => if c then x i else y i := by
  by_cases hc : c
  · simp only [if_pos hc]
    exact hx
  · simp only [if_neg hc]
    exact hy

namespace Run.Composable

variable (hP : Composable P)

include hP

theorem pure (a : α) : P fun _ => (Pure.pure a : Run α) := hP.silent fun _ _ => rfl

theorem exhausted : P fun _ => (Run.exhausted : Run α) := hP.silent fun _ _ => rfl

theorem fail (e : Error) : P fun _ => (Run.fail e : Run α) := hP.silent fun _ _ => rfl

/-- A result that is passed on or reported at a position. -/
theorem ofResult (pos : Position) (r : Except RuntimeFault α) : P fun _ => Run.ofResult pos r := by
  cases r with
  | ok a => exact hP.pure a
  | error f => exact hP.fail (.runtime f pos)

/-- Frames are created without a look at the sink. -/
theorem newChild (parent : FrameId) : P fun _ => Run.newChild parent := hP.silent fun _ _ => rfl

/-- Bindings are made without a look at the sink. -/
theorem define (scope : FrameId) (name : String) (v : Value) : P fun _ => Run.define scope name v :=
  hP.silent fun _ _ => rfl

/-- Closures are made without a look at the sink. -/
theorem close (name : String) (params : List String) (body : List Stmt) (scope : FrameId) :
    P fun _ => Run.close name params body scope := hP.silent fun _ _ => rfl

/-- A value that is thrown away makes no difference. -/
theorem discard {x : ι → Run α} (hx : P x) : P fun i => Functor.discard (x i) := by
  simp only [Stateful.discard_eq]
  exact hP.bind hx fun _ => hP.pure _

/-- Several bindings, one after the other. -/
theorem defineAll (scope : FrameId) (bs : List (String × Value)) :
    P fun _ => Run.defineAll scope bs := by
  induction bs with
  | nil => exact hP.pure ()
  | cons b bs ih => exact hP.bind (hP.define scope b.1 b.2) fun _ => ih

/-- A level of depth: the limit is looked at, and the counter changed around the run. -/
theorem deeper {x : ι → Run α} (hx : P x) (limit : Nat) (pos : Position) :
    P fun i => Run.deeper limit pos (x i) := by
  refine hP.look (fun _ _ _ => rfl) fun m => Run.branch ?_ (hP.fail _)
  exact hP.around (fun _ _ => rfl) (fun _ _ => rfl) hx

/-- A call: the other counter is changed around the run. -/
theorem insideCall {x : ι → Run α} (hx : P x) : P fun i => Run.insideCall (x i) :=
  hP.around (fun _ _ => rfl) (fun _ _ => rfl) hx

/-- A builtin's reply: its text is written first, then its answer is taken. -/
theorem settle (name : String) (pos : Position) (reply : Reply) :
    P fun _ => Recursion.settle name pos reply := by
  simp only [Pairing.settle_eq]
  refine hP.bind (hP.write reply.text) fun _ => ?_
  cases reply.answer with
  | ok v => exact hP.bind hP.flush fun _ => hP.pure v
  | error fault => exact hP.fail _

/-- The terms of an aggregate from a given index on, by induction on their number. -/
theorem foldFrom {term : ι → Float → Run Float} (h : ∀ x, P fun i => term i x)
    (combine : Float → Float → Float) (count : Nat) (i : Int) (total : Float) :
    P fun j => Recursion.foldFrom combine (term j) count i total := by
  induction count generalizing i total with
  | zero => exact hP.pure total
  | succ count ih => exact hP.bind (h _) fun x => ih (i + 1) (combine total x)

/-- An aggregate over its interval. -/
theorem total {term : ι → Float → Run Float} (h : ∀ x, P fun i => term i x) (kind : Aggregate)
    (start stop : Float) : P fun i => Recursion.total kind (term i) start stop := by
  cases kind with
  | sum => exact hP.foldFrom h _ _ _ _
  | product => exact hP.foldFrom h _ _ _ _
  | integral => exact hP.foldFrom (fun x => h _) _ _ _ _

end Run.Composable

/-! ## Steps -/

/- One lemma for each step of evaluation, in the order in which they are built; none of them
opens the property itself. -/

namespace Recursion.Common

variable {self : ι → Recursion} (hself : Common P self) (hP : Run.Composable P) (host : Host)
  (scope : FrameId) (pos : Position)

include hself hP

/-- Arguments and items, from left to right. -/
theorem evalAll (es : List Expr) : P fun i => (self i).evalAll scope es := by
  induction es with
  | nil => exact hP.pure []
  | cons e es ih => exact hP.bind (hself.eval e scope) fun v => hP.bind ih fun vs => hP.pure _

/-- The statements of a block. -/
theorem execAll (stmts : List Stmt) : P fun i => (self i).execAll scope stmts := by
  induction stmts with
  | nil => exact hP.pure Flow.normal
  | cons s rest ih =>
      refine hP.bind (hself.exec s scope) fun flow => ?_
      cases flow with
      | normal => exact ih
      | returned v => exact hP.pure _

/-- The body of a function. -/
theorem body (stmts : List Stmt) : P fun i => (self i).body host pos stmts scope :=
  hP.deeper (hself.execAll hP scope stmts) host.maxDepth pos

/-- A block in a frame of its own. -/
theorem block (stmts : List Stmt) : P fun i => (self i).block host pos stmts scope :=
  hP.bind (hP.newChild scope) fun inner => hself.body hP host inner pos stmts

/-- A call of a closure, arguments first. -/
theorem callClosure (f : Closure) (args : List Expr) :
    P fun i => (self i).callClosure host f args pos scope := by
  refine Run.branch ?_ (hP.fail _)
  refine hP.bind (hself.evalAll hP scope args) fun values => ?_
  refine hP.bind (hP.newChild f.scope) fun inner => ?_
  refine hP.bind (hP.defineAll inner _) fun _ => ?_
  refine hP.bind (hP.insideCall (hself.body hP host inner pos f.body)) fun flow => ?_
  cases flow with
  | normal => exact hP.pure _
  | returned v => exact hP.pure v

/-- A call of a builtin. -/
theorem callBuiltin (b : Builtin) (args : List Expr) :
    P fun i => (self i).callBuiltin host b args pos scope := by
  refine Run.branch ?_ (hP.fail _)
  exact hP.bind (hself.evalAll hP scope args) fun values => hP.settle b.name pos _

/-- A call by name, of either kind. -/
theorem call (name : String) (args : List Expr) :
    P fun i => (self i).call host name args pos scope := by
  refine hP.look (fun _ _ _ => rfl) fun m => hP.bind (hP.ofResult pos _) fun callee => ?_
  cases callee with
  | closure f => exact hself.callClosure hP host scope pos f args
  | builtin b => exact hself.callBuiltin hP host scope pos b args

/-- An operand that has to be a number. -/
theorem evalNumber (role : Role) (e : Expr) :
    P fun i => (self i).evalNumber role pos e scope :=
  hP.bind (hself.eval e scope) fun _ => hP.ofResult pos _

/-- An operand that has to be a truth value. -/
theorem evalBoolean (role : Role) (e : Expr) :
    P fun i => (self i).evalBoolean role pos e scope :=
  hP.bind (hself.eval e scope) fun _ => hP.ofResult pos _

/-- A sum, product or integral. -/
theorem aggregate (kind : Aggregate) (var : String) (start stop body : Expr) :
    P fun i => (self i).aggregate kind var start stop body pos scope := by
  refine hP.bind (hself.evalNumber hP scope pos .lowerBound start) fun low => ?_
  refine hP.bind (hself.evalNumber hP scope pos .upperBound stop) fun high => ?_
  refine hP.bind (hP.newChild scope) fun inner => ?_
  have hterm : ∀ x, P fun i => (self i).term (termRole kind) pos var body inner x := fun x =>
    hP.bind (hP.define inner var _) fun _ => hself.evalNumber hP inner pos _ body
  exact hP.bind (hP.total hterm kind low high) fun sum => hP.pure _

/-- A binary operator, the lazy ones included. -/
theorem binary (op : BinaryOp) (left right : Expr) :
    P fun i => (self i).binary op left right pos scope := by
  unfold Recursion.binary
  cases op.decisive? with
  | none =>
      refine hP.bind (hself.eval left scope) fun a => hP.bind (hself.eval right scope) fun b => ?_
      exact hP.ofResult pos _
  | some b =>
      refine hP.bind (hself.evalBoolean hP scope pos (.side op) left) fun x => ?_
      refine Run.branch (hP.pure _) ?_
      exact hP.bind (hself.evalBoolean hP scope pos (.side op) right) fun y => hP.pure _

/-- One step of evaluation, node by node, if the recursion has the property. -/
theorem evalStep (e : Expr) : P fun i => Recursion.evalStep host (self i) e scope := by
  cases e with
  | number n => exact hP.pure _
  | string s => exact hP.pure _
  | boolean b => exact hP.pure _
  | «variable» name pos => exact hP.look (fun _ _ _ => rfl) fun m => hP.ofResult pos _
  | binary op left right pos => exact hself.binary hP scope pos op left right
  | unary op operand pos => exact hP.bind (hself.eval operand scope) fun v => hP.ofResult pos _
  | call name args pos => exact hself.call hP host scope pos name args
  | aggregate kind var start stop body pos =>
      exact hself.aggregate hP scope pos kind var start stop body

/-- The passes of a for loop, by induction on the items. -/
theorem each (var : String) (stmts : List Stmt) (items : List Value) :
    P fun i => (self i).each host var stmts pos scope items := by
  induction items with
  | nil => exact hP.pure Flow.normal
  | cons item rest ih =>
      refine hP.bind (hP.define scope var item) fun _ => ?_
      refine hP.bind (hself.block hP host scope pos stmts) fun flow => ?_
      cases flow with
      | normal => exact ih
      | returned v => exact hP.pure _

/-- One step of execution, node by node. -/
theorem execStep (s : Stmt) : P fun i => Recursion.execStep host (self i) s scope := by
  match s with
  | .expression e => exact hP.bind (hP.discard (hself.eval e scope)) fun _ => hP.pure _
  | .assign name value _ =>
      refine hP.bind (hself.eval value scope) fun v => ?_
      exact hP.bind (hP.define scope name v) fun _ => hP.pure _
  | .ifThen condition stmts pos =>
      refine hP.bind (hself.evalBoolean hP scope pos .ifCondition condition) fun b => ?_
      exact Run.branch (hself.block hP host scope pos stmts) (hP.pure _)
  | .ifElse condition stmts other pos =>
      refine hP.bind (hself.evalBoolean hP scope pos .ifCondition condition) fun b => ?_
      exact Run.branch (hself.block hP host scope pos stmts) (hself.block hP host scope pos other)
  | .whileLoop condition stmts pos =>
      refine hP.bind (hself.evalBoolean hP scope pos .whileCondition condition) fun b => ?_
      refine Run.branch (hP.bind (hself.block hP host scope pos stmts) fun flow => ?_) (hP.pure _)
      cases flow with
      | normal => exact hself.exec _ scope
      | returned v => exact hP.pure _
  | .forLoop var items stmts pos =>
      refine hP.bind (hself.eval items scope) fun v => hP.bind (hP.ofResult pos _) fun vs => ?_
      exact hself.each hP host scope pos var stmts vs
  | .function name params stmts _ =>
      refine hP.bind (hP.close name params stmts scope) fun f => ?_
      exact hP.bind (hP.define scope name _) fun _ => hP.pure _
  | .giveBack value pos =>
      refine hP.look (fun _ _ _ => rfl) fun m => Run.branch (hP.fail _) ?_
      cases value with
      | some e => exact hP.bind (hself.eval e scope) fun v => hP.pure _
      | none => exact hP.pure _

/-! ## Sessions -/

/-- The statements of a program. -/
theorem runProgram (stmts : List Stmt) : P fun i => (self i).runProgram stmts := by
  induction stmts with
  | nil => exact hP.pure ()
  | cons s rest ih => exact hP.bind (hP.discard (hself.exec s globals)) fun _ => ih

/-- A program with the return that may end it. -/
theorem runWhole (program : List Stmt) : P fun i => (self i).runWhole program := by
  refine hP.bind (hself.runProgram hP _) fun _ => ?_
  cases (splitLast program).2 with
  | some e => exact hP.bind (hself.eval e globals) fun v => hP.pure _
  | none => exact hP.pure none

/-- A step of a session, whatever it runs. -/
theorem perform (step : SessionStep) : P fun i => (self i).perform step := by
  cases step with
  | program stmts => exact hP.bind (hself.runProgram hP stmts) fun _ => hP.pure none
  | source text =>
      have hread : P fun _ => readSource text := by
        cases hparse : parseSource text with
        | ok program => exact readSource_of_ok hparse ▸ hP.pure program
        | error e => exact readSource_of_error hparse ▸ hP.fail (.source e)
      exact hP.bind hread fun program => hself.runWhole hP program

end Recursion.Common

/-- Runs with the same fuel have a composable property, if what is done before
their nodes has it. -/
theorem Run.Composable.common_heralded (hP : Composable P) (host : Host)
    {before : ι → Visit → Run Unit} (h : ∀ v, P fun i => before i v) (fuel : Nat) :
    Recursion.Common P fun i => .heralded host (before i) fuel := by
  induction fuel with
  | zero => exact ⟨fun _ _ => hP.exhausted, fun _ _ => hP.exhausted⟩
  | succ fuel ih =>
      constructor
      · exact fun e scope => hP.bind (h _) fun _ => ih.evalStep hP host scope e
      · exact fun s scope => hP.bind (h _) fun _ => ih.execStep hP host scope s

/-- Plain runs have a composable property. -/
theorem Run.Composable.common_ofFuel (hP : Composable P) (host : Host) (fuel : Nat) :
    Recursion.Common P fun _ => .ofFuel host fuel := by
  have hplain : Recursion.Common P fun _ => .heralded host (fun _ => Pure.pure ()) fuel :=
    hP.common_heralded host (fun _ => hP.pure ()) fuel
  simpa only [Recursion.heralded_pure] using hplain

end Abacus
