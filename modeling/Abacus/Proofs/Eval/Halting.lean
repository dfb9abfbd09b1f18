import Abacus.Proofs.Eval.Fuel
import Abacus.Proofs.Value.LoopFree

/-!
# Abacus.Proofs.Eval.Halting

Runs that halt.  `Halts I Q x` says that from every machine with `I` the runs
`x`, one for each amount of fuel, come to the same result from some fuel on: a
value with `Q` or an error, and a machine with `I` again.

Loop-free code halts.  The outer induction is on how many levels of nesting are
left before the limit (`bodies_halt`): a body, of a block or of a call, is run
one level deeper.  At one level expressions halt by induction on the tree, folds
and loops over items by induction on what is left to visit, and a statement
because its parts do.
-/

namespace Abacus

variable {α β : Type}

/-! ## Halting -/

/-- A value with `Q` or an error, on a machine with `I`. -/
inductive Settled (I : Machine → Prop) (Q : α → Prop) : EStateM.Result Stop Machine α → Prop
  | ok {a : α} {m : Machine} (hm : I m) (ha : Q a) : Settled I Q (.ok a m)
  | failed {m : Machine} (hm : I m) (e : Error) : Settled I Q (.error (.failed e) m)

/-- From every machine with `I` the runs settle with enough fuel. -/
def Halts (I : Machine → Prop) (Q : α → Prop) (x : Nat → Run α) : Prop :=
  ∀ m, I m → ∃ r, Settled I Q r ∧ ∃ enough, ∀ fuel ≥ enough, x fuel m = r

namespace Halts

variable {I J : Machine → Prop} {Q : α → Prop} {Q' : β → Prop} {x : Nat → Run α}

/-- A run that does not look at the fuel halts if it settles. -/
theorem of_settled {y : Run α} (h : ∀ m, I m → Settled I Q (y m)) : Halts I Q fun _ => y :=
  fun m hm => ⟨y m, h m hm, 0, fun _ _ => rfl⟩

theorem pure {a : α} (ha : Q a) : Halts I Q fun _ => Pure.pure a := of_settled fun _ hm => .ok hm ha

theorem fail (e : Error) : Halts I Q fun _ => Run.fail e := of_settled fun _ hm => .failed hm e

theorem fault (f : RuntimeFault) (pos : Position) : Halts I Q fun _ => Run.fault f pos := fail _

/-- A result is passed on or reported, whatever the fuel. -/
theorem ofResult {pos : Position} {r : Except RuntimeFault α} (h : ∀ a, r = .ok a → Q a) :
    Halts I Q fun _ => Run.ofResult pos r := by
  cases r with
  | ok a => exact pure (h a rfl)
  | error f => exact fault f pos

/-- One run after another halts if both do. -/
theorem bind {f : α → Nat → Run β} (hx : Halts I Q x) (hf : ∀ a, Q a → Halts I Q' (f a)) :
    Halts I Q' fun fuel => x fuel >>= fun a => f a fuel := by
  intro m hm
  obtain ⟨r, hr, enough, hxm⟩ := hx m hm
  cases hr with
  | @ok a m₁ hm₁ ha =>
      obtain ⟨r', hr', enough', hfm⟩ := hf a ha m₁ hm₁
      refine ⟨r', hr', max enough enough', fun fuel hfuel => ?_⟩
      have hfirst := hxm fuel (by omega)
      exact (Stateful.bind_of_ok _ hfirst).trans (hfm fuel (by omega))
  | @failed m₁ hm₁ e =>
      refine ⟨_, .failed hm₁ e, enough, fun fuel hfuel => ?_⟩
      exact Stateful.bind_of_error _ (hxm fuel hfuel)

/-- A value that is thrown away need not be good. -/
theorem discard (hx : Halts I Q x) :
    Halts I (fun _ => True) fun fuel => Functor.discard (x fuel) := by
  simp only [Stateful.discard_eq]
  exact hx.bind fun _ _ => pure trivial

/-- A run that looks at the machine halts if it does so on every machine. -/
theorem get_bind {f : Machine → Nat → Run α} (h : ∀ m, I m → Halts I Q (f m)) :
    Halts I Q fun fuel => get >>= fun m => f m fuel := fun m hm => h m hm m hm

/-- A choice, each branch under its condition. -/
theorem ite {c : Prop} [Decidable c] {y : Nat → Run α} (hx : c → Halts I Q x)
    (hy : ¬ c → Halts I Q y) : Halts I Q fun fuel => if c then x fuel else y fuel := by
  by_cases hc : c
  · simp only [if_pos hc]
    exact hx hc
  · simp only [if_neg hc]
    exact hy hc

/-- The machine may be changed around a run that halts. -/
theorem around {before after : Machine → Machine} (hx : Halts J Q x)
    (hbefore : ∀ m, I m → J (before m)) (hafter : ∀ m, J m → I (after m)) :
    Halts I Q fun fuel => Run.around before after (x fuel) := by
  intro m hm
  obtain ⟨r, hr, enough, hxm⟩ := hx (before m) (hbefore m hm)
  cases hr with
  | @ok a m₁ hm₁ ha =>
      refine ⟨_, .ok (hafter m₁ hm₁) ha, enough, fun fuel hfuel => ?_⟩
      show Run.around before after (x fuel) m = _
      rw [Run.around, hxm fuel hfuel]
  | @failed m₁ hm₁ e =>
      refine ⟨_, .failed (hafter m₁ hm₁) e, enough, fun fuel hfuel => ?_⟩
      show Run.around before after (x fuel) m = _
      rw [Run.around, hxm fuel hfuel]

/-- The first step of a run may be left out, with the unit of fuel that it takes. -/
theorem of_succ (h : Halts I Q fun fuel => x (fuel + 1)) : Halts I Q x := by
  intro m hm
  obtain ⟨r, hr, enough, hxm⟩ := h m hm
  refine ⟨r, hr, enough + 1, fun fuel hfuel => ?_⟩
  obtain ⟨fuel, rfl⟩ : ∃ n, fuel = n + 1 := ⟨fuel - 1, by omega⟩
  exact hxm fuel (by omega)

/-- A run that halts ends with a value or an error. -/
theorem ends (hx : Halts I Q x) {m : Machine} (hm : I m) :
    (∃ a m', Ends x m (.ok a m') ∧ Q a ∧ I m') ∨
    ∃ e m', Ends x m (.error (.failed e) m') ∧ I m' := by
  obtain ⟨r, hr, enough, hxm⟩ := hx m hm
  have hrun := hxm enough (Nat.le_refl enough)
  cases hr with
  | ok hm' ha => exact .inl ⟨_, _, ⟨enough, hrun, finished_ok _ _⟩, ha, hm'⟩
  | failed hm' e => exact .inr ⟨e, _, ⟨enough, hrun, finished_failed e _⟩, hm'⟩

end Halts

/-! ## Primitive runs -/

/-- The machines without loops on which the given number of blocks and calls is
open. -/
structure Machine.LoopFreeAt (depth : Nat) (m : Machine) : Prop where
  heap : m.heap.LoopFree
  depth_eq : m.depth = depth

/-- The value that a statement gives back, if any, has no while loop. -/
def Flow.loopFree : Flow → Prop
  | .normal => True
  | .returned v => v.loopFree = true

variable {d : Nat} {host : Host}

/-- Runs of loop-free code at a depth: they halt and keep loops out. -/
abbrev HaltsAt (d : Nat) (Q : α → Prop) (x : Nat → Run α) : Prop := Halts (Machine.LoopFreeAt d) Q x

/-- A new frame brings in no loop. -/
theorem halts_newChild (parent : FrameId) :
    HaltsAt d (fun _ => True) fun _ => Run.newChild parent :=
  .of_settled fun _ hm => .ok ⟨hm.heap.newChild parent, hm.depth_eq⟩ trivial

/-- A binding of a loop-free value brings in no loop. -/
theorem halts_define {v : Value} (hv : v.loopFree = true) (scope : FrameId) (name : String) :
    HaltsAt d (fun _ => True) fun _ => Run.define scope name v :=
  .of_settled fun _ hm => .ok ⟨hm.heap.define hv scope name, hm.depth_eq⟩ trivial

/-- Several bindings of loop-free values bring in no loop. -/
theorem halts_defineAll (scope : FrameId) (names : List String) {values : List Value}
    (h : ∀ v ∈ values, v.loopFree = true) :
    HaltsAt d (fun _ => True) fun _ => Run.defineAll scope (names.zip values) := by
  induction names generalizing values with
  | nil => exact .pure trivial
  | cons name names ih =>
      cases values with
      | nil => exact .pure trivial
      | cons v values =>
          rw [List.forall_mem_cons] at h
          exact (halts_define h.1 scope name).bind fun _ _ => ih h.2

/-- A closure over loop-free code has loop-free code. -/
theorem halts_close (name : String) (params : List String) {body : List Stmt} (scope : FrameId)
    (h : Stmt.loopFreeIn body = true) :
    HaltsAt d (fun f => Stmt.loopFreeIn f.body = true) fun _ => Run.close name params body scope :=
  .of_settled fun _ hm => .ok ⟨hm.heap, hm.depth_eq⟩ h

/-- Writing halts; if the sink is full it is an error. -/
theorem halts_write (text : String) : HaltsAt d (fun _ => True) fun _ => Run.write text := by
  refine .of_settled fun m hm => ?_
  unfold Run.write
  cases m.sink.write text.toUTF8 with
  | mk sink failure =>
      cases failure with
      | none => exact .ok ⟨hm.heap, hm.depth_eq⟩ trivial
      | some e => exact .failed ⟨hm.heap, hm.depth_eq⟩ _

theorem halts_flush : HaltsAt d (fun _ => True) fun _ => Run.flush := by
  refine .of_settled fun m hm => ?_
  unfold Run.flush
  cases m.sink.flushError? with
  | none => exact .ok hm trivial
  | some e => exact .failed hm _

/-- A builtin replies at once. -/
theorem halts_settle (name : String) (pos : Position) {reply : Reply}
    (h : ∀ v, reply.answer = .ok v → v.loopFree = true) :
    HaltsAt d (·.loopFree = true) fun _ => Recursion.settle name pos reply := by
  rw [Pairing.settle_eq]
  refine (halts_write reply.text).bind fun _ _ => ?_
  cases hanswer : reply.answer with
  | ok v => exact halts_flush.bind fun _ _ => .pure (h v hanswer)
  | error fault => exact .fail _

/-- Beyond the limit nothing is run; below it a body is run one level deeper. -/
theorem halts_deeper {Q : α → Prop} {x : Nat → Run α} (limit : Nat) (pos : Position)
    (h : d < limit → HaltsAt (d + 1) Q x) :
    HaltsAt d Q fun fuel => Run.deeper limit pos (x fuel) := by
  refine .get_bind fun m hm => ?_
  rw [hm.depth_eq]
  refine .ite (fun hlt => (h hlt).around ?_ ?_) fun _ => .fault _ pos
  · exact fun m hm => ⟨hm.heap, congrArg (· + 1) hm.depth_eq⟩
  · exact fun m hm => ⟨hm.heap, congrArg (· - 1) hm.depth_eq⟩

/-- A call counts itself around a run that halts. -/
theorem halts_insideCall {Q : α → Prop} {x : Nat → Run α} (h : HaltsAt d Q x) :
    HaltsAt d Q fun fuel => Run.insideCall (x fuel) :=
  h.around (fun _ hm => ⟨hm.heap, hm.depth_eq⟩) fun _ hm => ⟨hm.heap, hm.depth_eq⟩

/-! ## Expressions -/

/- At a depth where bodies halt.  Only calls run a body; everything else halts because its
parts do, and aggregates because their terms are finitely many. -/

/-- Evaluation at a depth halts, and gives values without loops. -/
abbrev EvalHalts (host : Host) (d : Nat) (e : Expr) : Prop :=
  ∀ scope, HaltsAt d (·.loopFree = true) fun fuel => evaluate host fuel e scope

/-- At a depth loop-free bodies halt. -/
def BodiesHalt (host : Host) (d : Nat) : Prop :=
  ∀ pos stmts scope, Stmt.loopFreeIn stmts = true →
    HaltsAt d Flow.loopFree fun fuel => (Recursion.ofFuel host fuel).body host pos stmts scope

variable {scope : FrameId} {pos : Position}

/-- Arguments and items halt if each of them does. -/
theorem halts_evalAll {es : List Expr} (h : ∀ e ∈ es, EvalHalts host d e) :
    HaltsAt d (fun vs => ∀ v ∈ vs, v.loopFree = true)
      fun fuel => (Recursion.ofFuel host fuel).evalAll scope es := by
  induction es with
  | nil => exact .pure (by simp)
  | cons e es ih =>
      rw [List.forall_mem_cons] at h
      refine (h.1 scope).bind fun v hv => (ih h.2).bind fun vs hvs => ?_
      exact .pure (List.forall_mem_cons.mpr ⟨hv, hvs⟩)

/-- An operand that has to be a number halts if it does as an expression. -/
theorem halts_evalNumber {e : Expr} (h : EvalHalts host d e) (role : Role) :
    HaltsAt d (fun _ => True)
      fun fuel => (Recursion.ofFuel host fuel).evalNumber role pos e scope :=
  (h scope).bind fun _ _ => .ofResult fun _ _ => trivial

/-- An operand that has to be a truth value halts if it does as an expression. -/
theorem halts_evalBoolean {e : Expr} (h : EvalHalts host d e) (role : Role) :
    HaltsAt d (fun _ => True)
      fun fuel => (Recursion.ofFuel host fuel).evalBoolean role pos e scope :=
  (h scope).bind fun _ _ => .ofResult fun _ _ => trivial

/-- The terms of an aggregate from a given index on, by induction on their number. -/
theorem halts_foldFrom {combine : Float → Float → Float} {term : Nat → Float → Run Float}
    (h : ∀ x, HaltsAt d (fun _ => True) fun fuel => term fuel x) (count : Nat) (i : Int)
    (total : Float) :
    HaltsAt d (fun _ => True)
      fun fuel => Recursion.foldFrom combine (term fuel) count i total := by
  induction count generalizing i total with
  | zero => exact .pure trivial
  | succ count ih => exact (h _).bind fun x _ => ih (i + 1) (combine total x)

/-- An aggregate over its interval, which is finite. -/
theorem halts_total {term : Nat → Float → Run Float}
    (h : ∀ x, HaltsAt d (fun _ => True) fun fuel => term fuel x) (kind : Aggregate)
    (start stop : Float) :
    HaltsAt d (fun _ => True) fun fuel => Recursion.total kind (term fuel) start stop := by
  cases kind with
  | sum => exact halts_foldFrom h _ _ _
  | product => exact halts_foldFrom h _ _ _
  | integral => exact halts_foldFrom (fun x => h _) _ _ _

/-- A sum, product or integral, its bounds first. -/
theorem halts_aggregate {start stop body : Expr} (hstart : EvalHalts host d start)
    (hstop : EvalHalts host d stop) (hbody : EvalHalts host d body) (kind : Aggregate)
    (var : String) :
    HaltsAt d (·.loopFree = true) fun fuel =>
      (Recursion.ofFuel host fuel).aggregate kind var start stop body pos scope := by
  refine (halts_evalNumber hstart .lowerBound).bind fun low _ => ?_
  refine (halts_evalNumber hstop .upperBound).bind fun high _ => ?_
  refine (halts_newChild scope).bind fun inner _ => ?_
  have hterm : ∀ x, HaltsAt d (fun _ => True) fun fuel =>
      (Recursion.ofFuel host fuel).term (Recursion.termRole kind) pos var body inner x := fun x =>
    (halts_define (v := .number x) rfl inner var).bind fun _ _ => halts_evalNumber hbody _
  exact (halts_total hterm kind low high).bind fun _ _ => .pure rfl

/-- A binary operator, lazy or not. -/
theorem halts_binary {left right : Expr} (hleft : EvalHalts host d left)
    (hright : EvalHalts host d right) (op : BinaryOp) :
    HaltsAt d (·.loopFree = true) fun fuel =>
      (Recursion.ofFuel host fuel).binary op left right pos scope := by
  unfold Recursion.binary
  cases op.decisive? with
  | none =>
      refine (hleft scope).bind fun a ha => (hright scope).bind fun b hb => ?_
      exact .ofResult fun v hv => Value.loopFree_of_apply ha hb hv
  | some b =>
      refine (halts_evalBoolean hleft (.side op)).bind fun x _ => ?_
      refine .ite (fun _ => .pure rfl) fun _ => ?_
      exact (halts_evalBoolean hright (.side op)).bind fun _ _ => .pure rfl

section expressions

variable (hhost : host.LoopFree) (hbodies : BodiesHalt host d)

include hhost in
/-- A call of a builtin: the arguments halt, and a builtin replies. -/
theorem halts_callBuiltin {args : List Expr} (hargs : ∀ e ∈ args, EvalHalts host d e)
    (b : Builtin) :
    HaltsAt d (·.loopFree = true) fun fuel =>
      (Recursion.ofFuel host fuel).callBuiltin host b args pos scope := by
  refine .ite (fun _ => ?_) fun _ => .fault _ pos
  refine (halts_evalAll hargs).bind fun values hvalues => ?_
  exact halts_settle b.name pos fun v hv => hhost.reply hvalues hv

include hbodies in
/-- A call of a closure: its body is a level deeper, where bodies halt. -/
theorem halts_callClosure {args : List Expr} (hargs : ∀ e ∈ args, EvalHalts host d e)
    {f : Closure} (hf : Stmt.loopFreeIn f.body = true) :
    HaltsAt d (·.loopFree = true) fun fuel =>
      (Recursion.ofFuel host fuel).callClosure host f args pos scope := by
  refine .ite (fun _ => ?_) fun _ => .fault _ pos
  refine (halts_evalAll hargs).bind fun values hvalues => ?_
  refine (halts_newChild f.scope).bind fun inner _ => ?_
  refine (halts_defineAll inner f.params hvalues).bind fun _ _ => ?_
  refine (halts_insideCall (hbodies pos f.body inner hf)).bind fun flow hflow => ?_
  cases flow with
  | normal => exact .pure rfl
  | returned v => exact .pure hflow

include hhost hbodies

/-- A call by name; what the name reads as is loop-free. -/
theorem halts_call {args : List Expr} (hargs : ∀ e ∈ args, EvalHalts host d e) (name : String) :
    HaltsAt d (·.loopFree = true) fun fuel =>
      (Recursion.ofFuel host fuel).call host name args pos scope := by
  refine .get_bind fun m hm => ?_
  have hcalled : ∀ callee, calledName host m.heap scope name = .ok callee →
      ∀ f, callee = .closure f → Stmt.loopFreeIn f.body = true := by
    rintro _ hcallee f rfl
    exact hm.heap.calledName hcallee
  refine Halts.bind (.ofResult hcalled) fun callee hcallee => ?_
  cases callee with
  | closure f => exact halts_callClosure hbodies hargs (hcallee f rfl)
  | builtin b => exact halts_callBuiltin hhost hargs b

end expressions

mutual
/-- At a depth where bodies halt, expressions do. -/
theorem halts_evaluate (hhost : host.LoopFree) (hbodies : BodiesHalt host d) (e : Expr) :
    EvalHalts host d e := by
  intro scope
  apply Halts.of_succ
  match e with
  | .number _ | .string _ | .boolean _ => exact .pure rfl
  | .variable _ _ => exact .get_bind fun m hm => .ofResult fun v hv => hm.heap.readName hhost hv
  | .binary op left right _ =>
      have hleft := halts_evaluate hhost hbodies left
      have hright := halts_evaluate hhost hbodies right
      exact halts_binary hleft hright op
  | .unary op operand _ =>
      refine (halts_evaluate hhost hbodies operand scope).bind fun v hv => ?_
      exact .ofResult fun u hu => Value.loopFree_of_unary hv hu
  | .call name args _ =>
      exact halts_call hhost hbodies (halts_evaluates hhost hbodies args) name
  | .aggregate kind var start stop body _ =>
      have hstart := halts_evaluate hhost hbodies start
      have hstop := halts_evaluate hhost hbodies stop
      have hbody := halts_evaluate hhost hbodies body
      exact halts_aggregate hstart hstop hbody kind var

/-- Lists of expressions are made of expressions. -/
theorem halts_evaluates (hhost : host.LoopFree) (hbodies : BodiesHalt host d) (es : List Expr) :
    ∀ e ∈ es, EvalHalts host d e := by
  match es with
  | [] => simp
  | e :: es =>
      have he := halts_evaluate hhost hbodies e
      have hes := halts_evaluates hhost hbodies es
      exact List.forall_mem_cons.mpr ⟨he, hes⟩
end

/-! ## Statements -/

section statements

variable (hhost : host.LoopFree) (hbodies : BodiesHalt host d)

include hbodies

/-- A block: a body in a frame of its own. -/
theorem halts_block {stmts : List Stmt} (h : Stmt.loopFreeIn stmts = true) :
    HaltsAt d Flow.loopFree fun fuel =>
      (Recursion.ofFuel host fuel).block host pos stmts scope :=
  (halts_newChild scope).bind fun inner _ => hbodies pos stmts inner h

/-- The passes of a for loop, by induction on the items. -/
theorem halts_each {stmts : List Stmt} (h : Stmt.loopFreeIn stmts = true) (var : String)
    {items : List Value} (hitems : ∀ v ∈ items, v.loopFree = true) :
    HaltsAt d Flow.loopFree fun fuel =>
      (Recursion.ofFuel host fuel).each host var stmts pos scope items := by
  induction items with
  | nil => exact .pure trivial
  | cons item rest ih =>
      rw [List.forall_mem_cons] at hitems
      refine (halts_define hitems.1 scope var).bind fun _ _ => ?_
      refine (halts_block hbodies h).bind fun flow hflow => ?_
      cases flow with
      | normal => exact ih hitems.2
      | returned v => exact .pure hflow

include hhost

/-- At a depth where bodies halt, loop-free statements do. -/
theorem halts_execute {s : Stmt} (h : s.loopFree = true) (scope : FrameId) :
    HaltsAt d Flow.loopFree fun fuel => execute host fuel s scope := by
  have heval := halts_evaluate hhost hbodies
  apply Halts.of_succ
  match s with
  | .expression e => exact (heval e scope).discard.bind fun _ _ => .pure trivial
  | .assign name value _ =>
      refine (heval value scope).bind fun v hv => ?_
      exact (halts_define hv scope name).bind fun _ _ => .pure trivial
  | .ifThen condition stmts pos =>
      refine (halts_evalBoolean (heval condition) .ifCondition).bind fun b _ => ?_
      exact .ite (fun _ => halts_block hbodies h) fun _ => .pure trivial
  | .ifElse condition stmts other pos =>
      rw [Stmt.loopFree, Bool.and_eq_true] at h
      refine (halts_evalBoolean (heval condition) .ifCondition).bind fun b _ => ?_
      exact .ite (fun _ => halts_block hbodies h.1) fun _ => halts_block hbodies h.2
  | .forLoop var items stmts pos =>
      refine (heval items scope).bind fun v hv => ?_
      refine Halts.bind (.ofResult fun vs hvs => Value.loopFree_of_items hv hvs) fun vs hvs => ?_
      exact halts_each hbodies h var hvs
  | .function name params stmts _ =>
      refine (halts_close name params scope h).bind fun f hf => ?_
      exact (halts_define (v := .function f) hf scope name).bind fun _ _ => .pure trivial
  | .giveBack value pos =>
      refine .get_bind fun m _ => .ite (fun _ => .fault _ pos) fun _ => ?_
      cases value with
      | none => exact .pure (show Value.none.loopFree = true from rfl)
      | some e => exact (heval e scope).bind fun v hv => .pure hv

/-- The statements of a block, by induction on them. -/
theorem halts_execAll {stmts : List Stmt} (h : Stmt.loopFreeIn stmts = true) (scope : FrameId) :
    HaltsAt d Flow.loopFree fun fuel => (Recursion.ofFuel host fuel).execAll scope stmts := by
  induction stmts with
  | nil => exact .pure trivial
  | cons s rest ih =>
      rw [Stmt.loopFreeIn, Bool.and_eq_true] at h
      refine (halts_execute hhost hbodies h.1 scope).bind fun flow hflow => ?_
      cases flow with
      | normal => exact ih h.2
      | returned v => exact .pure hflow

end statements

/-! ## Bodies -/

/-- Loop-free bodies halt at every depth. -/
theorem bodies_halt (hhost : host.LoopFree) (d : Nat) : BodiesHalt host d := by
  -- the induction is on the levels that are left before the limit
  generalize hleft : host.maxDepth - d = left
  induction left generalizing d with
  | zero =>
      intro pos stmts scope _
      exact halts_deeper _ pos fun hlt => by omega
  | succ left ih =>
      intro pos stmts scope h
      have hdeeper := ih (d + 1) (by omega)
      exact halts_deeper _ pos fun _ => halts_execAll hhost hdeeper h scope

end Abacus
