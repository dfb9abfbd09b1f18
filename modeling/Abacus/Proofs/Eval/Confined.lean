import Abacus.Proofs.Eval.Vocabulary

/-!
# Abacus.Proofs.Eval.Confined

Evaluation keeps to a vocabulary.  The code of a closure that is called is over the
vocabulary wherever the closure comes from, since whatever is bound is known; a
builtin that is called is one of the vocabulary, since its name is or the value that
was bound to it is known.  One lemma per step says so of its parts
(`Recursion.Agree.evalStep`, `Recursion.Agree.execStep`); the induction is on the
fuel.
-/

namespace Abacus

variable {V : Vocabulary}

/-! ## Steps -/

/-- Evaluation and execution of code over the vocabulary agree. -/
structure Recursion.Agree (V : Vocabulary) (parts parts' : Recursion) : Prop where
  eval : ∀ {e} scope, Expr.Placed V.marks e →
    V.Agree V.Knows (parts.eval e scope) (parts'.eval e scope)
  exec : ∀ {s} scope, Stmt.Placed V.marks s →
    V.Agree (fun flow => V.Knows flow.value) (parts.exec s scope) (parts'.exec s scope)

namespace Recursion.Agree

variable {self self' : Recursion} {host host' : Host} (hself : Agree V self self')
  (hV : V.Shared host host') {scope : FrameId} {pos : Position}

section

include hself

/-- Arguments and items, by induction on their list. -/
theorem evalAll {es : List Expr} (hes : ∀ e ∈ es, e.Placed V.marks) :
    V.Agree (fun vs => ∀ v ∈ vs, V.Knows v) (self.evalAll scope es) (self'.evalAll scope es) := by
  induction es with
  | nil => exact .pure fun _ hv => absurd hv List.not_mem_nil
  | cons e es ih =>
      rw [List.forall_mem_cons] at hes
      refine (hself.eval scope hes.1).bind fun v hv => ?_
      refine (ih hes.2).bind fun vs hvs => ?_
      exact .pure (List.forall_mem_cons.mpr ⟨hv, hvs⟩)

/-- The statements of a block, by induction on their list. -/
theorem execAll {stmts : List Stmt} (hstmts : ∀ s ∈ stmts, s.Placed V.marks) :
    V.Agree (fun flow => V.Knows flow.value) (self.execAll scope stmts)
      (self'.execAll scope stmts) := by
  induction stmts with
  | nil => exact .pure (Vocabulary.knows_of_eq_nil rfl)
  | cons s rest ih =>
      rw [List.forall_mem_cons] at hstmts
      refine (hself.exec scope hstmts.1).bind fun flow hflow => ?_
      cases flow with
      | normal => exact ih hstmts.2
      | returned v => exact .pure hflow

/-- An operand that has to be a number. -/
theorem evalNumber (role : Role) {e : Expr} (he : e.Placed V.marks) :
    V.Agree (fun _ => True) (self.evalNumber role pos e scope)
      (self'.evalNumber role pos e scope) :=
  (hself.eval scope he).bind fun _ _ => .ofResult (fun _ _ => trivial) pos

/-- An operand that has to be a truth value. -/
theorem evalBoolean (role : Role) {e : Expr} (he : e.Placed V.marks) :
    V.Agree (fun _ => True) (self.evalBoolean role pos e scope)
      (self'.evalBoolean role pos e scope) :=
  (hself.eval scope he).bind fun _ _ => .ofResult (fun _ _ => trivial) pos

/-- A term of an aggregate. -/
theorem term (role : Role) (var : String) {body : Expr} (hbody : body.Placed V.marks) (x : Float) :
    V.Agree (fun _ => True) (self.term role pos var body scope x)
      (self'.term role pos var body scope x) :=
  (Vocabulary.Agree.define (Vocabulary.knows_of_eq_nil rfl) scope var).bind fun _ _ =>
    hself.evalNumber role hbody

/-- A sum, product or integral. -/
theorem aggregate (kind : Aggregate) (var : String) {start stop body : Expr}
    (hstart : start.Placed V.marks) (hstop : stop.Placed V.marks) (hbody : body.Placed V.marks) :
    V.Agree V.Knows (self.aggregate kind var start stop body pos scope)
      (self'.aggregate kind var start stop body pos scope) := by
  refine (hself.evalNumber .lowerBound hstart).bind fun low _ => ?_
  refine (hself.evalNumber .upperBound hstop).bind fun high _ => ?_
  refine (Vocabulary.Agree.newChild scope).bind fun inner _ => ?_
  have hterm : ∀ x, V.Agree (fun _ => True) (self.term (termRole kind) pos var body inner x)
      (self'.term (termRole kind) pos var body inner x) :=
    fun x => hself.term (termRole kind) var hbody x
  exact (Vocabulary.Agree.total hterm kind low high).bind fun sum _ =>
    .pure (Vocabulary.knows_of_eq_nil rfl)

/-- A binary operator, lazy or not. -/
theorem binary (op : BinaryOp) {left right : Expr} (hleft : left.Placed V.marks)
    (hright : right.Placed V.marks) :
    V.Agree V.Knows (self.binary op left right pos scope)
      (self'.binary op left right pos scope) := by
  unfold Recursion.binary
  cases op.decisive? with
  | none =>
      refine (hself.eval scope hleft).bind fun a _ => ?_
      refine (hself.eval scope hright).bind fun b _ => ?_
      exact .ofResult (fun v => Vocabulary.knows_of_plain (Value.plain_apply op a b)) pos
  | some b =>
      refine (hself.evalBoolean (.side op) hleft).bind fun x _ => .ite ?_ ?_
      · exact .pure (Vocabulary.knows_of_eq_nil rfl)
      · exact (hself.evalBoolean (.side op) hright).bind fun y _ =>
          .pure (Vocabulary.knows_of_eq_nil rfl)

end

include hself hV

/-- A block in a frame of its own. -/
theorem block {stmts : List Stmt} (hstmts : ∀ s ∈ stmts, s.Placed V.marks) :
    V.Agree (fun flow => V.Knows flow.value) (self.block host pos stmts scope)
      (self'.block host' pos stmts scope) := by
  refine (Vocabulary.Agree.newChild scope).bind fun inner _ => ?_
  rw [Recursion.body, Recursion.body, hV.maxDepth]
  exact (hself.execAll hstmts).deeper _ pos

/-! ## Calls -/

/-- The body of a closure that may be called is over the vocabulary, wherever the
closure comes from. -/
theorem callClosure {f : Closure} (hf : V.Allows (.closure f)) {args : List Expr}
    (hargs : ∀ e ∈ args, e.Placed V.marks) :
    V.Agree V.Knows (self.callClosure host f args pos scope)
      (self'.callClosure host' f args pos scope) := by
  refine .ite ?_ (.fail _)
  refine (hself.evalAll hargs).bind fun values hvalues => ?_
  refine (Vocabulary.Agree.newChild f.scope).bind fun inner _ => ?_
  refine (Vocabulary.Agree.defineAll inner f.params hvalues).bind fun _ _ => ?_
  rw [Recursion.body, Recursion.body, hV.maxDepth]
  refine ((hself.execAll hf).deeper _ pos).insideCall.bind fun flow hflow => ?_
  cases flow with
  | normal => exact .pure (Vocabulary.knows_of_eq_nil rfl)
  | returned v => exact .pure hflow

/-- A call of a builtin of the vocabulary, which both hosts have in common. -/
theorem callBuiltin {b : Builtin} (hb : V.Allows (.builtin b)) {args : List Expr}
    (hargs : ∀ e ∈ args, e.Placed V.marks) :
    V.Agree V.Knows (self.callBuiltin host b args pos scope)
      (self'.callBuiltin host' b args pos scope) := by
  refine .ite ?_ (.fail _)
  refine (hself.evalAll hargs).bind fun values hvalues => ?_
  rw [hV.reply b values hb]
  exact .settle b.name pos (fun hq => hV.text hq b values hb) fun v =>
    hV.answer_knows b values v hb hvalues

/-- A call by name: what is called is known, so it is allowed. -/
theorem call {name : String} (hname : V.names name) {args : List Expr}
    (hargs : ∀ e ∈ args, e.Placed V.marks) :
    V.Agree V.Knows (self.call host name args pos scope)
      (self'.call host' name args pos scope) := by
  refine .get_bind fun m hm => ?_
  rw [hV.calledName_eq hname]
  refine (Vocabulary.Agree.ofResult (fun c => hV.calledName_allows hname hm) pos).bind
    fun callee hcallee => ?_
  cases callee with
  | closure f => exact hself.callClosure hV hcallee hargs
  | builtin b => exact hself.callBuiltin hV hcallee hargs

/-! ## Nodes -/

/-- One step of evaluation, node by node. -/
theorem evalStep {e : Expr} (he : e.Placed V.marks) :
    V.Agree V.Knows (Recursion.evalStep host self e scope)
      (Recursion.evalStep host' self' e scope) := by
  cases he with
  | number n => exact .pure (Vocabulary.knows_of_eq_nil rfl)
  | string s => exact .pure (Vocabulary.knows_of_eq_nil rfl)
  | boolean b => exact .pure (Vocabulary.knows_of_eq_nil rfl)
  | «variable» hname =>
      refine .get_bind fun m hm => ?_
      rw [hV.readName_eq hname]
      exact .ofResult (fun v => hV.readName_knows hname hm) _
  | binary hl hr _ => exact hself.binary _ hl hr
  | unary h _ =>
      exact (hself.eval scope h).bind fun v _ =>
        .ofResult (fun w => Vocabulary.knows_of_plain (Value.plain_unary _ v)) _
  | call hargs hname => exact hself.call hV hname hargs
  | aggregate ha hz hb _ => exact hself.aggregate _ _ ha hz hb

/-- The passes of a for loop, by induction on the items. -/
theorem each (var : String) {stmts : List Stmt} (hstmts : ∀ s ∈ stmts, s.Placed V.marks)
    {items : List Value} (hitems : ∀ v ∈ items, V.Knows v) :
    V.Agree (fun flow => V.Knows flow.value) (self.each host var stmts pos scope items)
      (self'.each host' var stmts pos scope items) := by
  induction items with
  | nil => exact .pure (Vocabulary.knows_of_eq_nil rfl)
  | cons item rest ih =>
      rw [List.forall_mem_cons] at hitems
      refine (Vocabulary.Agree.define hitems.1 scope var).bind fun _ _ => ?_
      refine (hself.block hV hstmts).bind fun flow hflow => ?_
      cases flow with
      | normal => exact ih hitems.2
      | returned v => exact .pure hflow

/-- One step of execution, node by node; a function that is defined is over code of the
vocabulary. -/
theorem execStep {s : Stmt} (hs : s.Placed V.marks) :
    V.Agree (fun flow => V.Knows flow.value) (Recursion.execStep host self s scope)
      (Recursion.execStep host' self' s scope) := by
  have hnormal : V.Agree (fun flow : Flow => V.Knows flow.value) (pure .normal) (pure .normal) :=
    .pure (Vocabulary.knows_of_eq_nil rfl)
  cases id hs with
  | expression he => exact (hself.eval scope he).discard.bind fun _ _ => hnormal
  | assign he =>
      refine (hself.eval scope he).bind fun v hv => ?_
      exact (Vocabulary.Agree.define hv scope _).bind fun _ _ => hnormal
  | ifThen hc hb _ =>
      exact (hself.evalBoolean .ifCondition hc).bind fun _ _ => .ite (hself.block hV hb) hnormal
  | ifElse hc hb ho _ =>
      exact (hself.evalBoolean .ifCondition hc).bind fun _ _ =>
        .ite (hself.block hV hb) (hself.block hV ho)
  | whileLoop hc hb _ =>
      refine (hself.evalBoolean .whileCondition hc).bind fun _ _ => .ite ?_ hnormal
      refine (hself.block hV hb).bind fun flow hflow => ?_
      cases flow with
      | normal => exact hself.exec scope hs
      | returned v => exact .pure hflow
  | forLoop he hb _ =>
      refine (hself.eval scope he).bind fun v hv => ?_
      exact (Vocabulary.Agree.ofResult (fun vs => hv.items) _).bind fun vs hvs =>
        hself.each hV _ hb hvs
  | function hb =>
      refine (Vocabulary.Agree.close hb _ _ scope).bind fun f hf => ?_
      exact (Vocabulary.Agree.define hf scope _).bind fun _ _ => hnormal
  | @giveBack value _ he _ =>
      refine .get_bind fun m _ => .ite (.fail _) ?_
      cases value with
      | none => exact .pure (Vocabulary.knows_of_eq_nil rfl)
      | some e => exact (hself.eval scope (he e rfl)).bind fun v hv => .pure hv

end Recursion.Agree

variable {host host' : Host}

/-- Runs with the same fuel on both hosts agree. -/
theorem Vocabulary.Shared.agree_ofFuel (hV : V.Shared host host') (fuel : Nat) :
    Recursion.Agree V (.ofFuel host fuel) (.ofFuel host' fuel) := by
  induction fuel with
  | zero => exact ⟨fun _ _ => .exhausted, fun _ _ => .exhausted⟩
  | succ fuel ih => exact ⟨fun _ he => ih.evalStep hV he, fun _ hs => ih.execStep hV hs⟩

end Abacus
