import Abacus.Proofs.Eval.Law

/-!
# Abacus.Proofs.Eval.Scopes

What runs do to scopes.  Every block, call and aggregate binds its names in a
scope of its own, so the scopes that exist before a run are out of its reach:

* evaluating an expression changes no scope that exists (`evaluate_scopes`);
* executing a statement changes at most the scope it is executed in, and there
  at most the name that the statement binds (`execute_scopes`).

Both hold of every machine, every scope and every outcome.  The induction is on
the fuel; `Recursion.KeepsScopes` is what it carries from the parts of a node to
the node.
-/

namespace Abacus

/-- The name that a statement may bind in the scope it is executed in. -/
def Stmt.target? : Stmt → Option String
  | .assign name _ _ => some name
  | .forLoop var _ _ _ => some var
  | .function name _ _ _ => some name
  | .expression _ | .ifThen _ _ _ | .ifElse _ _ _ _ | .whileLoop _ _ _ | .giveBack _ _ => none

/-! ## Effects on frames -/

/-- What may happen to the frame of a scope: its number, the frame before and
the frame after. -/
abbrev Effect := FrameId → Frame → Frame → Prop

namespace Effect

/-- No frame changes. -/
def none : Effect := fun _ f g => g = f

/-- At most the bindings of one scope change. -/
def inside (scope : FrameId) : Effect := fun id f g => g = f ∨ id = scope ∧ g.outer = f.outer

/-- At most one name is bound, in one scope; none if no name is given. -/
def rebinds (scope : FrameId) (name? : Option String) : Effect := fun id f g =>
  g = f ∨ id = scope ∧ ∃ name v, name? = some name ∧ g = f.define name v

instance (id : FrameId) : IsPreorder Frame (none id) where
  refl _ := rfl
  trans _ _ _ hfg hgh := hgh.trans hfg

instance (scope id : FrameId) : IsPreorder Frame (inside scope id) where
  refl _ := .inl rfl
  trans f g h hfg hgh := by
    obtain rfl | ⟨hid, hout⟩ := hgh
    · exact hfg
    · obtain rfl | ⟨_, hout'⟩ := hfg
      · exact .inr ⟨hid, hout⟩
      · exact .inr ⟨hid, hout.trans hout'⟩

instance (scope id : FrameId) (name? : Option String) :
    IsPreorder Frame (rebinds scope name? id) where
  refl _ := .inl rfl
  trans f g h hfg hgh := by
    obtain rfl | ⟨hid, name, w, hname, rfl⟩ := hgh
    · exact hfg
    · obtain rfl | ⟨_, name', v, hname', rfl⟩ := hfg
      · exact .inr ⟨hid, name, w, hname, rfl⟩
      · -- both bind the same name, so the second binding alone stands
        have hsame : name' = name := Option.some.inj (hname'.symm.trans hname)
        rw [hsame, Frame.define_define]
        exact .inr ⟨hid, name, w, hname, rfl⟩

/-- Binding a name keeps the surroundings of a scope. -/
theorem inside_of_rebinds {scope id : FrameId} {name? : Option String} {f g : Frame}
    (h : rebinds scope name? id f g) : inside scope id f g := by
  obtain rfl | ⟨hid, name, v, _, rfl⟩ := h
  · exact .inl rfl
  · exact .inr ⟨hid, rfl⟩

end Effect

/-! ## Effects on heaps -/

/-- The second heap has all scopes of the first, and their frames differ at
most by the given effect. -/
structure Heap.Grows (E : Effect) (h h' : Heap) : Prop where
  nextId_le : h.nextId ≤ h'.nextId
  frame : ∀ id < h.nextId, E id (h.frame id) (h'.frame id)

namespace Heap

/-- The frames that were there before a new one stay. -/
theorem frame_newChild_of_lt {h : Heap} {id : FrameId} (parent : FrameId) (hid : id < h.nextId) :
    (h.newChild parent).frame id = h.frame id := by
  rw [newChild, frame_add, if_neg (Nat.ne_of_lt hid)]

/-- A binding in one frame leaves the others. -/
theorem frame_define_of_ne {h : Heap} {id other : FrameId} (name : String) (v : Value)
    (hne : id ≠ other) : (h.define id name v).frame other = h.frame other := by
  unfold define frame
  rw [Array.getD_eq_getD_getElem?, Array.getD_eq_getD_getElem?, Array.getElem?_modify,
    if_neg hne]

namespace Grows

variable {E : Effect}

/-- A heap may be allowed to change more. -/
theorem mono {F : Effect} {h h' : Heap} (hg : h.Grows E h') (hEF : ∀ id f g, E id f g → F id f g) :
    h.Grows F h' :=
  ⟨hg.nextId_le, fun id hid => hEF id _ _ (hg.frame id hid)⟩

variable [∀ id, IsPreorder Frame (E id)]

theorem refl (h : Heap) : h.Grows E h := ⟨Nat.le_refl _, fun id _ => refl_of (E id) _⟩

/-- One change after another, if the effects on each frame compose. -/
theorem trans {h₁ h₂ h₃ : Heap} (h₁₂ : h₁.Grows E h₂) (h₂₃ : h₂.Grows E h₃) : h₁.Grows E h₃ := by
  refine ⟨Nat.le_trans h₁₂.nextId_le h₂₃.nextId_le, fun id hid => ?_⟩
  have hid₂ : id < h₂.nextId := Nat.lt_of_lt_of_le hid h₁₂.nextId_le
  exact trans_of (E id) (h₁₂.frame id hid) (h₂₃.frame id hid₂)

/-- Binding a name has the effect that the scope's frame shows. -/
theorem define {h : Heap} {scope : FrameId} {name : String} {v : Value}
    (hE : ∀ f : Frame, E scope f (f.define name v)) : h.Grows E (h.define scope name v) := by
  refine ⟨Nat.le_of_eq (nextId_define h scope name v).symm, fun id hid => ?_⟩
  by_cases hne : scope = id
  · subst hne
    rw [frame_define h scope scope name v hid, if_pos rfl]
    exact hE _
  · rw [frame_define_of_ne name v hne]
    exact refl_of (E id) _

end Grows

/-- What happens inside a fresh scope is not seen from the scopes before it. -/
theorem Grows.hide {h h' : Heap} {parent : FrameId}
    (hg : (h.newChild parent).Grows (.inside h.nextId) h') : h.Grows .none h' := by
  have hle := hg.nextId_le
  rw [nextId_newChild] at hle
  refine ⟨Nat.le_of_succ_le hle, fun id hid => ?_⟩
  have hlt : id < (h.newChild parent).nextId := by
    rw [nextId_newChild]
    exact Nat.lt_succ_of_lt hid
  obtain heq | ⟨hfresh, _⟩ := hg.frame id hlt
  · exact heq.trans (frame_newChild_of_lt parent hid)
  · exact absurd hfresh (Nat.ne_of_lt hid)

end Heap

/-! ## Primitive runs -/

/-- The law that a run has at most the given effect on the scopes that exist. -/
def Effect.law (E : Effect) : Machine → Machine → Prop := fun m m' => m.heap.Grows E m'.heap

instance (E : Effect) [∀ id, IsPreorder Frame (E id)] : IsPreorder Machine E.law where
  refl m := Heap.Grows.refl m.heap
  trans _ _ _ h₁₂ h₂₃ := Heap.Grows.trans h₁₂ h₂₃

namespace Run

variable {α : Type}

/-- A run that changes no scope has every effect. -/
theorem Obeys.of_none {E : Effect} [∀ id, IsPreorder Frame (E id)] {x : Run α}
    (hx : x.Obeys Effect.none.law) : x.Obeys E.law := by
  refine hx.mono fun m m' hg => hg.mono fun id f g hfg => ?_
  rw [show g = f from hfg]
  exact refl_of (E id) f

/-- A run that leaves the heap alone changes no scope. -/
theorem obeys_of_heap_eq {E : Effect} [∀ id, IsPreorder Frame (E id)] {x : Run α}
    (h : ∀ m, (x.final m).heap = m.heap) : x.Obeys E.law := by
  intro m
  show m.heap.Grows E (x.final m).heap
  rw [h m]
  exact Heap.Grows.refl m.heap

/-- A binding obeys an effect that allows it. -/
theorem obeys_define {E : Effect} [∀ id, IsPreorder Frame (E id)] {scope : FrameId}
    {name : String} {v : Value} (hE : ∀ f : Frame, E scope f (f.define name v)) :
    (define scope name v).Obeys E.law := fun _ => Heap.Grows.define hE

/-- A binding is an effect inside its scope. -/
theorem obeys_define_inside (scope : FrameId) (name : String) (v : Value) :
    (define scope name v).Obeys (Effect.inside scope).law := obeys_define fun _ => .inr ⟨rfl, rfl⟩

/-- A binding is an effect on its name in its scope. -/
theorem obeys_define_rebinds (scope : FrameId) (name : String) (v : Value) :
    (define scope name v).Obeys (Effect.rebinds scope (some name)).law :=
  obeys_define fun _ => .inr ⟨rfl, name, v, rfl, rfl⟩

/-- A closure leaves every frame. -/
theorem obeys_close {E : Effect} [∀ id, IsPreorder Frame (E id)] (name : String)
    (params : List String) (body : List Stmt) (scope : FrameId) :
    (close name params body scope).Obeys E.law :=
  fun m => ⟨Nat.le_refl _, fun id _ => refl_of (E id) (m.heap.frame id)⟩

/-- A run in a fresh scope that changes only that scope changes none that
existed before. -/
theorem obeys_newChild_bind {parent : FrameId} {f : FrameId → Run α}
    (hf : ∀ inner, (f inner).Obeys (Effect.inside inner).law) :
    (newChild parent >>= f).Obeys Effect.none.law := by
  intro m
  have hok : newChild parent m =
      .ok m.heap.nextId { m with heap := m.heap.newChild parent } := rfl
  have hg := hf m.heap.nextId { m with heap := m.heap.newChild parent }
  show m.heap.Grows .none ((newChild parent >>= f).final m).heap
  rw [final, Stateful.bind_of_ok f hok, ← final]
  exact Heap.Grows.hide hg

/-- Counting a call changes no frame. -/
theorem obeys_insideCall {E : Effect} {x : Run α} (hx : x.Obeys E.law) :
    (insideCall x).Obeys E.law := hx.around fun _ _ h => h

/-- Counting a level of depth changes no frame. -/
theorem obeys_deeper {E : Effect} [∀ id, IsPreorder Frame (E id)] {x : Run α}
    (hx : x.Obeys E.law) (limit : Nat) (pos : Position) : (deeper limit pos x).Obeys E.law := by
  refine Obeys.get.bind fun m => ?_
  exact Obeys.ite (hx.around fun _ _ h => h) (Obeys.fault _ pos)

end Run

/-! ## Steps -/

/- Evaluation changes no frame that exists: what it binds it binds in a frame it has made.  A
body and a term of an aggregate change the scope that they are given, which is such a frame
wherever they are run; `each` and `execStep` may bind the target of their statement in their
own scope. -/

/-- The parts of a node keep scopes: evaluation changes none of them, execution
binds at most the target of the statement in the scope it works in. -/
structure Recursion.KeepsScopes (parts : Recursion) : Prop where
  eval : ∀ e scope, (parts.eval e scope).Obeys Effect.none.law
  exec : ∀ s scope, (parts.exec s scope).Obeys (Effect.rebinds scope s.target?).law

namespace Recursion.KeepsScopes

open Run

variable {self : Recursion} (hself : self.KeepsScopes) (host : Host)

include hself

/-- A body changes at most the scope it is given, as each of its statements does. -/
theorem body (pos : Position) (stmts : List Stmt) (scope : FrameId) :
    (self.body host pos stmts scope).Obeys (Effect.inside scope).law := by
  have hexec : ∀ s, (self.exec s scope).Obeys (Effect.inside scope).law := fun s =>
    (hself.exec s scope).mono fun _ _ h => h.mono fun _ _ _ => Effect.inside_of_rebinds
  exact obeys_deeper (Obeys.execAll hexec stmts) host.maxDepth pos

/-- A block works in a frame of its own, which is new. -/
theorem block (pos : Position) (stmts : List Stmt) (scope : FrameId) :
    (self.block host pos stmts scope).Obeys Effect.none.law :=
  obeys_newChild_bind fun inner => hself.body host pos stmts inner

/-- A call of a closure works in a frame of its own, which is new. -/
theorem callClosure (f : Closure) (args : List Expr) (pos : Position) (scope : FrameId) :
    (self.callClosure host f args pos scope).Obeys Effect.none.law := by
  refine Obeys.ite ?_ (Obeys.fault _ pos)
  refine (Obeys.evalAll (fun e => hself.eval e scope) args).bind fun values => ?_
  refine obeys_newChild_bind fun inner => ?_
  refine (Obeys.defineAll (obeys_define_inside inner) _).bind fun _ => ?_
  refine (obeys_insideCall (hself.body host pos f.body inner)).bind fun flow => ?_
  cases flow with
  | normal => exact Obeys.pure _
  | returned v => exact Obeys.pure v

omit hself in
/-- A builtin has no hold of the heap. -/
theorem settle (name : String) (pos : Position) (reply : Reply) :
    (Recursion.settle name pos reply).Obeys Effect.none.law := by
  have hdeliver : (Run.deliver reply).Obeys Effect.none.law := obeys_of_heap_eq fun m => rfl
  refine hdeliver.bind fun answer => ?_
  cases answer with
  | ok v => exact Obeys.flush.bind fun _ => Obeys.pure v
  | error fault => exact Obeys.fail _

/-- A call by name, of either kind. -/
theorem call (name : String) (args : List Expr) (pos : Position) (scope : FrameId) :
    (self.call host name args pos scope).Obeys Effect.none.law := by
  refine Obeys.get.bind fun m => (Obeys.ofResult pos _).bind fun callee => ?_
  cases callee with
  | closure f => exact hself.callClosure host f args pos scope
  | builtin b =>
      refine Obeys.ite ?_ (Obeys.fault _ pos)
      refine (Obeys.evalAll (fun e => hself.eval e scope) args).bind fun values => ?_
      exact settle b.name pos _

/-- An operand that has to be a number changes no frame. -/
theorem evalNumber (role : Role) (pos : Position) (e : Expr) (scope : FrameId) :
    (self.evalNumber role pos e scope).Obeys Effect.none.law :=
  (hself.eval e scope).bind fun _ => Obeys.ofResult pos _

/-- An operand that has to be a truth value changes no frame. -/
theorem evalBoolean (role : Role) (pos : Position) (e : Expr) (scope : FrameId) :
    (self.evalBoolean role pos e scope).Obeys Effect.none.law :=
  (hself.eval e scope).bind fun _ => Obeys.ofResult pos _

/-- A term binds its variable in the inner scope. -/
theorem term (role : Role) (pos : Position) (var : String) (body : Expr) (inner : FrameId)
    (x : Float) : (self.term role pos var body inner x).Obeys (Effect.inside inner).law :=
  (obeys_define_inside inner var _).bind fun _ =>
    Obeys.of_none (hself.evalNumber role pos body inner)

/-- An aggregate works in a frame of its own. -/
theorem aggregate (kind : Aggregate) (var : String) (start stop body : Expr) (pos : Position)
    (scope : FrameId) :
    (self.aggregate kind var start stop body pos scope).Obeys Effect.none.law := by
  refine (hself.evalNumber .lowerBound pos start scope).bind fun low => ?_
  refine (hself.evalNumber .upperBound pos stop scope).bind fun high => ?_
  refine obeys_newChild_bind fun inner => ?_
  have hterm := hself.term (termRole kind) pos var body inner
  exact (Obeys.total hterm kind low high).bind fun sum => Obeys.pure _

/-- A binary operator evaluates its operands in its own scope. -/
theorem binary (op : BinaryOp) (left right : Expr) (pos : Position) (scope : FrameId) :
    (self.binary op left right pos scope).Obeys Effect.none.law := by
  unfold Recursion.binary
  cases op.decisive? with
  | none =>
      refine (hself.eval left scope).bind fun a => (hself.eval right scope).bind fun b => ?_
      exact Obeys.ofResult pos _
  | some b =>
      refine (hself.evalBoolean (.side op) pos left scope).bind fun x => ?_
      refine Obeys.ite (Obeys.pure _) ?_
      exact (hself.evalBoolean (.side op) pos right scope).bind fun y => Obeys.pure _

/-- A step of evaluation changes no frame that exists. -/
theorem evalStep (e : Expr) (scope : FrameId) :
    (Recursion.evalStep host self e scope).Obeys Effect.none.law := by
  cases e with
  | number n => exact Obeys.pure (Value.number n)
  | string s => exact Obeys.pure (Value.string s)
  | boolean b => exact Obeys.pure (Value.boolean b)
  | «variable» name pos => exact Obeys.get.bind fun m => Obeys.ofResult pos _
  | binary op left right pos => exact hself.binary op left right pos scope
  | unary op operand pos => exact (hself.eval operand scope).bind fun v => Obeys.ofResult pos _
  | call name args pos => exact hself.call host name args pos scope
  | aggregate kind var start stop body pos =>
      exact hself.aggregate kind var start stop body pos scope

/-- The passes of a for loop bind the variable outside and run the body inside, by
induction on the items. -/
theorem each (var : String) (stmts : List Stmt) (pos : Position) (scope : FrameId)
    (items : List Value) :
    (self.each host var stmts pos scope items).Obeys (Effect.rebinds scope (some var)).law := by
  induction items with
  | nil => exact Obeys.pure Flow.normal
  | cons item rest ih =>
      refine (obeys_define_rebinds scope var item).bind fun _ => ?_
      refine (Obeys.of_none (hself.block host pos stmts scope)).bind fun flow => ?_
      cases flow with
      | normal => exact ih
      | returned v => exact Obeys.pure (Flow.returned v)

/-- A step of execution binds at most the target of its statement. -/
theorem execStep (s : Stmt) (scope : FrameId) :
    (Recursion.execStep host self s scope).Obeys (Effect.rebinds scope s.target?).law := by
  match s with
  | .expression e =>
      exact Obeys.of_none (hself.eval e scope).discard |>.bind fun _ => Obeys.pure Flow.normal
  | .assign name value _ =>
      refine (Obeys.of_none (hself.eval value scope)).bind fun v => ?_
      exact (obeys_define_rebinds scope name v).bind fun _ => Obeys.pure Flow.normal
  | .ifThen condition stmts pos =>
      refine Obeys.of_none (hself.evalBoolean .ifCondition pos condition scope) |>.bind fun b => ?_
      exact Obeys.ite (Obeys.of_none (hself.block host pos stmts scope)) (Obeys.pure Flow.normal)
  | .ifElse condition stmts other pos =>
      refine Obeys.of_none (hself.evalBoolean .ifCondition pos condition scope) |>.bind fun b => ?_
      exact Obeys.ite (Obeys.of_none (hself.block host pos stmts scope))
        (Obeys.of_none (hself.block host pos other scope))
  | .whileLoop condition stmts pos =>
      refine Obeys.of_none (hself.evalBoolean .whileCondition pos condition scope) |>.bind
        fun b => Obeys.ite ?_ (Obeys.pure Flow.normal)
      refine (Obeys.of_none (hself.block host pos stmts scope)).bind fun flow => ?_
      cases flow with
      | normal => exact hself.exec (.whileLoop condition stmts pos) scope
      | returned v => exact Obeys.pure (Flow.returned v)
  | .forLoop var items stmts pos =>
      refine (Obeys.of_none (hself.eval items scope)).bind fun v => ?_
      exact (Obeys.ofResult pos _).bind fun vs => hself.each host var stmts pos scope vs
  | .function name params stmts _ =>
      refine (obeys_close name params stmts scope).bind fun f => ?_
      exact (obeys_define_rebinds scope name _).bind fun _ => Obeys.pure Flow.normal
  | .giveBack value pos =>
      refine Obeys.get.bind fun m => Obeys.ite (Obeys.fault _ pos) ?_
      cases value with
      | none => exact Obeys.pure _
      | some e => exact (Obeys.of_none (hself.eval e scope)).bind fun v => Obeys.pure _

end Recursion.KeepsScopes

/-! ## Runs -/

/-- Runs of every length keep scopes. -/
theorem Recursion.keepsScopes_ofFuel (host : Host) (fuel : Nat) :
    (Recursion.ofFuel host fuel).KeepsScopes := by
  induction fuel with
  | zero => exact ⟨fun _ _ => Run.Obeys.exhausted, fun _ _ => Run.Obeys.exhausted⟩
  | succ fuel ih => exact ⟨fun e scope => ih.evalStep host e scope,
      fun s scope => ih.execStep host s scope⟩

/-- Evaluating an expression changes no scope that exists. -/
theorem evaluate_scopes (host : Host) (fuel : Nat) (e : Expr) (scope : FrameId) :
    (evaluate host fuel e scope).Obeys Effect.none.law :=
  (Recursion.keepsScopes_ofFuel host fuel).eval e scope

/-- Executing a statement binds at most its target, in the scope it is executed
in. -/
theorem execute_scopes (host : Host) (fuel : Nat) (s : Stmt) (scope : FrameId) :
    (execute host fuel s scope).Obeys (Effect.rebinds scope s.target?).law :=
  (Recursion.keepsScopes_ofFuel host fuel).exec s scope

/-- **Frame law of scopes**: from every machine and whatever the outcome,
evaluation leaves the frame of every scope that exists as it was, and execution
leaves the frame of every scope as it was but for one binding of the target of
the statement in the scope it is executed in. -/
theorem scope_frame_law (host : Host) (fuel : Nat) (scope : FrameId) (m : Machine) :
    (∀ e id, id < m.heap.nextId →
      ((evaluate host fuel e scope).final m).heap.frame id = m.heap.frame id) ∧
    (∀ s id, id < m.heap.nextId → id ≠ scope →
      ((execute host fuel s scope).final m).heap.frame id = m.heap.frame id) ∧
    (∀ s, scope < m.heap.nextId →
      ((execute host fuel s scope).final m).heap.frame scope = m.heap.frame scope ∨
      ∃ name v, s.target? = some name ∧
        ((execute host fuel s scope).final m).heap.frame scope =
          (m.heap.frame scope).define name v) := by
  refine ⟨fun e id hid => ?_, fun s id hid hne => ?_, fun s hid => ?_⟩
  · exact (evaluate_scopes host fuel e scope m).frame id hid
  · obtain heq | ⟨hscope, _⟩ := (execute_scopes host fuel s scope m).frame id hid
    · exact heq
    · exact absurd hscope hne
  · obtain heq | ⟨_, hbound⟩ := (execute_scopes host fuel s scope m).frame scope hid
    · exact .inl heq
    · exact .inr hbound

/-- A loop in a scope inside the outermost one: the outermost scope is as it was,
and the inner one has at most the loop variable bound. -/
theorem scope_frame_law_inner_loop :
    let m : Machine := ⟨Heap.empty.newRoot.newChild 0, .unlimited, 0, 0⟩
    let s : Stmt := .forLoop "x" (.string "ab") [.assign "y" (.variable "x" ⟨1, 19⟩) ⟨1, 15⟩] ⟨1, 1⟩
    let after := ((execute .standard 9 s 1).final m).heap
    0 < m.heap.nextId ∧ 1 < m.heap.nextId ∧ after.frame 0 = m.heap.frame 0 ∧
      (after.frame 1 = m.heap.frame 1 ∨
        ∃ name v, s.target? = some name ∧ after.frame 1 = (m.heap.frame 1).define name v) := by
  intro m s after
  have hroot : 0 < m.heap.nextId := by decide
  have hinner : 1 < m.heap.nextId := by decide
  obtain ⟨_, hothers, hown⟩ := scope_frame_law .standard 9 1 m
  exact ⟨hroot, hinner, hothers s 0 hroot (by decide), hown s hinner⟩

end Abacus
