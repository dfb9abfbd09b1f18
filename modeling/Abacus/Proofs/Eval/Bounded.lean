import Abacus.Proofs.Eval.Keeps
import Abacus.Proofs.Eval.Visit

/-!
# Abacus.Proofs.Eval.Bounded

Evaluation keeps to a shape.  Every call opens at most as many blocks as its body
has inside of one another, on top of those of its caller, and its scope is inside
that of the function's definition, not inside that of the caller.  One lemma per
step says that its parts are run where they may be (`Bounded.evalStep`,
`Bounded.execStep`); the induction is on the fuel.

The second run of `Keeps` checks the machine before every node, so what the
invariant implies holds `Everywhere` (`bounded_heralded`).
-/

namespace Abacus

variable {X : Shape} {limit : Nat} {m : Machine}

/-! ## Steps -/

/- The arithmetic is in `block` and `callClosure`: a block has room because its shape counts it,
and a call because the scope it opens is inside that of the closure, not inside that of the
caller.  The other steps only pass on what their node allows. -/

/-- Evaluation and execution keep to the shape, where they may be run. -/
structure Recursion.Bounded (X : Shape) (limit : Nat) (parts parts' : Recursion) : Prop where
  eval : ∀ {m e scope}, m.Evaluable X scope e.folds →
    Keeps X limit m X.Knows (parts.eval e scope) (parts'.eval e scope)
  exec : ∀ {m s scope}, m.Executable X scope (.of [s]) →
    Keeps X limit m (fun h flow => X.Knows h flow.value) (parts.exec s scope) (parts'.exec s scope)

namespace Recursion.Bounded

variable {host : Host} {self self' : Recursion} {scope : FrameId} {pos : Position}

section

variable (hself : Bounded X limit self self')

include hself

/-- Arguments and items; each starts on what the ones before it left. -/
theorem evalAll {es : List Expr} (h : m.Evaluable X scope (Expr.foldsAll es)) :
    Keeps X limit m (fun heap vs => X.Knows heap (.list vs)) (self.evalAll scope es)
      (self'.evalAll scope es) := by
  induction es generalizing m with
  | nil => exact .pure h.heap (Shape.knows_of_eq_nil rfl)
  | cons e es ih =>
      refine (hself.eval (h.mono (Nat.le_max_left _ _))).bind fun v m₁ hafter hv => ?_
      refine (ih ((h.mono (Nat.le_max_right _ _)).after hafter)).bind fun vs m₂ hafter' hvs => ?_
      refine .pure hafter'.heap fun f hf => ?_
      exact (List.mem_append.mp hf).elim (hv.grows hafter'.scopes f) (hvs f)

/-- The statements of a block; each starts on what the ones before it left. -/
theorem execAll {stmts : List Stmt} (h : m.Executable X scope (.of stmts)) :
    Keeps X limit m (fun heap flow => X.Knows heap flow.value) (self.execAll scope stmts)
      (self'.execAll scope stmts) := by
  induction stmts generalizing m with
  | nil => exact .pure h.heap (Shape.knows_of_eq_nil rfl)
  | cons s rest ih =>
      obtain ⟨hs, hrest⟩ := Shape.of_cons_le_iff.mp (Shape.le_refl (.of (s :: rest)))
      refine (hself.exec (h.mono hs)).bind fun flow m₁ hafter hflow => ?_
      cases flow with
      | normal => exact ih ((h.mono hrest).after hafter)
      | returned v => exact .pure hafter.heap hflow

/-- An operand that has to be a number keeps to the shape. -/
theorem evalNumber (role : Role) {e : Expr} (h : m.Evaluable X scope e.folds) :
    Keeps X limit m (fun _ _ => True) (self.evalNumber role pos e scope)
      (self'.evalNumber role pos e scope) := by
  refine (hself.eval h).bind fun v m₁ hafter _ => ?_
  have hagreed : Agreed (.keyword .ifKw) Eq (v.expectNumber role) (v.expectNumber role) :=
    alike_expectNumber role (.refl v)
  exact .ofResult hafter.heap hagreed fun _ _ => trivial

/-- An operand that has to be a truth value keeps to the shape. -/
theorem evalBoolean (role : Role) {e : Expr} (h : m.Evaluable X scope e.folds) :
    Keeps X limit m (fun _ _ => True) (self.evalBoolean role pos e scope)
      (self'.evalBoolean role pos e scope) := by
  refine (hself.eval h).bind fun v m₁ hafter _ => ?_
  have hagreed : Agreed (.keyword .ifKw) Eq (v.expectBoolean role) (v.expectBoolean role) :=
    alike_expectBoolean role (.refl v)
  exact .ofResult hafter.heap hagreed fun _ _ => trivial

/-- A term of an aggregate, in the scope that was made for the variable. -/
theorem term (role : Role) (var : String) {body : Expr} (h : m.Evaluable X scope body.folds)
    (x : Float) :
    Keeps X limit m (fun _ _ => True) (self.term role pos var body scope x)
      (self'.term role pos var body scope x) := by
  refine (Keeps.define h.heap (Shape.knows_of_eq_nil rfl) scope var).bind fun _ m₁ hafter _ => ?_
  exact hself.evalNumber role (h.after hafter)

/-- The scope of an aggregate takes one from what the aggregates of its expression
have left. -/
theorem aggregate (kind : Aggregate) (var : String) {start stop body : Expr}
    (h : m.Evaluable X scope (Expr.aggregate kind var start stop body pos).folds) :
    Keeps X limit m X.Knows (self.aggregate kind var start stop body pos scope)
      (self'.aggregate kind var start stop body pos scope) := by
  have hfolds : (Expr.aggregate kind var start stop body pos).folds =
      max (max start.folds stop.folds) body.folds + 1 := by rw [Expr.folds]
  rw [hfolds] at h
  have hheight := h.height_le
  refine (hself.evalNumber .lowerBound (h.mono (by omega))).bind fun low m₁ hafter₁ _ => ?_
  have h₁ := h.after hafter₁
  refine (hself.evalNumber .upperBound (h₁.mono (by omega))).bind fun high m₂ hafter₂ _ => ?_
  have h₂ := h₁.after hafter₂
  have hheight₂ := h₂.height_le
  refine (Keeps.newChild h₂.heap h₂.scope_lt (by omega)).bind fun inner m₃ hafter₃ hinner => ?_
  have h₃ := h₂.after hafter₃
  have hbody : m₃.Evaluable X inner body.folds :=
    ⟨h₃.heap, hinner.1, by omega, h₃.depth_le, h₃.calls⟩
  refine Keeps.bind (A := fun _ _ => True) ?_ fun sum m₄ hafter₄ _ =>
    .pure hafter₄.heap (Shape.knows_of_eq_nil rfl)
  exact .total kind low high h₃.heap fun x m₄ hafter₄ =>
    hself.term (termRole kind) var (hbody.after hafter₄) x

/-- A binary operator has as many aggregates inside of one another as its operands. -/
theorem binary (op : BinaryOp) {left right : Expr}
    (h : m.Evaluable X scope (max left.folds right.folds)) :
    Keeps X limit m X.Knows (self.binary op left right pos scope)
      (self'.binary op left right pos scope) := by
  have hleft := h.mono (Nat.le_max_left left.folds right.folds)
  have hright := h.mono (Nat.le_max_right left.folds right.folds)
  unfold Recursion.binary
  cases op.decisive? with
  | none =>
      refine (hself.eval hleft).bind fun a m₁ hafter₁ _ => ?_
      refine (hself.eval (hright.after hafter₁)).bind fun b m₂ hafter₂ _ => ?_
      exact .ofResult hafter₂.heap (alike_apply Likeness.faithful_same op (.refl a) (.refl b))
        fun v hv => Shape.knows_of_plain (Value.plain_apply op a b) hv
  | some b =>
      refine (hself.evalBoolean (.side op) hleft).bind fun x m₁ hafter₁ _ => ?_
      refine .ite (fun _ => .pure hafter₁.heap (Shape.knows_of_eq_nil rfl)) fun _ => ?_
      refine (hself.evalBoolean (.side op) (hright.after hafter₁)).bind fun y m₂ hafter₂ _ => ?_
      exact .pure hafter₂.heap (Shape.knows_of_eq_nil rfl)

end

section

variable (hself : Bounded X host.maxDepth self self')

include hself

/-- A block is opened where a statement with such a block may be executed. -/
theorem block {stmts : List Stmt} (h : m.Executable X scope (Shape.of stmts).around) :
    Keeps X host.maxDepth m (fun heap flow => X.Knows heap flow.value)
      (self.block host pos stmts scope) (self'.block host pos stmts scope) := by
  have hblocks : m.heap.height scope + ((Shape.of stmts).blocks + 1) ≤ 1 + X.blocks := h.blocks_le
  have hdepth := h.depth_lt
  refine (Keeps.newChild h.heap h.scope_lt (by omega)).bind fun inner m₁ hafter hinner => ?_
  have hdepth₁ := hafter.depth_eq
  have hcalls₁ := hafter.calls_eq
  refine .deeper pos hafter.heap (fun hle => ?_) (hself.execAll ?_)
  · refine h.calls.imp_right fun hcalls => ?_
    rw [hcalls, Nat.mul_zero] at hdepth
    omega
  · refine ⟨hafter.heap, hinner.1, ?_, h.folds_le, h.functions, ?_, ?_⟩
    · show m₁.heap.height inner + (Shape.of stmts).blocks ≤ 1 + X.blocks
      omega
    · show m₁.depth + 1 < X.blocks * m₁.calls + m₁.heap.height inner
      rw [hdepth₁, hcalls₁, hinner.2]
      omega
    · show X.functions = true ∨ m₁.calls = 0
      rw [hcalls₁]
      exact h.calls

/-- The frame of a call is a scope inside that of the closure, however deep the
call is. -/
theorem callClosure {f : Closure} {args : List Expr}
    (h : m.Evaluable X scope (Expr.foldsAll args)) (hf : X.Admits m.heap f) :
    Keeps X host.maxDepth m X.Knows (self.callClosure host f args pos scope)
      (self'.callClosure host f args pos scope) := by
  refine .ite (fun _ => ?_) fun _ => .fail h.heap id
  refine (hself.evalAll h).bind fun values m₁ hafter₁ hvalues => ?_
  have hf₁ := hf.grows hafter₁.scopes
  have hblocks := hf₁.blocks_le
  refine (Keeps.newChild hafter₁.heap hf₁.scope_lt (by omega)).bind
    fun inner m₂ hafter₂ hinner => ?_
  refine (Keeps.defineAll hafter₂.heap inner f.params (hvalues.grows hafter₂.scopes)).bind
    fun _ m₃ hafter₃ _ => ?_
  have hafter := (hafter₁.trans hafter₂).trans hafter₃
  have hheight : m₃.heap.height inner = m₁.heap.height f.scope + 1 :=
    (Heap.height_of_grows hafter₃.scopes hinner.1).trans hinner.2
  have hinner₃ : inner < m₃.heap.nextId := Nat.lt_of_lt_of_le hinner.1 hafter₃.scopes.nextId_le
  have hpos := m₁.heap.height_pos f.scope
  have hdepth := (h.after hafter).depth_le
  refine Keeps.bind (.insideCall pos hafter₃.heap hf.functions (hself.execAll ?_))
    fun flow m₄ hafter₄ hflow => ?_
  · refine ⟨hafter₃.heap, hinner₃, ?_, hf.folds_le, fun _ => hf.functions, ?_, .inl hf.functions⟩
    · show m₃.heap.height inner + Stmt.layersAll f.body ≤ 1 + X.blocks
      omega
    · show m₃.depth + 1 < X.blocks * (m₃.calls + 1) + m₃.heap.height inner
      omega
  · cases flow with
    | normal => exact .pure hafter₄.heap hflow
    | returned v => exact .pure hafter₄.heap hflow

/-- The passes of a for loop: each opens its block anew. -/
theorem each (var : String) {stmts : List Stmt} {items : List Value}
    (h : m.Executable X scope (Shape.of stmts).around) (hitems : X.Knows m.heap (.list items)) :
    Keeps X host.maxDepth m (fun heap flow => X.Knows heap flow.value)
      (self.each host var stmts pos scope items) (self'.each host var stmts pos scope items) := by
  induction items generalizing m with
  | nil => exact .pure h.heap (Shape.knows_of_eq_nil rfl)
  | cons item rest ih =>
      have hitem : X.Knows m.heap item := fun f hf => hitems f (List.mem_append_left _ hf)
      have hrest : X.Knows m.heap (.list rest) := fun f hf =>
        hitems f (List.mem_append_right _ hf)
      refine (Keeps.define h.heap hitem scope var).bind fun _ m₁ hafter₁ _ => ?_
      refine (hself.block (h.after hafter₁)).bind fun flow m₂ hafter₂ hflow => ?_
      have hafter := hafter₁.trans hafter₂
      cases flow with
      | normal => exact ih (h.after hafter) (hrest.grows hafter.scopes)
      | returned v => exact .pure hafter₂.heap hflow

/-- One step of execution, node by node. -/
theorem execStep {s : Stmt} (h : m.Executable X scope (.of [s])) :
    Keeps X host.maxDepth m (fun heap flow => X.Knows heap flow.value)
      (Recursion.execStep host self s scope) (Recursion.execStep host self' s scope) := by
  have hexpr : ∀ e ∈ s.expressions, m.Evaluable X scope e.folds := fun e he =>
    h.evaluable (Shape.folds_le_of_mem he)
  have hblock : ∀ b ∈ s.blocks, m.Executable X scope (Shape.of b).around := fun b hb =>
    h.mono (Shape.around_le_of_mem_blocks hb)
  match s with
  | .expression e =>
      have he := hexpr e (by simp [Stmt.expressions])
      refine (hself.eval he).discard.bind fun _ m₁ hafter _ => ?_
      exact .pure hafter.heap (Shape.knows_of_eq_nil rfl)
  | .assign name value _ =>
      have hvalue := hexpr value (by simp [Stmt.expressions])
      refine (hself.eval hvalue).bind fun v m₁ hafter hv => ?_
      refine (Keeps.define hafter.heap hv scope name).bind fun _ m₂ hafter₂ _ => ?_
      exact .pure hafter₂.heap (Shape.knows_of_eq_nil rfl)
  | .ifThen condition stmts pos =>
      have hcondition := hexpr condition (by simp [Stmt.expressions])
      refine (hself.evalBoolean .ifCondition hcondition).bind fun b m₁ hafter _ => ?_
      refine .ite (fun _ => ?_) fun _ => .pure hafter.heap (Shape.knows_of_eq_nil rfl)
      exact hself.block ((hblock stmts (by simp [Stmt.blocks])).after hafter)
  | .ifElse condition stmts other pos =>
      have hcondition := hexpr condition (by simp [Stmt.expressions])
      refine (hself.evalBoolean .ifCondition hcondition).bind fun b m₁ hafter _ => ?_
      refine .ite (fun _ => ?_) fun _ => ?_
      · exact hself.block ((hblock stmts (by simp [Stmt.blocks])).after hafter)
      · exact hself.block ((hblock other (by simp [Stmt.blocks])).after hafter)
  | .whileLoop condition stmts pos =>
      have hcondition := hexpr condition (by simp [Stmt.expressions])
      refine (hself.evalBoolean .whileCondition hcondition).bind fun b m₁ hafter₁ _ => ?_
      refine .ite (fun _ => ?_) fun _ => .pure hafter₁.heap (Shape.knows_of_eq_nil rfl)
      have hbody := (hblock stmts (by simp [Stmt.blocks])).after hafter₁
      refine (hself.block hbody).bind fun flow m₂ hafter₂ hflow => ?_
      cases flow with
      | normal => exact hself.exec ((h.after hafter₁).after hafter₂)
      | returned v => exact .pure hafter₂.heap hflow
  | .forLoop var items stmts pos =>
      have hitems := hexpr items (by simp [Stmt.expressions])
      refine (hself.eval hitems).bind fun v m₁ hafter₁ hv => ?_
      refine Keeps.bind (A := fun heap vs => X.Knows heap (.list vs)) ?_
        fun vs m₂ hafter₂ hvs => ?_
      · exact .ofResult hafter₁.heap (alike_items (.refl v))
          fun vs hvs f hf => hv f (Value.mem_closures_of_items hvs hf)
      · exact hself.each var ((hblock stmts (by simp [Stmt.blocks])).after
          (hafter₁.trans hafter₂)) hvs
  | .function name params stmts pos =>
      have hbody := h.mono (Shape.around_le_of_function name params stmts pos)
      refine (Keeps.close hbody (h.functions rfl) name params).bind fun f m₁ hafter₁ hf => ?_
      have hknows : X.Knows m₁.heap (.function f) := fun g hg => List.mem_singleton.mp hg ▸ hf
      refine (Keeps.define hafter₁.heap hknows scope name).bind fun _ m₂ hafter₂ _ => ?_
      exact .pure hafter₂.heap (Shape.knows_of_eq_nil rfl)
  | .giveBack value pos =>
      refine .get_bind (.ite (fun _ => .fail h.heap id) fun _ => ?_)
      cases value with
      | some e =>
          have he := hexpr e (by simp [Stmt.expressions])
          exact (hself.eval he).bind fun v m₁ hafter hv => .pure hafter.heap hv
      | none => exact .pure h.heap (Shape.knows_of_eq_nil rfl)

variable (hhost : host.Closureless)

include hhost

/-- A call of a builtin, which gives back no closure but those of its arguments. -/
theorem callBuiltin (b : Builtin) {args : List Expr}
    (h : m.Evaluable X scope (Expr.foldsAll args)) :
    Keeps X host.maxDepth m X.Knows (self.callBuiltin host b args pos scope)
      (self'.callBuiltin host b args pos scope) := by
  refine .ite (fun _ => ?_) fun _ => .fail h.heap id
  refine (hself.evalAll h).bind fun values m₁ hafter hvalues => ?_
  exact .settle hafter.heap b.name pos fun v hv f hf => hvalues f (hhost.reply hv f hf)

/-- A call by name: a closure that is called is one that is known. -/
theorem call (name : String) {args : List Expr} (h : m.Evaluable X scope (Expr.foldsAll args)) :
    Keeps X host.maxDepth m X.Knows (self.call host name args pos scope)
      (self'.call host name args pos scope) := by
  have hlawful := (Mirror.suits_plain host).lawful
  have hcallee := hlawful.calledName (w := m.counters) ⟨rfl, rfl, trivial⟩
    (rfl : scope = scope) name
  have hclosure : ∀ callee, calledName host m.heap scope name = .ok callee →
      ∀ f, callee = .closure f → X.Admits m.heap f := by
    rintro _ hcalled f rfl
    exact h.heap.calledName hcalled
  refine .get_bind ?_
  refine Keeps.bind (A := fun heap callee => ∀ f, callee = .closure f → X.Admits heap f)
    (.ofResult h.heap hcallee hclosure) fun callee m₁ hafter hadmits => ?_
  have h₁ := h.after hafter
  cases callee with
  | closure f => exact hself.callClosure h₁ (hadmits f rfl)
  | builtin b => exact hself.callBuiltin hhost b h₁

/-- One step of evaluation, node by node; only an aggregate makes a scope of its own. -/
theorem evalStep {e : Expr} (h : m.Evaluable X scope e.folds) :
    Keeps X host.maxDepth m X.Knows (Recursion.evalStep host self e scope)
      (Recursion.evalStep host self' e scope) := by
  cases e with
  | number n => exact .pure h.heap (Shape.knows_of_eq_nil rfl)
  | string s => exact .pure h.heap (Shape.knows_of_eq_nil rfl)
  | boolean b => exact .pure h.heap (Shape.knows_of_eq_nil rfl)
  | «variable» name pos =>
      have hlawful := (Mirror.suits_plain host).lawful
      have hread := hlawful.readName (w := m.counters) ⟨rfl, rfl, trivial⟩
        (rfl : scope = scope) name
      exact .get_bind (.ofResult h.heap hread fun v hv => h.heap.readName hhost hv)
  | binary op left right pos => exact hself.binary op h
  | unary op operand pos =>
      have hoperand : m.Evaluable X scope operand.folds := h
      refine (hself.eval hoperand).bind fun v m₁ hafter _ => ?_
      exact .ofResult hafter.heap (alike_unary op (.refl v))
        fun w hw => Shape.knows_of_plain (Value.plain_unary op v) hw
  | call name args pos => exact hself.call hhost name h
  | aggregate kind var start stop body pos => exact hself.aggregate kind var h

end

end Recursion.Bounded

/-! ## Runs of every length -/

/-- The nodes of a run that keeps to a shape are visited on machines that do: the
invariant of `Everywhere` statements about scopes and open blocks. -/
structure Machine.Inside (X : Shape) (m : Machine) : Prop where
  heap : m.heap.Within X
  depth_le : m.depth ≤ X.blocks * (m.calls + 1)

theorem Machine.Evaluable.inside {scope : FrameId} {folds : Nat}
    (h : m.Evaluable X scope folds) : m.Inside X := ⟨h.heap, h.depth_le⟩

/-- Runs with any fuel keep to the shape, and what follows from the invariant holds
before every node. -/
theorem Recursion.bounded_heralded {host : Host} (hhost : host.Closureless)
    {ok : Visit → Machine → Prop} [∀ v, DecidablePred (ok v)]
    (hok : ∀ v m, m.Inside X → ok v m) (alarm : Stop) (fuel : Nat) :
    Bounded X host.maxDepth (.ofFuel host fuel)
      (.heralded host (fun v => Run.check (ok v) alarm) fuel) := by
  induction fuel with
  | zero => exact ⟨fun h => .exhausted h.heap, fun h => .exhausted h.heap⟩
  | succ fuel ih =>
      constructor
      · intro m e scope h
        exact (ih.evalStep hhost h).congr rfl (checked_eval (hok _ m h.inside) alarm fuel)
      · intro m s scope h
        have hinside := (h.evaluable (Nat.zero_le _)).inside
        exact (ih.execStep h).congr rfl (checked_exec (hok _ m hinside) alarm fuel)

/-- Plain runs with any fuel keep to the shape. -/
theorem Recursion.bounded_ofFuel {host : Host} (hhost : host.Closureless) (fuel : Nat) :
    Bounded X host.maxDepth (.ofFuel host fuel) (.ofFuel host fuel) := by
  have hself : Bounded X host.maxDepth (.ofFuel host fuel)
      (.heralded host (fun _ => Run.check (fun _ => True) .exhausted) fuel) :=
    bounded_heralded hhost (fun _ _ _ => trivial) .exhausted fuel
  exact ⟨fun h => (hself.eval h).self, fun h => (hself.exec h).self⟩

end Abacus
