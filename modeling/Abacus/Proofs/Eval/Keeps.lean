import Abacus.Proofs.Eval.Counters
import Abacus.Proofs.Eval.Forest

/-!
# Abacus.Proofs.Eval.Keeps

Runs that keep to a shape.  A `Shape` that is allowed bounds the height of scopes
and, with the number of open calls, how many blocks are open.
`Machine.Evaluable` and `Machine.Executable` are what an expression and a
statement need of the machine they are run on; `Machine.After` is what a run
leaves behind, also when it stops.  `Keeps` says this of a run and compares it
with a second one, so that a run that looks at the machine on its way can be
told from one that does not.
-/

namespace Abacus

/-! ## Machines -/

/-- What a run that keeps to the shape leaves behind: more scopes, and the
counters as they were. -/
structure Machine.After (X : Shape) (m m' : Machine) : Prop where
  heap : m'.heap.Within X
  scopes : m.heap.Grows .rooted m'.heap
  counters : m'.counters = m.counters

/-- An expression with so many aggregates inside of one another may be evaluated in
the scope. -/
structure Machine.Evaluable (X : Shape) (m : Machine) (scope : FrameId) (folds : Nat) : Prop where
  heap : m.heap.Within X
  scope_lt : scope < m.heap.nextId
  height_le : m.heap.height scope + folds ≤ 1 + X.blocks + X.folds
  depth_le : m.depth ≤ X.blocks * (m.calls + 1)
  calls : X.functions = true ∨ m.calls = 0

/-- Statements of the shape `S` may be executed in the scope. -/
structure Machine.Executable (X : Shape) (m : Machine) (scope : FrameId) (S : Shape) : Prop where
  heap : m.heap.Within X
  scope_lt : scope < m.heap.nextId
  blocks_le : m.heap.height scope + S.blocks ≤ 1 + X.blocks
  folds_le : S.folds ≤ X.folds
  functions : S.functions = true → X.functions = true
  depth_lt : m.depth < X.blocks * m.calls + m.heap.height scope
  calls : X.functions = true ∨ m.calls = 0

namespace Machine

variable {X S T : Shape} {m m₁ m₂ : Machine} {scope : FrameId} {n n' : Nat}

/-- Nothing has been done. -/
theorem After.refl (h : m.heap.Within X) : After X m m := ⟨h, .refl m.heap, rfl⟩

/-- One run after another. -/
theorem After.trans (h : After X m m₁) (h' : After X m₁ m₂) : After X m m₂ :=
  ⟨h'.heap, h.scopes.trans h'.scopes, h'.counters.trans h.counters⟩

theorem After.depth_eq (h : After X m m₁) : m₁.depth = m.depth := congrArg Counters.depth h.counters

theorem After.calls_eq (h : After X m m₁) : m₁.calls = m.calls := congrArg Counters.calls h.counters

namespace Evaluable

/-- Fewer aggregates need no more of the machine. -/
theorem mono (h : m.Evaluable X scope n) (hle : n' ≤ n) : m.Evaluable X scope n' :=
  ⟨h.heap, h.scope_lt, Nat.le_trans (Nat.add_le_add_left hle _) h.height_le, h.depth_le, h.calls⟩

/-- What a run leaves behind is as good for an expression as what it found. -/
theorem after (h : m.Evaluable X scope n) (ha : After X m m₁) : m₁.Evaluable X scope n := by
  refine ⟨ha.heap, Nat.lt_of_lt_of_le h.scope_lt ha.scopes.nextId_le, ?_, ?_, ?_⟩
  · rw [Heap.height_of_grows ha.scopes h.scope_lt]
    exact h.height_le
  · rw [ha.depth_eq, ha.calls_eq]
    exact h.depth_le
  · rw [ha.calls_eq]
    exact h.calls

end Evaluable

namespace Executable

/-- A smaller shape needs no more of the machine. -/
theorem mono (h : m.Executable X scope T) (hle : S ≤ T) : m.Executable X scope S :=
  ⟨h.heap, h.scope_lt, Nat.le_trans (Nat.add_le_add_left hle.blocks _) h.blocks_le,
    Nat.le_trans hle.folds h.folds_le, fun hS => h.functions (hle.functions hS), h.depth_lt,
    h.calls⟩

/-- What a run leaves behind is as good for a statement as what it found. -/
theorem after (h : m.Executable X scope S) (ha : After X m m₁) : m₁.Executable X scope S := by
  have hheight := Heap.height_of_grows ha.scopes h.scope_lt
  refine ⟨ha.heap, Nat.lt_of_lt_of_le h.scope_lt ha.scopes.nextId_le, ?_, h.folds_le, h.functions,
    ?_, ?_⟩
  · rw [hheight]
    exact h.blocks_le
  · rw [hheight, ha.depth_eq, ha.calls_eq]
    exact h.depth_lt
  · rw [ha.calls_eq]
    exact h.calls

/-- Where a statement may be executed its expressions may be evaluated. -/
theorem evaluable (h : m.Executable X scope S) (hle : n ≤ S.folds) : m.Evaluable X scope n := by
  have hblocks := h.blocks_le
  have hfolds := h.folds_le
  have hdepth := h.depth_lt
  refine ⟨h.heap, h.scope_lt, by omega, ?_, h.calls⟩
  rw [Nat.mul_succ]
  omega

end Executable

end Machine

/-! ## Runs -/

/-- From the machine the first run keeps to the shape and gives a value with `A`,
or stops, at the limit on nesting only if functions are allowed or the limit is
below the blocks that are; and the second run does the same. -/
structure Keeps {α : Type} (X : Shape) (limit : Nat) (m : Machine) (A : Heap → α → Prop)
    (x y : Run α) : Prop where
  eq : y m = x m
  ok : ∀ a m', x m = .ok a m' → m.After X m' ∧ A m'.heap a
  error : ∀ e m', x m = .error e m' →
    m.After X m' ∧ (e.IsRecursionLimit → X.functions = true ∨ limit < X.blocks)

variable {α β : Type} {X : Shape} {limit : Nat} {m : Machine}

namespace Keeps

variable {A : Heap → α → Prop} {B : Heap → β → Prop} {x y : Run α} {f g : α → Run β}

/-- What holds of two runs holds of the first and itself. -/
theorem self (h : Keeps X limit m A x y) : Keeps X limit m A x x := ⟨rfl, h.ok, h.error⟩

/-- Whatever the outcome, the machine that is left keeps to the shape. -/
theorem final (h : Keeps X limit m A x y) : m.After X (x.final m) := by
  unfold Run.final
  cases hx : x m with
  | ok a m₁ => exact (h.ok a m₁ hx).1
  | error e m₁ => exact (h.error e m₁ hx).1

/-- A run that leaves scopes and counters alone and does not stop at the limit. -/
theorem of_after (hok : ∀ a m', x m = .ok a m' → m.After X m' ∧ A m'.heap a)
    (herror : ∀ e m', x m = .error e m' → m.After X m' ∧ ¬ e.IsRecursionLimit) :
    Keeps X limit m A x x :=
  ⟨rfl, hok, fun e m' hr => ⟨(herror e m' hr).1, fun he => absurd he (herror e m' hr).2⟩⟩

/-- A value that is admitted leaves everything as it is. -/
theorem pure {a : α} (hm : m.heap.Within X) (ha : A m.heap a) :
    Keeps X limit m A (Pure.pure a) (Pure.pure a) := by
  refine of_after ?_ fun _ _ hr => by contradiction
  rintro _ _ ⟨⟩
  exact ⟨.refl hm, ha⟩

/-- An error that is no stop at the limit. -/
theorem fail (hm : m.heap.Within X) {e : Error} (he : ¬ (Stop.failed e).IsRecursionLimit) :
    Keeps X limit m A (Run.fail e) (Run.fail e) := by
  refine of_after (fun _ _ hr => by contradiction) ?_
  rintro _ _ ⟨⟩
  exact ⟨.refl hm, he⟩

theorem exhausted (hm : m.heap.Within X) :
    Keeps X limit m A Run.exhausted Run.exhausted := by
  refine of_after (fun _ _ hr => by contradiction) ?_
  rintro _ _ ⟨⟩
  exact ⟨.refl hm, id⟩

/-- What follows a run may start from any machine that the run may leave. -/
theorem bind (hx : Keeps X limit m A x y)
    (hf : ∀ a m', m.After X m' → A m'.heap a → Keeps X limit m' B (f a) (g a)) :
    Keeps X limit m B (x >>= f) (y >>= g) := by
  cases hr : x m with
  | ok a m₁ =>
      obtain ⟨hafter, ha⟩ := hx.ok a m₁ hr
      have hnext := hf a m₁ hafter ha
      constructor
      · rw [Stateful.bind_of_ok g (hx.eq.trans hr), Stateful.bind_of_ok f hr]
        exact hnext.eq
      · intro b m₂ hb
        rw [Stateful.bind_of_ok f hr] at hb
        exact (hnext.ok b m₂ hb).imp_left hafter.trans
      · intro e m₂ he
        rw [Stateful.bind_of_ok f hr] at he
        exact (hnext.error e m₂ he).imp_left hafter.trans
  | error e m₁ =>
      constructor
      · rw [Stateful.bind_of_error g (hx.eq.trans hr), Stateful.bind_of_error f hr]
      · intro b m₂ hb
        rw [Stateful.bind_of_error f hr] at hb
        contradiction
      · intro e' m₂ he
        rw [Stateful.bind_of_error f hr] at he
        cases he
        exact hx.error e m₁ hr

/-- A value that is thrown away need not be admitted. -/
theorem discard (hx : Keeps X limit m A x y) :
    Keeps X limit m (fun _ _ => True) (Functor.discard x) (Functor.discard y) := by
  rw [Stateful.discard_eq, Stateful.discard_eq]
  exact hx.bind fun _ _ hafter _ => pure hafter.heap trivial

/-- A run that looks at the machine does so before it does anything. -/
theorem get_bind {f g : Machine → Run α} (h : Keeps X limit m A (f m) (g m)) :
    Keeps X limit m A (get >>= f) (get >>= g) := ⟨h.eq, h.ok, h.error⟩

/-- A choice, each branch under its condition. -/
theorem ite {c : Prop} [Decidable c] {x' y' : Run α} (h : c → Keeps X limit m A x y)
    (h' : ¬ c → Keeps X limit m A x' y') :
    Keeps X limit m A (if c then x else x') (if c then y else y') := by
  by_cases hc : c
  · simp only [if_pos hc]
    exact h hc
  · simp only [if_neg hc]
    exact h' hc

/-- The faults of operations on values are not about nesting. -/
theorem ofResult {site : Site} {R : α → α → Prop} {r : Except RuntimeFault α} {pos : Position}
    (hm : m.heap.Within X) (hr : Agreed site R r r) (hA : ∀ a, r = .ok a → A m.heap a) :
    Keeps X limit m A (Run.ofResult pos r) (Run.ofResult pos r) := by
  cases hr with
  | ok _ => exact pure hm (hA _ rfl)
  | error hf =>
      refine fail hm fun he => ?_
      cases hf <;> exact he

/-- Counters that are put back may be changed around a run. -/
theorem around {before after : Machine → Machine} (hx : Keeps X limit (before m) A x y)
    (hafter : ∀ m', (before m).After X m' → m.After X (after m'))
    (hheap : ∀ m', (after m').heap = m'.heap) :
    Keeps X limit m A (Run.around before after x) (Run.around before after y) := by
  refine ⟨Run.around_congr hx.eq, fun a m₂ hr => ?_, fun e m₂ hr => ?_⟩
  · unfold Run.around at hr
    cases hx' : x (before m) with
    | ok a' m₁ =>
        rw [hx'] at hr
        cases hr
        obtain ⟨h₁, hA⟩ := hx.ok _ _ hx'
        exact ⟨hafter m₁ h₁, (hheap m₁).symm ▸ hA⟩
    | error e m₁ =>
        rw [hx'] at hr
        contradiction
  · unfold Run.around at hr
    cases hx' : x (before m) with
    | ok a' m₁ =>
        rw [hx'] at hr
        contradiction
    | error e' m₁ =>
        rw [hx'] at hr
        cases hr
        exact (hx.error _ _ hx').imp_left (hafter m₁)

/-! ## Primitive runs -/

/- What the primitive runs ask of the machine is what the invariant needs: a new scope must have
room (`newChild`), a value that is bound must be known (`define`), and a closure may capture
only a scope on which its body has room (`close`).  Going deeper is the one place where the
limit is met, so `deeper` says which shapes allow for that. -/

/-- A new scope is one higher than its parent; there has to be room. -/
theorem newChild (hm : m.heap.Within X) {parent : FrameId} (hparent : parent < m.heap.nextId)
    (hheight : m.heap.height parent + 1 ≤ 1 + X.blocks + X.folds) :
    Keeps X limit m (fun h inner => inner < h.nextId ∧ h.height inner = m.heap.height parent + 1)
      (Run.newChild parent) (Run.newChild parent) := by
  refine of_after ?_ fun _ _ hr => by contradiction
  rintro _ _ ⟨⟩
  refine ⟨⟨hm.newChild hparent hheight, Heap.grows_newChild _ _, rfl⟩, ?_, ?_⟩
  · rw [Heap.nextId_newChild]
    exact Nat.lt_succ_self _
  · exact Heap.height_newChild _ _

/-- A binding of a value that is known leaves the links of scopes as they are. -/
theorem define (hm : m.heap.Within X) {v : Value} (hv : X.Knows m.heap v) (scope : FrameId)
    (name : String) :
    Keeps X limit m (fun _ _ => True) (Run.define scope name v) (Run.define scope name v) := by
  refine of_after ?_ fun _ _ hr => by contradiction
  rintro _ _ ⟨⟩
  exact ⟨⟨hm.define hv scope name, .define fun _ => rfl, rfl⟩, trivial⟩

/-- Several bindings, one after the other. -/
theorem defineAll (hm : m.heap.Within X) (scope : FrameId) (names : List String)
    {values : List Value} (hvalues : X.Knows m.heap (.list values)) :
    Keeps X limit m (fun _ _ => True) (Run.defineAll scope (names.zip values))
      (Run.defineAll scope (names.zip values)) := by
  induction names generalizing m values with
  | nil => exact pure hm trivial
  | cons name names ih =>
      cases values with
      | nil => exact pure hm trivial
      | cons v values =>
          have hv : X.Knows m.heap v := fun f hf => hvalues f (List.mem_append_left _ hf)
          have hrest : X.Knows m.heap (.list values) := fun f hf =>
            hvalues f (List.mem_append_right _ hf)
          refine (define hm hv scope name).bind fun _ m₁ hafter _ => ?_
          exact ih hafter.heap (hrest.grows hafter.scopes)

/-- A closure captures a scope on which its body has room. -/
theorem close {scope : FrameId} {body : List Stmt}
    (h : m.Executable X scope (Shape.of body).around) (hfunctions : X.functions = true)
    (name : String) (params : List String) :
    Keeps X limit m X.Admits (Run.close name params body scope)
      (Run.close name params body scope) := by
  refine of_after ?_ fun _ _ hr => by contradiction
  rintro _ _ ⟨⟩
  have hblocks : m.heap.height scope + (Stmt.layersAll body + 1) ≤ 1 + X.blocks := h.blocks_le
  have hg : m.heap.Grows .rooted { m.heap with closures := m.heap.closures + 1 } :=
    ⟨Nat.le_refl _, fun _ _ => rfl⟩
  have hheap : Heap.Within X { m.heap with closures := m.heap.closures + 1 } :=
    ⟨h.heap.linked, h.heap.height_le, fun id b hb => (h.heap.known id b hb).grows hg⟩
  refine ⟨⟨hheap, hg, rfl⟩, hfunctions, h.scope_lt, ?_, h.folds_le⟩
  show m.heap.height scope + Stmt.layersAll body ≤ X.blocks
  omega

/-- Writing leaves the heap as it is, whether the sink takes the text or not. -/
theorem write (hm : m.heap.Within X) (text : String) :
    Keeps X limit m (fun _ _ => True) (Run.write text) (Run.write text) := by
  have hafter : ∀ sink, m.After X { m with sink := sink } := fun sink => ⟨hm, .refl m.heap, rfl⟩
  cases hw : m.sink.write text.toUTF8 with
  | mk sink failure =>
      refine of_after (fun _ _ hr => ?_) fun _ _ hr => ?_
      · unfold Run.write at hr
        rw [hw] at hr
        cases failure with
        | none =>
            cases hr
            exact ⟨hafter sink, trivial⟩
        | some e => contradiction
      · unfold Run.write at hr
        rw [hw] at hr
        cases failure with
        | none => contradiction
        | some e =>
            cases hr
            exact ⟨hafter sink, id⟩

theorem flush (hm : m.heap.Within X) :
    Keeps X limit m (fun _ _ => True) Run.flush Run.flush := by
  refine of_after (fun _ _ hr => ?_) fun _ _ hr => ?_
  · unfold Run.flush at hr
    split at hr
    · cases hr
      exact ⟨.refl hm, trivial⟩
    · contradiction
  · unfold Run.flush at hr
    split at hr
    · contradiction
    · cases hr
      exact ⟨.refl hm, id⟩

/-- The reply of a builtin, its text first and then its answer. -/
theorem settle (hm : m.heap.Within X) (name : String) (pos : Position) {reply : Reply}
    (h : ∀ v, reply.answer = .ok v → X.Knows m.heap v) :
    Keeps X limit m X.Knows (Recursion.settle name pos reply)
      (Recursion.settle name pos reply) := by
  rw [Pairing.settle_eq]
  refine (write hm reply.text).bind fun _ m₁ hafter _ => ?_
  cases hanswer : reply.answer with
  | ok v =>
      refine (flush hafter.heap).bind fun _ m₂ hafter' _ => ?_
      exact pure hafter'.heap ((h v hanswer).grows (hafter.trans hafter').scopes)
  | error fault =>
      refine fail hafter.heap ?_
      cases fault <;> exact id

/-- Of the runs only what they do with the machine is asked. -/
theorem congr {x' y' : Run α} (h : Keeps X limit m A x' y') (hx : x m = x' m) (hy : y m = y' m) :
    Keeps X limit m A x y :=
  ⟨hy.trans (h.eq.trans hx.symm), fun a m' hr => h.ok a m' (hx ▸ hr),
    fun e m' hr => h.error e m' (hx ▸ hr)⟩

/-- Both runs stop at the limit. -/
theorem atLimit {e : Stop} (hm : m.heap.Within X) (hx : x m = .error e m) (hy : y m = .error e m)
    (h : X.functions = true ∨ limit < X.blocks) : Keeps X limit m A x y := by
  refine ⟨hy.trans hx.symm, fun a m' hr => ?_, fun e' m' hr => ?_⟩
  · rw [hx] at hr
    contradiction
  · rw [hx] at hr
    cases hr
    exact ⟨.refl hm, fun _ => h⟩

/-- A block is run one level deeper, and at the limit not at all. -/
theorem deeper (pos : Position) (hm : m.heap.Within X)
    (hlimit : limit ≤ m.depth → X.functions = true ∨ limit < X.blocks)
    (hx : Keeps X limit m.enterBlock A x y) :
    Keeps X limit m A (Run.deeper limit pos x) (Run.deeper limit pos y) := by
  obtain hlt | hle := Nat.lt_or_ge m.depth limit
  · have hafter : ∀ m', m.enterBlock.After X m' → m.After X m'.leaveBlock := fun m' h =>
      ⟨h.heap, h.scopes, by
        simp [Machine.counters, Machine.leaveBlock, h.depth_eq, h.calls_eq, Machine.enterBlock]⟩
    exact (hx.around hafter fun _ => rfl).congr (Run.deeper_of_lt hlt pos x)
      (Run.deeper_of_lt hlt pos y)
  · exact atLimit hm (Run.deeper_of_le hle pos x) (Run.deeper_of_le hle pos y) (hlimit hle)

/-- The body of a call is run inside one more call. -/
theorem insideCall (pos : Position) (hm : m.heap.Within X) (hfunctions : X.functions = true)
    (hx : Keeps X limit m.enterCall A x y) :
    Keeps X limit m A (Run.insideCall (Run.deeper limit pos x))
      (Run.insideCall (Run.deeper limit pos y)) := by
  obtain hlt | hle := Nat.lt_or_ge m.depth limit
  · have hafter : ∀ m', m.enterCall.After X m' → m.After X m'.leaveCall := fun m' h =>
      ⟨h.heap, h.scopes, by
        simp [Machine.counters, Machine.leaveCall, h.depth_eq, h.calls_eq, Machine.enterCall]⟩
    exact (hx.around hafter fun _ => rfl).congr (Run.insideCall_deeper_of_lt hlt pos x)
      (Run.insideCall_deeper_of_lt hlt pos y)
  · exact atLimit hm (Run.insideCall_deeper_of_le hle pos x)
      (Run.insideCall_deeper_of_le hle pos y) (.inl hfunctions)

/-- A fold keeps to the shape if its terms do, from every machine on the way. -/
theorem foldFrom {combine : Float → Float → Float} {term term' : Float → Run Float} (count : Nat)
    (i : Int) (total : Float) (hm : m.heap.Within X)
    (h : ∀ x m', m.After X m' → Keeps X limit m' (fun _ _ => True) (term x) (term' x)) :
    Keeps X limit m (fun _ _ => True) (Recursion.foldFrom combine term count i total)
      (Recursion.foldFrom combine term' count i total) := by
  induction count generalizing m i total with
  | zero => exact pure hm trivial
  | succ count ih =>
      refine (h _ m (.refl hm)).bind fun x m₁ hafter _ => ?_
      exact ih (i + 1) (combine total x) hafter.heap fun x m' h' => h x m' (hafter.trans h')

/-- An aggregate over its interval; each term starts on what the terms before it left. -/
theorem total {term term' : Float → Run Float} (kind : Aggregate) (start stop : Float)
    (hm : m.heap.Within X)
    (h : ∀ x m', m.After X m' → Keeps X limit m' (fun _ _ => True) (term x) (term' x)) :
    Keeps X limit m (fun _ _ => True) (Recursion.total kind term start stop)
      (Recursion.total kind term' start stop) := by
  cases kind with
  | sum => exact foldFrom _ _ _ hm h
  | product => exact foldFrom _ _ _ hm h
  | integral => exact foldFrom _ _ _ hm fun x => h _

end Keeps

end Abacus
