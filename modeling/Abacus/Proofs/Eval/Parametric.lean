import Abacus.Proofs.Eval.Lockstep

/-!
# Abacus.Proofs.Eval.Parametric

Evaluation is parametric.  `Pairing.Lawful` asks of a pairing what the primitive
runs of two hosts have to respect; then every step of evaluation respects it, if
the evaluation of the parts of its node does (`Paired.evalStep`,
`Paired.execStep`), and so do runs with the same fuel (`Lawful.paired_ofFuel`).
Each law that compares two runs is an instance: it says what its pairing is and
checks the primitives.
-/

namespace Abacus

/-- The value that a call makes of the way its body ended. -/
def Flow.value : Flow → Value
  | .normal => .none
  | .returned v => v

namespace Pairing

/-! ## Counted alike -/

/-- Machines that stand for each other are nested as deeply, and go on standing
for each other when their counters are changed in the same way. -/
structure Counted (C : Pairing) : Prop where
  depth : ∀ {w m m'}, C.machine w m m' → m.depth = m'.depth
  recount : ∀ {w m m'} (f g : Nat → Nat), C.machine w m m' →
    C.machine w { m with depth := f m.depth, calls := g m.calls }
      { m' with depth := f m'.depth, calls := g m'.calls }

namespace Counted

variable {C : Pairing} (hC : C.Counted) {w : C.World} {limit : Nat} {p p' : Position}
  {x x' : Run Flow}

include hC

/-- A level of depth is counted alike; the limit is met by both runs or by neither. -/
theorem follows_deeper (hstop : C.stop (.failed (.runtime (.recursionLimit limit) p))
      (.failed (.runtime (.recursionLimit limit) p')))
    (hx : C.Follows w C.flow x x') :
    C.Follows w C.flow (Run.deeper limit p x) (Run.deeper limit p' x') := by
  intro m m' hm
  obtain hlt | hle := Nat.lt_or_ge m.depth limit
  · rw [Run.deeper_of_lt hlt, Run.deeper_of_lt (hC.depth hm ▸ hlt)]
    have hinner := hx m.enterBlock m'.enterBlock (hC.recount (· + 1) id hm)
    refine hinner.around fun w₁ m₁ m₁' hw₁ hm₁ => ⟨w₁, hw₁, ?_, fun _ _ h => h⟩
    exact hC.recount (· - 1) id hm₁
  · rw [Run.deeper_of_le hle, Run.deeper_of_le (hC.depth hm ▸ hle)]
    exact .error (C.later_refl w) hm hstop

/-- A call, with the level of depth in it; what it gives is the value of a flow. -/
theorem follows_insideCall (hstop : C.stop (.failed (.runtime (.recursionLimit limit) p))
      (.failed (.runtime (.recursionLimit limit) p')))
    (hx : C.Follows w C.flow x x') :
    C.Follows w (fun w f f' => C.value w f.value f'.value)
      (Run.insideCall (Run.deeper limit p x)) (Run.insideCall (Run.deeper limit p' x')) := by
  intro m m' hm
  obtain hlt | hle := Nat.lt_or_ge m.depth limit
  · rw [Run.insideCall_deeper_of_lt hlt, Run.insideCall_deeper_of_lt (hC.depth hm ▸ hlt)]
    have hinner := hx m.enterCall m'.enterCall (hC.recount (· + 1) (· + 1) hm)
    refine hinner.around fun w₁ m₁ m₁' hw₁ hm₁ => ⟨w₁, hw₁, ?_, fun f f' hf => ?_⟩
    · exact hC.recount (· - 1) (· - 1) hm₁
    · cases hf with
      | normal => exact .none
      | returned _ hv => exact hv
  · rw [Run.insideCall_deeper_of_le hle, Run.insideCall_deeper_of_le (hC.depth hm ▸ hle)]
    exact .error (C.later_refl w) hm hstop

end Counted

/-! ## Primitive runs and parts -/

/-- The primitive runs of two hosts respect a pairing. -/
structure Lawful (C : Pairing) (host host' : Host) : Prop where
  faithful : ∀ w, (C.likeness w).Faithful
  later_inBlock : ∀ {w w'}, C.later w w' → C.later (C.inBlock w) (C.inBlock w')
  scope_inBlock : ∀ {w s s'}, C.scope w s s' → C.scope (C.inBlock w) s s'
  scope_inCall : ∀ {w s s'}, C.scope w s s' → C.scope (C.inCall w) s s'
  expr_congruent : ∀ {w e e'}, C.expr w e e' → e.Congruent C.place (C.expr w) e'
  stmt_congruent : ∀ {w s s'}, C.stmt w s s' →
    s.Congruent C.place (C.expr w) (List.Forall₂ (C.stmt (C.inBlock w))) C.code s'
  code_inCall : ∀ {w b b'}, C.code b b' → List.Forall₂ (C.stmt (C.inCall w)) b b'
  get? : ∀ {w m m' s s'}, C.machine w m m' → C.scope w s s' → ∀ name,
    Option.Rel (C.value w) (m.heap.get? s name) (m'.heap.get? s' name)
  registry : ∀ w name,
    Option.Rel (C.value w) (Bindings.lookup name host.registry)
      (Bindings.lookup name host'.registry)
  foreign : ∀ {w args args'} name, List.Forall₂ (C.value w) args args' →
    Reply.Alike (C.likeness w) (host.foreign name args) (host'.foreign name args')
  newChild : ∀ {w s s'}, C.scope w s s' → C.Follows w C.scope (Run.newChild s) (Run.newChild s')
  define : ∀ {w s s' v v'} name, C.scope w s s' → C.value w v v' →
    C.Follows w C.any (Run.define s name v) (Run.define s' name v')
  close : ∀ {w s s' b b'} name params, C.scope w s s' → C.code b b' →
    C.Follows w (fun w => (C.likeness w).Closures) (Run.close name params b s)
      (Run.close name params b' s')
  write : ∀ w text, C.Follows w C.any (Run.write text) (Run.write text)
  flush : ∀ w, C.Follows w C.any Run.flush Run.flush
  deeper : ∀ {w site p p' x x'}, C.place site p p' → C.Follows (C.inBlock w) C.flow x x' →
    C.Follows w C.flow (Run.deeper host.maxDepth p x) (Run.deeper host'.maxDepth p' x')
  insideCall : ∀ {w site p p' x x'}, C.place site p p' → C.Follows (C.inCall w) C.flow x x' →
    C.Follows w (fun w f f' => C.value w f.value f'.value)
      (Run.insideCall (Run.deeper host.maxDepth p x))
      (Run.insideCall (Run.deeper host'.maxDepth p' x'))
  returns : ∀ {w m m' v v' p p'}, C.stmt w (.giveBack v p) (.giveBack v' p') →
    C.machine w m m' →
    (m.calls = 0 ∧ m'.calls = 0 ∧ C.stop (.failed (.runtime .returnOutsideFunction p))
      (.failed (.runtime .returnOutsideFunction p'))) ∨
    (m.calls ≠ 0 ∧ m'.calls ≠ 0 ∧ C.mayReturn w)
  fault : ∀ {site f p p'}, MetAt site f → C.place site p p' →
    C.stop (.failed (.runtime f p)) (.failed (.runtime f p'))
  io : ∀ e, C.stop (.failed (.io e)) (.failed (.io e))

/-- The parts of two nodes stand for each other. -/
structure Paired (C : Pairing) (parts parts' : Recursion) : Prop where
  eval : ∀ {w e e' s s'}, C.expr w e e' → C.scope w s s' →
    C.Follows w C.value (parts.eval e s) (parts'.eval e' s')
  exec : ∀ {w t t' s s'}, C.stmt w t t' → C.scope w s s' →
    C.Follows w C.flow (parts.exec t s) (parts'.exec t' s')

variable {C : Pairing} {host host' : Host} {w : C.World} {α β : Type}

/-! ## Results and names -/

namespace Lawful

variable (hC : C.Lawful host host')

include hC

/-- Results that agree are passed on, or give faults at places that stand for each other. -/
theorem ofResult {A : α → β → Prop} {site : Site} {p p' : Position} {r : Except RuntimeFault α}
    {r' : Except RuntimeFault β} (hp : C.place site p p') (h : Agreed site A r r') :
    C.Follows w (fun _ => A) (Run.ofResult p r) (Run.ofResult p' r') := by
  cases h with
  | ok hab => exact .pure hab
  | error hf => exact .fail (hC.fault hf hp)

/-- Reading a name gives values that stand for each other. -/
theorem readName {m m' : Machine} {s s' : FrameId} (hm : C.machine w m m')
    (hs : C.scope w s s') (name : String) :
    Agreed (.name name) (C.value w) (Abacus.readName host m.heap s name)
      (Abacus.readName host' m'.heap s' name) := by
  have hbound := hC.get? hm hs name
  have hregistry := hC.registry w name
  unfold Abacus.readName
  generalize m.heap.get? s name = bound, m'.heap.get? s' name = bound' at hbound ⊢
  generalize Bindings.lookup name host.registry = entry,
    Bindings.lookup name host'.registry = entry' at hregistry ⊢
  cases hbound with
  | some hv => exact .ok hv
  | none =>
      cases hregistry with
      | some hv => exact .ok hv
      | none => exact .error (.undefinedName name)

end Lawful

variable (C) in
/-- Two callables that stand for each other. -/
inductive callee (w : C.World) : Callee → Callee → Prop
  | closure {f f' : Closure} (h : (C.likeness w).Closures f f') :
      callee w (.closure f) (.closure f')
  | builtin (b : Builtin) : callee w (.builtin b) (.builtin b)

/-- Values that stand for each other can be called alike, or neither can. -/
theorem callee?_of_value {v v' : Value} (h : C.value w v v') :
    Option.Rel (C.callee w) v.callee? v'.callee? := by
  cases h with
  | function hfg => exact .some (.closure hfg)
  | builtin b => exact .some (.builtin b)
  | _ => exact .none

/-- A name is a builtin on both hosts or on neither. -/
theorem Lawful.builtin?_eq (hC : C.Lawful host host') (w : C.World) (name : String) :
    Registry.builtin? host.registry name = Registry.builtin? host'.registry name := by
  have hregistry := hC.registry w name
  unfold Registry.builtin?
  generalize Bindings.lookup name host.registry = entry,
    Bindings.lookup name host'.registry = entry' at hregistry ⊢
  cases hregistry with
  | none => rfl
  | some hv => cases hv <;> rfl

/-- Calling a name invokes callables that stand for each other. -/
theorem Lawful.calledName (hC : C.Lawful host host') {m m' : Machine} {s s' : FrameId}
    (hm : C.machine w m m') (hs : C.scope w s s') (name : String) :
    Agreed (.name name) (C.callee w) (Abacus.calledName host m.heap s name)
      (Abacus.calledName host' m'.heap s' name) := by
  have hbound : Option.Rel (C.callee w) ((m.heap.get? s name).bind Value.callee?)
      ((m'.heap.get? s' name).bind Value.callee?) := by
    have hget := hC.get? hm hs name
    generalize m.heap.get? s name = bound, m'.heap.get? s' name = bound' at hget ⊢
    cases hget with
    | some hv => exact callee?_of_value hv
    | none => exact .none
  have hread := hC.readName hm hs name
  unfold Abacus.calledName
  rw [hC.builtin?_eq w name]
  generalize (m.heap.get? s name).bind Value.callee? = bound,
    (m'.heap.get? s' name).bind Value.callee? = bound' at hbound ⊢
  generalize Abacus.readName host m.heap s name = read,
    Abacus.readName host' m'.heap s' name = read' at hread ⊢
  cases hbound with
  | some hcallee => exact .ok hcallee
  | none =>
      cases Registry.builtin? host'.registry name with
      | some b => exact .ok (.builtin b)
      | none =>
          cases hread with
          | ok hv =>
              dsimp only
              rw [Value.Alike.type_eq hv]
              exact agreed_type _
          | error hf => exact .error hf

/-! ## Sequences -/

namespace Paired

variable {self self' : Recursion} {s s' : FrameId}

/-- Arguments and items, by induction on their number. -/
theorem evalAll (hself : C.Paired self self') (hs : C.scope w s s') {es es' : List Expr}
    (hes : List.Forall₂ (C.expr w) es es') :
    C.Follows w (fun w => List.Forall₂ (C.value w)) (self.evalAll s es) (self'.evalAll s' es') := by
  induction es generalizing w es' with
  | nil =>
      cases hes
      exact .pure .nil
  | cons e es ih =>
      cases hes with
      | cons he hes =>
          refine (hself.eval he hs).bind fun w₁ v v' hw₁ hv => ?_
          refine (ih (C.scope_mono hw₁ hs) (exprs_mono hw₁ hes)).bind fun w₂ vs vs' hw₂ hvs => ?_
          exact .pure (.cons (value_mono hw₂ hv) hvs)

/-- The statements of a block, by induction on their number. -/
theorem execAll (hself : C.Paired self self') (hs : C.scope w s s') {ss ss' : List Stmt}
    (hss : List.Forall₂ (C.stmt w) ss ss') :
    C.Follows w C.flow (self.execAll s ss) (self'.execAll s' ss') := by
  induction ss generalizing w ss' with
  | nil =>
      cases hss
      exact .pure .normal
  | cons t ss ih =>
      cases hss with
      | cons ht hss =>
          refine (hself.exec ht hs).bind fun w₁ f f' hw₁ hf => ?_
          cases hf with
          | normal => exact ih (C.scope_mono hw₁ hs) (stmts_mono hw₁ hss)
          | returned hr hv => exact .pure (.returned hr hv)

end Paired

/-- Several bindings, one after the other. -/
theorem Lawful.defineAll (hC : C.Lawful host host') {s s' : FrameId} (hs : C.scope w s s')
    (names : List String) {vs vs' : List Value} (hvs : List.Forall₂ (C.value w) vs vs') :
    C.Follows w C.any (Run.defineAll s (names.zip vs)) (Run.defineAll s' (names.zip vs')) := by
  induction names generalizing w vs vs' with
  | nil => exact .pure trivial
  | cons name names ih =>
      cases hvs with
      | nil => exact .pure trivial
      | cons hv hvs =>
          refine (hC.define name hs hv).bind fun w₁ _ _ hw₁ _ => ?_
          exact ih (C.scope_mono hw₁ hs) (values_mono hw₁ hvs)

/-- To settle a reply is to write its text and then to give its answer. -/
theorem settle_eq (name : String) (pos : Position) (reply : Reply) :
    Recursion.settle name pos reply = (do
      Run.write reply.text
      match reply.answer with
      | .ok v =>
        Run.flush
        return v
      | .error fault => Run.fail (fault.located name pos)) := by
  funext m
  cases hwrite : m.sink.write reply.text.toUTF8 with
  | mk sink failure =>
      cases failure with
      | none =>
          have hdeliver : Run.deliver reply m = .ok reply.answer { m with sink := sink } := by
            simp only [Run.deliver, Reply.deliver, hwrite]
          have htext : Run.write reply.text m = .ok () { m with sink := sink } := by
            simp only [Run.write, hwrite]
          refine (Stateful.bind_of_ok _ hdeliver).trans
            (Eq.trans ?_ (Stateful.bind_of_ok _ htext).symm)
          cases reply.answer <;> rfl
      | some e =>
          have hdeliver : Run.deliver reply m = .ok (.error (.io e)) { m with sink := sink } := by
            simp only [Run.deliver, Reply.deliver, hwrite]
          have htext : Run.write reply.text m =
              .error (.failed (.io e)) { m with sink := sink } := by
            simp only [Run.write, hwrite]
          exact (Stateful.bind_of_ok _ hdeliver).trans (Stateful.bind_of_error _ htext).symm

/-- Replies that are alike are written alike and taken alike. -/
theorem Lawful.settle (hC : C.Lawful host host') (builtin : String) {name : String}
    {p p' : Position} (hp : C.place (.name name) p p') {r r' : Reply}
    (hr : Reply.Alike (C.likeness w) r r') :
    C.Follows w C.value (Recursion.settle builtin p r) (Recursion.settle builtin p' r') := by
  obtain ⟨text, answer⟩ := r
  obtain ⟨text', answer'⟩ := r'
  obtain ⟨rfl, hanswer⟩ := hr
  rw [settle_eq, settle_eq]
  refine (hC.write w text).bind fun w₁ _ _ hw₁ _ => ?_
  cases hanswer with
  | ok hv =>
      refine (hC.flush w₁).bind fun w₂ _ _ hw₂ _ => ?_
      exact .pure (value_mono (C.later_trans hw₁ hw₂) hv)
  | @error fault _ =>
      refine .fail ?_
      cases fault with
      | argument fault => exact hC.fault (.type _ _) hp
      | domain fault => exact hC.fault (.domain name builtin fault) hp
      | io e => exact hC.io e

/-! ## Blocks and calls -/

namespace Paired

variable {self self' : Recursion} {s s' : FrameId} {site : Site} {name : String}
  {p p' : Position}

section

variable (hC : C.Lawful host host') (hself : C.Paired self self')

include hC hself

/-- A block: the frames that are made stand for each other, and the statements of the
blocks. -/
theorem block (hp : C.place site p p') (hs : C.scope w s s') {ss ss' : List Stmt}
    (hss : List.Forall₂ (C.stmt (C.inBlock w)) ss ss') :
    C.Follows w C.flow (self.block host p ss s) (self'.block host' p' ss' s') := by
  refine (hC.newChild hs).bind fun w₁ inner inner' hw₁ hinner => ?_
  have hbody := stmts_mono (hC.later_inBlock hw₁) hss
  exact hC.deeper hp (hself.execAll (hC.scope_inBlock hinner) hbody)

/-- A call of closures that stand for each other. -/
theorem callClosure {f f' : Closure} (hf : (C.likeness w).Closures f f') {es es' : List Expr}
    (hes : List.Forall₂ (C.expr w) es es') (hp : C.place (.name name) p p')
    (hs : C.scope w s s') :
    C.Follows w C.value (self.callClosure host f es p s)
      (self'.callClosure host' f' es' p' s') := by
  unfold Recursion.callClosure Closure.arity
  rw [hes.length_eq, hf.params, hf.name]
  refine .ite ?_ (.fail (hC.fault (.arity name _ _ _) hp))
  refine (hself.evalAll hs hes).bind fun w₁ vs vs' hw₁ hvs => ?_
  refine (hC.newChild (C.scope_mono hw₁ hf.scope)).bind fun w₂ inner inner' hw₂ hinner => ?_
  refine (hC.defineAll hinner _ (values_mono hw₂ hvs)).bind fun w₃ _ _ hw₃ _ => ?_
  have hinner₃ := hC.scope_inCall (C.scope_mono hw₃ hinner)
  have hbody := hself.execAll hinner₃ (hC.code_inCall hf.body)
  refine (hC.insideCall hp hbody).bind fun w₄ flow flow' _ hflow => ?_
  cases flow <;> cases flow' <;> exact .pure hflow

/-- A call of a builtin, which gives alike replies on alike arguments. -/
theorem callBuiltin (b : Builtin) {es es' : List Expr} (hes : List.Forall₂ (C.expr w) es es')
    (hp : C.place (.name name) p p') (hs : C.scope w s s') :
    C.Follows w C.value (self.callBuiltin host b es p s) (self'.callBuiltin host' b es' p' s') := by
  unfold Recursion.callBuiltin
  rw [hes.length_eq]
  refine .ite ?_ (.fail (hC.fault (.arity name _ _ _) hp))
  refine (hself.evalAll hs hes).bind fun w₁ vs vs' hw₁ hvs => ?_
  exact hC.settle b.name hp (Builtin.alike_reply (fun name => hC.foreign name hvs) b hvs)

/-- A call by name, of either kind. -/
theorem call (name : String) {es es' : List Expr} (hes : List.Forall₂ (C.expr w) es es')
    (hp : C.place (.name name) p p') (hs : C.scope w s s') :
    C.Follows w C.value (self.call host name es p s) (self'.call host' name es' p' s') := by
  refine .get_bind fun m m' hm => ?_
  refine (hC.ofResult hp (hC.calledName hm hs name)).bind fun w₁ c c' hw₁ hc => ?_
  have hes₁ := exprs_mono hw₁ hes
  have hs₁ := C.scope_mono hw₁ hs
  cases hc with
  | closure hf => exact hself.callClosure hC (hf.mono (likeness_mono hw₁)) hes₁ hp hs₁
  | builtin b => exact hself.callBuiltin hC b hes₁ hp hs₁

/-! ## Aggregates -/

/-- An operand that has to be a number is the same one in both runs. -/
theorem evalNumber (role : Role) (hp : C.place site p p') {e e' : Expr} (he : C.expr w e e')
    (hs : C.scope w s s') :
    C.Follows w (fun _ => Eq) (self.evalNumber role p e s) (self'.evalNumber role p' e' s') :=
  (hself.eval he hs).bind fun _ _ _ _ hv => hC.ofResult hp (alike_expectNumber role hv)

/-- An operand that has to be a truth value is the same one in both runs. -/
theorem evalBoolean (role : Role) (hp : C.place site p p') {e e' : Expr} (he : C.expr w e e')
    (hs : C.scope w s s') :
    C.Follows w (fun _ => Eq) (self.evalBoolean role p e s) (self'.evalBoolean role p' e' s') :=
  (hself.eval he hs).bind fun _ _ _ _ hv => hC.ofResult hp (alike_expectBoolean role hv)

/-- A term of an aggregate at the same number. -/
theorem term (role : Role) (hp : C.place site p p') (var : String) {e e' : Expr}
    (he : C.expr w e e') (hs : C.scope w s s') (x : Float) :
    C.Follows w (fun _ => Eq) (self.term role p var e s x) (self'.term role p' var e' s' x) := by
  refine (hC.define var hs (.number x)).bind fun w₁ _ _ hw₁ _ => ?_
  exact hself.evalNumber hC role hp (C.expr_mono hw₁ he) (C.scope_mono hw₁ hs)

end

/-- The terms from a given index on, by induction on their number. -/
theorem foldFrom {combine : Float → Float → Float} {term term' : Float → Run Float}
    (hterm : ∀ w₁ x, C.later w w₁ → C.Follows w₁ (fun _ => Eq) (term x) (term' x))
    (count : Nat) (i : Int) (total : Float) :
    C.Follows w (fun _ => Eq) (Recursion.foldFrom combine term count i total)
      (Recursion.foldFrom combine term' count i total) := by
  induction count generalizing w i total with
  | zero => exact .pure rfl
  | succ count ih =>
      refine (hterm w _ (C.later_refl w)).bind fun w₁ x x' hw₁ hx => ?_
      subst hx
      exact ih (fun w₂ y hw₂ => hterm w₂ y (C.later_trans hw₁ hw₂)) _ _

/-- An aggregate over the same interval. -/
theorem total {term term' : Float → Run Float}
    (hterm : ∀ w₁ x, C.later w w₁ → C.Follows w₁ (fun _ => Eq) (term x) (term' x))
    (kind : Aggregate) (start stop : Float) :
    C.Follows w (fun _ => Eq) (Recursion.total kind term start stop)
      (Recursion.total kind term' start stop) := by
  cases kind with
  | sum => exact foldFrom hterm _ _ _
  | product => exact foldFrom hterm _ _ _
  | integral => exact foldFrom (fun w₁ x hw₁ => hterm w₁ _ hw₁) _ _ _

variable (hC : C.Lawful host host') (hself : C.Paired self self')

include hC hself

/-- A sum, product or integral. -/
theorem aggregate (kind : Aggregate) (var : String) {a a' z z' b b' : Expr} (ha : C.expr w a a')
    (hz : C.expr w z z') (hb : C.expr w b b') (hp : C.place (.fold kind) p p')
    (hs : C.scope w s s') :
    C.Follows w C.value (self.aggregate kind var a z b p s)
      (self'.aggregate kind var a' z' b' p' s') := by
  refine (hself.evalNumber hC .lowerBound hp ha hs).bind fun w₁ low low' hw₁ hlow => ?_
  subst hlow
  have hs₁ := C.scope_mono hw₁ hs
  refine (hself.evalNumber hC .upperBound hp (C.expr_mono hw₁ hz) hs₁).bind
    fun w₂ high high' hw₂ hhigh => ?_
  subst hhigh
  refine (hC.newChild (C.scope_mono hw₂ hs₁)).bind fun w₃ inner inner' hw₃ hinner => ?_
  have hb₃ := C.expr_mono (C.later_trans (C.later_trans hw₁ hw₂) hw₃) hb
  have hterm : ∀ w₄ x, C.later w₃ w₄ → C.Follows w₄ (fun _ => Eq)
      (self.term (Recursion.termRole kind) p var b inner x)
      (self'.term (Recursion.termRole kind) p' var b' inner' x) := fun w₄ x hw₄ =>
    hself.term hC _ hp var (C.expr_mono hw₄ hb₃) (C.scope_mono hw₄ hinner) x
  refine (total hterm kind low high).bind fun w₄ sum sum' _ hsum => ?_
  subst hsum
  exact .pure (.number sum)

/-! ## Expressions -/

/-- A binary operator: a lazy one stops at the same operand in both runs. -/
theorem binary (op : BinaryOp) {l l' r r' : Expr} (hl : C.expr w l l') (hr : C.expr w r r')
    (hp : C.place (.operation op) p p') (hs : C.scope w s s') :
    C.Follows w C.value (self.binary op l r p s) (self'.binary op l' r' p' s') := by
  unfold Recursion.binary
  cases op.decisive? with
  | none =>
      refine (hself.eval hl hs).bind fun w₁ a a' hw₁ ha => ?_
      refine (hself.eval (C.expr_mono hw₁ hr) (C.scope_mono hw₁ hs)).bind fun w₂ b b' hw₂ hb => ?_
      have hop := alike_apply (hC.faithful w₂) op (value_mono hw₂ ha) hb
      exact (hC.ofResult hp hop).mono fun w₃ _ _ hw₃ hv => value_mono hw₃ hv
  | some d =>
      refine (hself.evalBoolean hC (.side op) hp hl hs).bind fun w₁ x x' hw₁ hx => ?_
      subst hx
      refine .ite (.pure (.boolean d)) ?_
      refine (hself.evalBoolean hC (.side op) hp (C.expr_mono hw₁ hr) (C.scope_mono hw₁ hs)).bind
        fun w₂ y y' hw₂ hy => ?_
      subst hy
      exact .pure (.boolean y)

/-- What a step does to an expression stands for what it does to another that
stands for it. -/
theorem evalStep {e e' : Expr} (he : C.expr w e e') (hs : C.scope w s s') :
    C.Follows w C.value (Recursion.evalStep host self e s)
      (Recursion.evalStep host' self' e' s') := by
  cases hC.expr_congruent he with
  | number n => exact .pure (.number n)
  | string t => exact .pure (.string t)
  | boolean b => exact .pure (.boolean b)
  | «variable» name hp =>
      refine .get_bind fun m m' hm => ?_
      exact (hC.ofResult hp (hC.readName hm hs name)).mono fun w₁ _ _ hw₁ hv => value_mono hw₁ hv
  | binary op hl hr hp => exact hself.binary hC op hl hr hp hs
  | unary op h hp =>
      refine (hself.eval h hs).bind fun w₁ v v' _ hv => ?_
      exact (hC.ofResult hp (alike_unary op hv)).mono fun w₂ _ _ hw₂ hu => value_mono hw₂ hu
  | call name hes hp => exact hself.call hC name hes hp hs
  | aggregate kind var ha hz hb hp => exact hself.aggregate hC kind var ha hz hb hp hs

/-! ## Statements -/

/-- The passes of a for loop, by induction on the items. -/
theorem each (var : String) {ss ss' : List Stmt}
    (hss : List.Forall₂ (C.stmt (C.inBlock w)) ss ss') (hp : C.place site p p')
    (hs : C.scope w s s') {vs vs' : List Value} (hvs : List.Forall₂ (C.value w) vs vs') :
    C.Follows w C.flow (self.each host var ss p s vs) (self'.each host' var ss' p' s' vs') := by
  induction vs generalizing w vs' with
  | nil =>
      cases hvs
      exact .pure .normal
  | cons v vs ih =>
      cases hvs with
      | cons hv hvs =>
          refine (hC.define var hs hv).bind fun w₁ _ _ hw₁ _ => ?_
          have hss₁ := stmts_mono (hC.later_inBlock hw₁) hss
          have hs₁ := C.scope_mono hw₁ hs
          refine (hself.block hC hp hs₁ hss₁).bind fun w₂ f f' hw₂ hf => ?_
          cases hf with
          | normal =>
              have hss₂ := stmts_mono (hC.later_inBlock hw₂) hss₁
              exact ih hss₂ (C.scope_mono hw₂ hs₁) (values_mono (C.later_trans hw₁ hw₂) hvs)
          | returned hr h => exact .pure (.returned hr h)

/-- A while loop goes on in both runs or in neither; what follows is the loop again. -/
theorem whileLoop {c c' : Expr} {ss ss' : List Stmt}
    (hloop : C.stmt w (.whileLoop c ss p) (.whileLoop c' ss' p')) (hc : C.expr w c c')
    (hss : List.Forall₂ (C.stmt (C.inBlock w)) ss ss') (hp : C.place (.keyword .whileKw) p p')
    (hs : C.scope w s s') :
    C.Follows w C.flow (Recursion.execStep host self (.whileLoop c ss p) s)
      (Recursion.execStep host' self' (.whileLoop c' ss' p') s') := by
  refine (hself.evalBoolean hC .whileCondition hp hc hs).bind fun w₁ b b' hw₁ hb => ?_
  subst hb
  refine .ite ?_ (.pure .normal)
  have hss₁ := stmts_mono (hC.later_inBlock hw₁) hss
  refine (hself.block hC hp (C.scope_mono hw₁ hs) hss₁).bind fun w₂ f f' hw₂ hf => ?_
  have hw := C.later_trans hw₁ hw₂
  cases hf with
  | normal => exact hself.exec (C.stmt_mono hw hloop) (C.scope_mono hw hs)
  | returned hr h => exact .pure (.returned hr h)

/-- A return, with or without a value. -/
theorem giveBack {v v' : Option Expr} (hgive : C.stmt w (.giveBack v p) (.giveBack v' p'))
    (hv : Option.Rel (C.expr w) v v') (hs : C.scope w s s') :
    C.Follows w C.flow (Recursion.execStep host self (.giveBack v p) s)
      (Recursion.execStep host' self' (.giveBack v' p') s') := by
  refine .get_bind fun m m' hm => ?_
  obtain ⟨hout, hout', hstop⟩ | ⟨hin, hin', hr⟩ := hC.returns hgive hm
  · rw [if_pos hout, if_pos hout']
    exact .fail hstop
  · rw [if_neg hin, if_neg hin']
    cases hv with
    | none => exact .pure (.returned hr .none)
    | some he =>
        refine (hself.eval he hs).bind fun w₁ u u' hw₁ hu => ?_
        exact .pure (.returned (C.mayReturn_mono hw₁ hr) hu)

/-- What a step does to a statement stands for what it does to another that
stands for it. -/
theorem execStep {t t' : Stmt} (ht : C.stmt w t t') (hs : C.scope w s s') :
    C.Follows w C.flow (Recursion.execStep host self t s)
      (Recursion.execStep host' self' t' s') := by
  cases hC.stmt_congruent ht with
  | expression h => exact (hself.eval h hs).discard.bind fun _ _ _ _ _ => .pure .normal
  | assign name h =>
      refine (hself.eval h hs).bind fun w₁ v v' hw₁ hv => ?_
      exact (hC.define name (C.scope_mono hw₁ hs) hv).bind fun _ _ _ _ _ => .pure .normal
  | ifThen hc hb hp =>
      refine (hself.evalBoolean hC .ifCondition hp hc hs).bind fun w₁ b b' hw₁ hcond => ?_
      subst hcond
      have hb₁ := stmts_mono (hC.later_inBlock hw₁) hb
      exact .ite (hself.block hC hp (C.scope_mono hw₁ hs) hb₁) (.pure .normal)
  | ifElse hc hb ho hp =>
      refine (hself.evalBoolean hC .ifCondition hp hc hs).bind fun w₁ b b' hw₁ hcond => ?_
      subst hcond
      have hs₁ := C.scope_mono hw₁ hs
      have hb₁ := stmts_mono (hC.later_inBlock hw₁) hb
      have ho₁ := stmts_mono (hC.later_inBlock hw₁) ho
      exact .ite (hself.block hC hp hs₁ hb₁) (hself.block hC hp hs₁ ho₁)
  | whileLoop hc hb hp => exact hself.whileLoop hC ht hc hb hp hs
  | forLoop var h hb hp =>
      refine (hself.eval h hs).bind fun w₁ v v' hw₁ hv => ?_
      refine (hC.ofResult hp (alike_items hv)).bind fun w₂ vs vs' hw₂ hvs => ?_
      have hw := C.later_trans hw₁ hw₂
      have hb₂ := stmts_mono (hC.later_inBlock hw) hb
      exact hself.each hC var hb₂ hp (C.scope_mono hw hs) (values_mono hw₂ hvs)
  | function name params hb =>
      refine (hC.close name params hs hb).bind fun w₁ f f' hw₁ hf => ?_
      exact (hC.define name (C.scope_mono hw₁ hs) (.function hf)).bind
        fun _ _ _ _ _ => .pure .normal
  | giveBack hv hp => exact hself.giveBack hC ht hv hs

end Paired

/-! ## Runs -/

/-- Runs with the same fuel on two hosts stand for each other. -/
theorem Lawful.paired_ofFuel (hC : C.Lawful host host') (hstop : C.stop .exhausted .exhausted)
    (fuel : Nat) : C.Paired (.ofFuel host fuel) (.ofFuel host' fuel) := by
  induction fuel with
  | zero =>
      constructor
      · exact fun {w} _ _ _ _ _ _ _ _ hm => .error (C.later_refl w) hm hstop
      · exact fun {w} _ _ _ _ _ _ _ _ hm => .error (C.later_refl w) hm hstop
  | succ fuel ih =>
      constructor
      · exact fun he hs => ih.evalStep hC he hs
      · exact fun ht hs => ih.execStep hC ht hs

end Pairing

end Abacus
