import Abacus.Proofs.Eval.Coherence
import Abacus.Proofs.Eval.Counters
import Abacus.Proofs.Session.Limit

/-!
# Abacus.Proofs.Session.Loop

Loops that are entered.  Neither the condition nor the body of a loop can change
a scope that existed before, so all that a round leaves behind is scopes and
closures that no earlier scope mentions.  Evaluation does not see these
(`evaluate_grows`): the condition is what it was in the first round, unless the
output fails.  A loop that is entered is therefore left by a return or an error,
or never.
-/

namespace Abacus

/-! ## Machines that have grown -/

/-- The second machine is the first with more scopes and closures, and perhaps
more output. -/
structure Machine.Grows (m m' : Machine) : Prop where
  scopes : m.heap.Grows .none m'.heap
  closures : m.heap.closures ≤ m'.heap.closures
  counters : m'.counters = m.counters

namespace Machine.Grows

theorem refl (m : Machine) : m.Grows m := ⟨.refl m.heap, Nat.le_refl _, rfl⟩

theorem trans {m₁ m₂ m₃ : Machine} (h : m₁.Grows m₂) (h' : m₂.Grows m₃) : m₁.Grows m₃ :=
  ⟨h.scopes.trans h'.scopes, Nat.le_trans h.closures h'.closures, h'.counters.trans h.counters⟩

theorem lt {m m' : Machine} (h : m.Grows m') {scope : FrameId} (hs : scope < m.heap.nextId) :
    scope < m'.heap.nextId := Nat.lt_of_lt_of_le hs h.scopes.nextId_le

end Machine.Grows

variable {host : Host} {m m' : Machine}

/-- Evaluation does not see what a coherent machine has grown by: it gives the
same value up to a renaming, or the same error, unless the output fails. -/
theorem evaluate_grows (hhost : host.Blind) (hm : m.heap.Coherent) (hg : m.Grows m')
    {scope : FrameId} (hs : scope < m.heap.nextId) (fuel : Nat) (e : Expr) :
    (Renaming.pairing True).Agrees m.heap.identity (Renaming.pairing True).value
      (evaluate host fuel e scope m) (evaluate host fuel e scope m') := by
  have hself := Renaming.paired_ofFuel hhost True fuel
  refine hself.eval rfl (Heap.mem_identity hs) m m' ?_
  have hdepth : m'.depth = m.depth := congrArg Counters.depth hg.counters
  have hcalls : m'.calls = m.calls := congrArg Counters.calls hg.counters
  exact ⟨hm.heaps hg.scopes hg.closures, hdepth.symm, hcalls.symm, fun h => absurd trivial h⟩

/-- A run that changes no scope makes a coherent machine grow. -/
theorem grows_final {α : Type} {x : Run α} {A : Renaming → α → α → Prop}
    (hscopes : x.Obeys Effect.none.law) (hcounters : (x.final m).counters = m.counters)
    (hm : m.heap.Coherent) (hx : (Renaming.pairing False).Follows m.heap.identity A x x) :
    (x.final m).heap.Coherent ∧ m.Grows (x.final m) := by
  obtain ⟨hcoherent, hclosures⟩ := Renaming.coherent_final hm hx
  exact ⟨hcoherent, hscopes m, hclosures, hcounters⟩

/-! ## Loops -/

/-- A loop in a scope. -/
structure Loop where
  condition : Expr
  body : List Stmt
  pos : Position
  scope : FrameId

namespace Loop

variable (host) (l : Loop)

/-- Execute the loop. -/
def run (fuel : Nat) : Run Flow := execute host fuel (.whileLoop l.condition l.body l.pos) l.scope

/-- Evaluate the condition. -/
def test (fuel : Nat) : Run Value := evaluate host fuel l.condition l.scope

/-- Execute the body once. -/
def once (fuel : Nat) : Run Flow :=
  (Recursion.ofFuel host fuel).block host l.pos l.body l.scope

/-- One round: the condition holds, and the body ends normally. -/
def Round (m m' : Machine) : Prop :=
  ∃ m₁, Ends (l.test host) m (.ok (.boolean true) m₁) ∧ Ends (l.once host) m₁ (.ok .normal m')

/-- How the loop ends in a round that is its last. -/
inductive Leaves (m : Machine) : EStateM.Result Stop Machine Flow → Prop
  | normal {m' : Machine} (htest : Ends (l.test host) m (.ok (.boolean false) m')) :
      Leaves m (.ok .normal m')
  | returned {m₁ m' : Machine} {v : Value} (htest : Ends (l.test host) m (.ok (.boolean true) m₁))
      (hbody : Ends (l.once host) m₁ (.ok (.returned v) m')) : Leaves m (.ok (.returned v) m')
  | failed (e : Error) (m' : Machine) : Leaves m (.error (.failed e) m')

variable {host} {l}

/-- A run of the loop: its test, a pass if the test holds, and the loop again. -/
theorem run_succ (fuel : Nat) :
    l.run host (fuel + 1) = (do
      let v ← l.test host fuel
      let b ← Run.ofResult l.pos (v.expectBoolean .whileCondition)
      if b then
        match ← l.once host fuel with
        | .normal => l.run host fuel
        | .returned v => return .returned v
      else return .normal) := by
  show (Recursion.ofFuel host fuel).evalBoolean _ _ _ _ >>= _ = _
  rw [Recursion.evalBoolean, bind_assoc]
  rfl

/-- An error that finishes the loop is one of its ways to leave. -/
theorem leaves_of_error {e : Stop}
    (hf : Finished (.error e m' : EStateM.Result Stop Machine Flow)) :
    l.Leaves host m (.error e m') := by
  cases e with
  | failed e => exact .failed e m'
  | exhausted => exact absurd rfl (hf m')

/-- A loop ends in its first round, or it goes on after it. -/
theorem leaves_or_round {fuel : Nat} {r : EStateM.Result Stop Machine Flow}
    (hr : l.run host (fuel + 1) m = r) (hf : Finished r) :
    l.Leaves host m r ∨ ∃ m', l.Round host m m' ∧ l.run host fuel m' = r := by
  rw [run_succ] at hr
  cases htest : l.test host fuel m with
  | error e m₁ =>
      rw [Stateful.bind_of_error _ htest] at hr
      subst hr
      exact .inl (leaves_of_error hf)
  | ok v m₁ =>
      rw [Stateful.bind_of_ok _ htest] at hr
      have hends : Ends (l.test host) m (.ok v m₁) := ⟨fuel, htest, finished_ok v m₁⟩
      cases v with
      | boolean b =>
          cases b with
          | false =>
              subst hr
              exact .inl (.normal hends)
          | true =>
              change (l.once host fuel >>= _) m₁ = r at hr
              cases hbody : l.once host fuel m₁ with
              | error e m₂ =>
                  rw [Stateful.bind_of_error _ hbody] at hr
                  subst hr
                  exact .inl (leaves_of_error hf)
              | ok flow m₂ =>
                  rw [Stateful.bind_of_ok _ hbody] at hr
                  have honce : Ends (l.once host) m₁ (.ok flow m₂) :=
                    ⟨fuel, hbody, finished_ok flow m₂⟩
                  cases flow with
                  | normal => exact .inr ⟨m₂, ⟨m₁, hends, honce⟩, hr⟩
                  | returned u =>
                      subst hr
                      exact .inl (.returned hends honce)
      | _ =>
          -- a condition that is not a truth value is a fault
          subst hr
          exact .inl (leaves_of_error hf)

/-- A loop that ends does so in the last of some rounds. -/
theorem leaves_of_run {fuel : Nat} {r : EStateM.Result Stop Machine Flow}
    (hr : l.run host fuel m = r) (hf : Finished r) :
    ∃ m₁, Relation.ReflTransGen (l.Round host) m m₁ ∧ l.Leaves host m₁ r := by
  induction fuel generalizing m with
  | zero =>
      subst hr
      exact absurd rfl (hf m)
  | succ fuel ih =>
      obtain hleaves | ⟨m', hround, hrest⟩ := leaves_or_round hr hf
      · exact ⟨m, .refl, hleaves⟩
      · obtain ⟨m₁, hrounds, hleaves⟩ := ih hrest
        exact ⟨m₁, .head hround hrounds, hleaves⟩

/-- A loop whose condition is false ends at once. -/
theorem ends_run_of_false (h : Ends (l.test host) m (.ok (.boolean false) m')) :
    Ends (l.run host) m (.ok .normal m') := by
  obtain ⟨fuel, htest, _⟩ := h
  refine ⟨fuel + 1, ?_, finished_ok _ m'⟩
  rw [run_succ, Stateful.bind_of_ok _ htest]
  rfl

/-! ## Rounds -/

section rounds

variable (hhost : host.Blind) (hm : m.heap.Coherent) (hs : l.scope < m.heap.nextId)

include hhost hm hs

/-- The test changes no scope that exists. -/
theorem grows_test (fuel : Nat) :
    ((l.test host fuel).final m).heap.Coherent ∧ m.Grows ((l.test host fuel).final m) := by
  have hself := Renaming.paired_ofFuel hhost False fuel
  exact grows_final (evaluate_scopes host fuel l.condition l.scope)
    (counters_evaluate host fuel l.condition l.scope m) hm (hself.eval rfl (Heap.mem_identity hs))

/-- A pass changes no scope that exists. -/
theorem grows_once (fuel : Nat) :
    ((l.once host fuel).final m).heap.Coherent ∧ m.Grows ((l.once host fuel).final m) := by
  have hself := Renaming.paired_ofFuel hhost False fuel
  have hlawful := Renaming.lawful hhost False
  have hbody : List.Forall₂ Eq l.body l.body := List.forall₂_same.mpr fun _ _ => rfl
  have hpos : (Renaming.pairing False).place (.keyword .whileKw) l.pos l.pos := rfl
  exact grows_final
    ((Recursion.keepsScopes_ofFuel host fuel).block host l.pos l.body l.scope)
    (counters_block host fuel l.pos l.body l.scope m) hm
    (hself.block hlawful hpos (Heap.mem_identity hs) hbody)

/-- A round changes no scope that exists. -/
theorem grows_round (h : l.Round host m m') : m'.heap.Coherent ∧ m.Grows m' := by
  obtain ⟨m₁, ⟨fuel, htest, _⟩, ⟨fuel', honce, _⟩⟩ := h
  have hfirst := grows_test hhost hm hs fuel
  rw [Run.final_of_ok htest] at hfirst
  have hsecond := grows_once hhost hfirst.1 (hfirst.2.lt hs) fuel'
  rw [Run.final_of_ok honce] at hsecond
  exact ⟨hsecond.1, hfirst.2.trans hsecond.2⟩

/-- Rounds make a coherent machine grow. -/
theorem grows_rounds (h : Relation.ReflTransGen (l.Round host) m m') :
    m'.heap.Coherent ∧ m.Grows m' := by
  induction h with
  | refl => exact ⟨hm, .refl m⟩
  | tail _ hround ih =>
      have hlast := grows_round hhost ih.1 (ih.2.lt hs) hround
      exact ⟨hlast.1, ih.2.trans hlast.2⟩

/-- A condition that held holds again, unless the output fails. -/
theorem test_again {m₁ : Machine} (h : Ends (l.test host) m (.ok (.boolean true) m₁))
    (hg : m.Grows m') {r : EStateM.Result Stop Machine Value} (hr : Ends (l.test host) m' r) :
    (∃ m'', r = .ok (.boolean true) m'') ∨ ∃ e m'', r = .error e m'' ∧ e.IsOutput := by
  obtain ⟨fuel, htest, hfinished⟩ := h
  obtain ⟨fuel', hr, hfinished'⟩ := hr
  have hsteady := steady_evaluate host l.condition l.scope
  -- both evaluations have their results with the larger of the two amounts of fuel
  have hleft := hsteady.of_le (Nat.le_max_left fuel fuel') (htest.symm ▸ hfinished)
  have hright := hsteady.of_le (Nat.le_max_right fuel fuel') (hr.symm ▸ hfinished')
  have hagree := evaluate_grows hhost hm hg hs (max fuel fuel') l.condition
  rw [hleft.trans htest, hright.trans hr] at hagree
  cases hagree with
  | ok _ _ hv =>
      cases hv
      exact .inl ⟨_, rfl⟩
  | right he => exact .inr ⟨_, _, rfl, he.2⟩

/-- A condition that held is not false after some rounds. -/
theorem not_ends_false {m₀ m₁ : Machine} (h : Ends (l.test host) m (.ok (.boolean true) m₀))
    (hrounds : Relation.ReflTransGen (l.Round host) m m₁) :
    ¬ Ends (l.test host) m₁ (.ok (.boolean false) m') := by
  intro hfalse
  have hgrows := (grows_rounds hhost hm hs hrounds).2
  obtain ⟨_, heq⟩ | ⟨_, _, heq, _⟩ := test_again hhost hm hs h hgrows hfalse
  · cases heq
  · cases heq

end rounds

end Loop

/-! ## The law -/

/-- **An entered loop never ends normally.**  On a host with the standard library
and from every reachable machine, a loop ends normally exactly if its condition
is false at once, and then it has done no more than evaluate it.  Where the
condition is true, the loop ends by an error or by a return from its body after
some rounds, or not at all; after every number of rounds the condition is true
again, unless the output fails.  For in no round can the condition or the body
change a scope that was there before. -/
theorem entered_loop_not_normal (limit : Nat) {m : Machine}
    (hm : Reachable (Host.standard.withLimit limit) m) (l : Loop) (hs : l.scope < m.heap.nextId) :
    let host := Host.standard.withLimit limit
    (∀ m', Ends (l.run host) m (.ok .normal m') ↔ Ends (l.test host) m (.ok (.boolean false) m')) ∧
    (∀ m₀, Ends (l.test host) m (.ok (.boolean true) m₀) →
      (∀ r, Ends (l.run host) m r →
        (∃ e m', r = .error (.failed e) m') ∨
        ∃ m₁ m₂ v m', Relation.ReflTransGen (l.Round host) m m₁ ∧
          Ends (l.test host) m₁ (.ok (.boolean true) m₂) ∧
          Ends (l.once host) m₂ (.ok (.returned v) m') ∧ r = .ok (.returned v) m') ∧
      (∀ m₁ r, Relation.ReflTransGen (l.Round host) m m₁ → Ends (l.test host) m₁ r →
        (∃ m', r = .ok (.boolean true) m') ∨ ∃ e m', r = .error e m' ∧ e.IsOutput)) ∧
    (∀ m₁, Relation.ReflTransGen (l.Round host) m m₁ → ∀ fuel fuel' id, id < m.heap.nextId →
      ((l.test host fuel).final m₁).heap.frame id = m.heap.frame id ∧
      ((l.once host fuel').final ((l.test host fuel).final m₁)).heap.frame id =
        m.heap.frame id) := by
  intro host
  have hhost : host.Blind := Host.blind_of_standard rfl rfl
  have hcoherent := hm.coherent hhost
  refine ⟨fun m' => ⟨?_, Loop.ends_run_of_false⟩, fun m₀ hentered => ⟨?_, ?_⟩, ?_⟩
  · rintro ⟨fuel, hrun, hfinished⟩
    obtain ⟨m₁, hrounds, hleaves⟩ := Loop.leaves_of_run hrun hfinished
    cases hleaves with
    | normal hfalse =>
        obtain rfl | ⟨m₂, ⟨m₀, hentered, _⟩, _⟩ := hrounds.cases_head
        · exact hfalse
        · exact absurd hfalse (Loop.not_ends_false hhost hcoherent hs hentered hrounds)
  · rintro r ⟨fuel, hrun, hfinished⟩
    obtain ⟨m₁, hrounds, hleaves⟩ := Loop.leaves_of_run hrun hfinished
    cases hleaves with
    | normal hfalse => exact absurd hfalse (Loop.not_ends_false hhost hcoherent hs hentered hrounds)
    | returned htest hbody => exact .inr ⟨m₁, _, _, _, hrounds, htest, hbody, rfl⟩
    | failed e m' => exact .inl ⟨e, m', rfl⟩
  · intro m₁ r hrounds hr
    have hgrows := (Loop.grows_rounds hhost hcoherent hs hrounds).2
    exact Loop.test_again hhost hcoherent hs hentered hgrows hr
  · intro m₁ hrounds fuel fuel' id hid
    obtain ⟨hcoherent₁, hgrows⟩ := Loop.grows_rounds hhost hcoherent hs hrounds
    obtain ⟨hcoherent₂, htest⟩ := Loop.grows_test hhost hcoherent₁ (hgrows.lt hs) fuel
    have htest := hgrows.trans htest
    obtain ⟨_, honce⟩ := Loop.grows_once hhost hcoherent₂ (htest.lt hs) fuel'
    exact ⟨htest.scopes.frame id hid, (htest.trans honce).scopes.frame id hid⟩

/-- The body of a loop sets the variable that its condition reads, after a step
of a session that bound it: the variable of the outer scope stays true, and the
loop does not end normally. -/
theorem entered_loop_not_normal_shadowed :
    let p : Position := ⟨1, 1⟩
    let host := Host.standard.withLimit 10
    let step : SessionStep := .program [.assign "x" (.boolean true) p]
    let m := (step.run host 9).final (.fresh .unlimited)
    let l : Loop := ⟨.variable "x" p, [.assign "x" (.boolean false) p], p, globals⟩
    Session host m ∧ Reachable host m ∧ l.scope < m.heap.nextId ∧
      Ends (l.test host) m (.ok (.boolean true) m) ∧
      ∀ m', ¬ Ends (l.run host) m (.ok .normal m') := by
  intro p host step m l
  have hsession : Session host m := .step (.fresh .unlimited) step 9 (finished_ok _ _)
  have hm := hsession.reachable
  have htest : Ends (l.test host) m (.ok (.boolean true) m) := ⟨1, rfl, finished_ok _ _⟩
  obtain ⟨hnormal, _⟩ := entered_loop_not_normal 10 hm l hm.globals_lt
  refine ⟨hsession, hm, hm.globals_lt, htest, fun m' hrun => ?_⟩
  have hfalse := (hnormal m').mp hrun
  have heq := (steady_evaluate host l.condition l.scope).ends_unique htest hfalse
  injection heq with hvalue
  cases hvalue

end Abacus
