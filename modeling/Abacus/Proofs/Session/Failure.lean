import Abacus.Proofs.Eval.Scopes
import Abacus.Proofs.Eval.Stops
import Abacus.Proofs.Session.Return
import Abacus.Proofs.Tree.Equality

/-!
# Abacus.Proofs.Session.Failure

What a failing source leaves behind.  A source that cannot be read changes
nothing.  A source that fails when it is run does so in one of its top-level
statements; those before it have been run, and it has bound no variable itself,
unless it is a loop over items whose body failed: its variable is then bound to
the item that was visited (`failure_effect`).

The laws of `Abacus.Proofs.Eval.Scopes` hold of failing runs too.  They leave
open whether the target of a statement is bound; for a statement that fails this
is settled by where the failure was, in the evaluation of an expression or in
the body of the loop.
-/

namespace Abacus

variable {host : Host} {fuel : Nat} {m m' : Machine} {e : Error}

/-! ## Sessions and the outermost scope -/

theorem runProgram_scopes (host : Host) (fuel : Nat) (program : List Stmt) :
    (runProgram host fuel program).Obeys (Effect.inside globals).law := by
  induction program with
  | nil => exact Run.Obeys.pure ()
  | cons s rest ih =>
      have hexecute : (execute host fuel s globals).Obeys (Effect.inside globals).law :=
        (execute_scopes host fuel s globals).mono fun _ _ hg =>
          hg.mono fun _ _ _ => Effect.inside_of_rebinds
      exact hexecute.discard.bind fun _ => ih

/-- A step of a session changes at most the bindings of the outermost scope. -/
theorem step_scopes (host : Host) (fuel : Nat) (step : SessionStep) :
    (step.run host fuel).Obeys (Effect.inside globals).law := by
  cases step with
  | program stmts => exact (runProgram_scopes host fuel stmts).bind fun _ => Run.Obeys.pure none
  | source text =>
      have hread : (readSource text).Obeys (Effect.inside globals).law := by
        cases hparse : parseSource text with
        | ok program =>
            rw [readSource_of_ok hparse]
            exact Run.Obeys.pure program
        | error e =>
            rw [readSource_of_error hparse]
            exact Run.Obeys.fail _
      refine hread.bind fun program => (runProgram_scopes host fuel _).bind fun _ => ?_
      cases (splitLast program).2 with
      | none => exact Run.Obeys.pure none
      | some e =>
          have heval := evaluate_scopes host fuel e globals
          exact (Run.Obeys.of_none heval).bind fun v => Run.Obeys.pure (some v)

/-- A session has its outermost scope. -/
theorem Session.globals_lt (hm : Session host m) : globals < m.heap.nextId := by
  induction hm with
  | fresh sink => exact Nat.zero_lt_one
  | step _ step fuel _ ih => exact Nat.lt_of_lt_of_le ih (step_scopes host fuel step _).nextId_le

/-! ## Loops that fail -/

/-- The statement is a loop over items whose body fails at an item: the items
before it are visited normally, and with the variable bound to it the body stops
with the error. -/
inductive FailsAt (host : Host) (m : Machine) (e : Error) (m' : Machine) :
    Stmt → String → Value → Prop
  | forLoop {var : String} {items : Expr} {body : List Stmt} {pos : Position} {v item : Value}
      {before rest : List Value} {m₁ m₂ : Machine}
      (hitems : Ends (fun fuel => evaluate host fuel items globals) m (.ok v m₁))
      (hv : v.items = .ok (before ++ item :: rest))
      (hbefore : Ends (fun fuel =>
        (Recursion.ofFuel host fuel).each host var body pos globals before) m₁ (.ok .normal m₂))
      (hbody : Ends (fun fuel => Run.define globals var item >>= fun _ =>
        (Recursion.ofFuel host fuel).block host pos body globals) m₂ (.error (.failed e) m')) :
      FailsAt host m e m' (.forLoop var items body pos) var item

/-- Visiting items fails at one of them. -/
theorem exists_item_of_each {var : String} {body : List Stmt} {pos : Position}
    {items : List Value}
    (h : (Recursion.ofFuel host fuel).each host var body pos globals items m =
      .error (.failed e) m') :
    ∃ before item rest m₂, items = before ++ item :: rest ∧
      (Recursion.ofFuel host fuel).each host var body pos globals before m = .ok .normal m₂ ∧
      (Run.define globals var item >>= fun _ =>
        (Recursion.ofFuel host fuel).block host pos body globals) m₂ = .error (.failed e) m' := by
  induction items generalizing m with
  | nil => contradiction
  | cons item rest ih =>
      rw [Recursion.each, ← bind_assoc] at h
      obtain hbody | ⟨flow, m₁, hvisit, hrest⟩ := Stateful.bind_eq_error h
      · exact ⟨[], item, rest, m, rfl, rfl, hbody⟩
      · cases flow with
        | returned v => contradiction
        | normal =>
            obtain ⟨before, item', rest', m₂, rfl, hbefore, hbody⟩ := ih hrest
            refine ⟨item :: before, item', rest', m₂, rfl, ?_, hbody⟩
            rw [Recursion.each, ← bind_assoc, Stateful.bind_of_ok _ hvisit]
            exact hbefore

/-- The variable of a loop that fails at an item is bound to that item. -/
theorem FailsAt.frame_globals {s : Stmt} {var : String} {item : Value}
    (h : FailsAt host m e m' s var item) (hm : globals < m.heap.nextId) :
    m'.heap.frame globals = (m.heap.frame globals).define var item := by
  cases h with
  | @forLoop _ items body pos v _ before rest m₁ m₂ hitems _ hbefore hbody =>
  obtain ⟨fuel₁, hitems, _⟩ := hitems
  obtain ⟨fuel₂, hbefore, _⟩ := hbefore
  obtain ⟨fuel₃, hbody, _⟩ := hbody
  have heval := (evaluate_scopes host fuel₁ items globals).of_ok hitems
  have hm₁ : globals < m₁.heap.nextId := Nat.lt_of_lt_of_le hm heval.nextId_le
  have hvisited := ((Recursion.keepsScopes_ofFuel host fuel₂).each host var body pos globals
    before).of_ok hbefore
  have hm₂ : globals < m₂.heap.nextId := Nat.lt_of_lt_of_le hm₁ hvisited.nextId_le
  have hblock := ((Recursion.keepsScopes_ofFuel host fuel₃).block host pos body
    globals).of_error hbody
  have hbound : m'.heap.frame globals = (m₂.heap.frame globals).define var item := by
    have hdefined := hblock.frame globals (by rwa [Heap.nextId_define])
    rw [Heap.frame_define _ _ _ _ _ hm₂, if_pos rfl] at hdefined
    exact hdefined
  rw [hbound, ← show m₁.heap.frame globals = m.heap.frame globals from heval.frame globals hm]
  obtain heq | ⟨_, _, _, ⟨⟩, heq⟩ := hvisited.frame globals hm₁
  · rw [heq]
  · rw [heq, Frame.define_define]

/-- A statement that fails leaves the variables as they were, unless it is a loop
that fails at an item. -/
theorem frame_globals_or_failsAt {s : Stmt} (hm : globals < m.heap.nextId)
    (h : execute host fuel s globals m = .error (.failed e) m') :
    m'.heap.frame globals = m.heap.frame globals ∨
      ∃ var item, FailsAt host m e m' s var item := by
  have hlaw := (execute_scopes host fuel s globals).of_error h
  cases fuel with
  | zero => cases h
  | succ fuel =>
      rw [execute_succ] at h
      cases s with
      | function name params body pos => cases h
      | assign name value pos =>
          obtain hvalue | ⟨v, m₁, _, hdefine⟩ := Stateful.bind_eq_error h
          · have hscopes := (evaluate_scopes host fuel value globals).of_error hvalue
            exact .inl (hscopes.frame globals hm)
          · cases hdefine
      | forLoop var items body pos =>
          have heval := evaluate_scopes host fuel items globals
          obtain hitems | ⟨v, m₁, hitems, hloop⟩ := Stateful.bind_eq_error h
          · exact .inl ((heval.of_error hitems).frame globals hm)
          cases hv : v.items with
          | error fault =>
              rw [hv] at hloop
              cases hloop
              exact .inl ((heval.of_ok hitems).frame globals hm)
          | ok vs =>
              rw [hv] at hloop
              obtain ⟨before, item, rest, m₂, rfl, hbefore, hbody⟩ := exists_item_of_each hloop
              exact .inr ⟨var, item, .forLoop ⟨fuel, hitems, finished_ok _ _⟩ hv
                ⟨fuel, hbefore, finished_ok _ _⟩ ⟨fuel, hbody, finished_failed _ _⟩⟩
      | expression | ifThen | ifElse | whileLoop | giveBack =>
          -- these statements bind nothing
          obtain heq | ⟨_, _, _, hname, _⟩ := hlaw.frame globals hm
          · exact .inl heq
          · cases hname

/-! ## Programs that fail -/

/-- A program fails in its statement at an index: the statements before it run to
their end, and from the machine that they leave the statement stops with the
error. -/
structure FailsIn (host : Host) (program : List Stmt) (m : Machine) (e : Error) (m' : Machine)
    (k : Nat) (s : Stmt) (mk : Machine) : Prop where
  statement : program[k]? = some s
  before : Ends (fun fuel => runProgram host fuel (program.take k)) m (.ok () mk)
  failure : Ends (fun fuel => execute host fuel s globals) mk (.error (.failed e) m')

/-- A program that fails does so in one of its statements. -/
theorem exists_failing_statement {program : List Stmt}
    (h : runProgram host fuel program m = .error (.failed e) m') :
    ∃ k s mk, program[k]? = some s ∧ runProgram host fuel (program.take k) m = .ok () mk ∧
      execute host fuel s globals mk = .error (.failed e) m' := by
  induction program generalizing m with
  | nil => contradiction
  | cons s rest ih =>
      rw [runProgram, Stateful.discard_bind] at h
      obtain hs | ⟨flow, m₁, hs, hrest⟩ := Stateful.bind_eq_error h
      · exact ⟨0, s, m, rfl, rfl, hs⟩
      · obtain ⟨k, t, mk, hk, hbefore, ht⟩ := ih hrest
        refine ⟨k + 1, t, mk, hk, ?_, ht⟩
        rw [List.take_succ_cons, runProgram, Stateful.discard_bind, Stateful.bind_of_ok _ hs]
        exact hbefore

/-- A source that can be read fails as its statements do. -/
theorem exists_failsIn {source : String} {program : List Stmt}
    (hparse : parseSource source = .ok program)
    (h : Ends (fun fuel => runSource host fuel source) m (.error (.failed e) m')) :
    ∃ k s mk, FailsIn host program m e m' k s mk := by
  have hwhole : Ends (fun fuel => Functor.discard ((Recursion.ofFuel host fuel).runWhole program)) m
      (.error (.failed e) m') := by
    obtain ⟨fuel, hr, _⟩ := h
    refine ⟨fuel, ?_, finished_failed _ _⟩
    simp only [runSource_eq, readSource_of_ok hparse, pure_bind] at hr
    simp only [Stateful.discard_eq]
    exact Stateful.bind_of_error _ hr
  have hprogram : Ends (fun fuel => runProgram host fuel program) m (.error (.failed e) m') :=
    hwhole.of_covers fun fuel => ⟨fuel + 1, covers_runProgram_of_runWhole fuel program⟩
  obtain ⟨fuel, hr, _⟩ := hprogram
  obtain ⟨k, s, mk, hk, hbefore, hs⟩ := exists_failing_statement hr
  exact ⟨k, s, mk, hk, ⟨fuel, hbefore, finished_ok _ _⟩, ⟨fuel, hs, finished_failed _ _⟩⟩

namespace FailsIn

variable {program : List Stmt} {k : Nat} {s : Stmt} {mk : Machine}

theorem isStatic (h : FailsIn host program m e m' k s mk) : e.isStatic = false := by
  obtain ⟨fuel, hs, _⟩ := h.failure
  exact Bool.eq_false_iff.mpr (not_isStatic_of_execute hs)

theorem globals_lt (h : FailsIn host program m e m' k s mk) (hm : globals < m.heap.nextId) :
    globals < mk.heap.nextId := by
  obtain ⟨fuel, hbefore, _⟩ := h.before
  have hgrows := (runProgram_scopes host fuel (program.take k)).of_ok hbefore
  exact Nat.lt_of_lt_of_le hm hgrows.nextId_le

end FailsIn

/-- **Failing runs.**  For every source and every machine with the outermost
scope:

* running the source fails with an error of the source text exactly if the
  source cannot be read, and then the machine is as it was;
* every other failure is not of this kind and happens in one of the top-level
  statements.  The scopes are then those that the statements before it leave
  behind, unless it is a loop whose body failed: its variable is then bound to
  the item that was visited. -/
theorem failure_effect (host : Host) (hm : globals < m.heap.nextId) (source : String) :
    ((∃ e m', Ends (fun fuel => runSource host fuel source) m (.error (.failed e) m') ∧
        e.isStatic = true) ↔
      ∃ e, parseSource source = .error e) ∧
    (∀ e, parseSource source = .error e →
      ∀ fuel, runSource host fuel source m = .error (.failed (.source e)) m) ∧
    ∀ program, parseSource source = .ok program → ∀ e m',
      Ends (fun fuel => runSource host fuel source) m (.error (.failed e) m') →
      e.isStatic = false ∧
      ∃ k s mk, FailsIn host program m e m' k s mk ∧
        (∀ id < mk.heap.nextId, id ≠ globals → m'.heap.frame id = mk.heap.frame id) ∧
        (∀ var item, FailsAt host mk e m' s var item →
          m'.heap.frame globals = (mk.heap.frame globals).define var item) ∧
        ((∀ var item, ¬ FailsAt host mk e m' s var item) →
          m'.heap.frame globals = mk.heap.frame globals) := by
  have hunread : ∀ e, parseSource source = .error e →
      ∀ fuel, runSource host fuel source m = .error (.failed (.source e)) m := by
    intro e hparse fuel
    rw [runSource_eq, readSource_of_error hparse]
    rfl
  refine ⟨⟨?_, ?_⟩, hunread, ?_⟩
  · rintro ⟨e, m', h, hstatic⟩
    cases hparse : parseSource source with
    | error e => exact ⟨e, rfl⟩
    | ok program =>
        obtain ⟨k, s, mk, hfails⟩ := exists_failsIn hparse h
        exact absurd hstatic (Bool.eq_false_iff.mp hfails.isStatic)
  · rintro ⟨e, hparse⟩
    exact ⟨.source e, m, ⟨0, hunread e hparse 0, finished_failed _ _⟩, rfl⟩
  · intro program hparse e m' h
    obtain ⟨k, s, mk, hfails⟩ := exists_failsIn hparse h
    have hmk := hfails.globals_lt hm
    obtain ⟨fuel, hs, _⟩ := hfails.failure
    refine ⟨hfails.isStatic, k, s, mk, hfails, ?_, ?_, ?_⟩
    · intro id hid hne
      obtain heq | ⟨hid, _⟩ := ((execute_scopes host fuel s globals).of_error hs).frame id hid
      · exact heq
      · exact absurd hid hne
    · exact fun var item hat => hat.frame_globals hmk
    · intro hnever
      obtain heq | ⟨var, item, hat⟩ := frame_globals_or_failsAt hmk hs
      · exact heq
      · exact absurd hat (hnever var item)

/-- A loop of a fresh session that fails at the second of its items, with its
variable bound to that item. -/
theorem failure_effect_second_item :
    let host := Host.standard
    let m : Machine := .fresh .unlimited
    let source := "for x in \"ab\" \x7b if x == \"b\" \x7b missing \x7d \x7d"
    globals < m.heap.nextId ∧
    ∃ program e m', parseSource source = .ok program ∧
      Ends (fun fuel => runSource host fuel source) m (.error (.failed e) m') ∧
      m'.heap.get? globals "x" = some (.string "b") ∧ e.isStatic = false ∧
      ∃ k s mk, FailsIn host program m e m' k s mk ∧
        (∀ var item, FailsAt host mk e m' s var item →
          m'.heap.frame globals = (mk.heap.frame globals).define var item) := by
  intro host m source
  have hm : globals < m.heap.nextId := (Session.fresh .unlimited : Session host m).globals_lt
  have hparse : parseSource source = .ok [.forLoop "x" (.string "ab")
      [.ifThen (.binary .equal (.variable "x" ⟨1, 20⟩) (.string "b") ⟨1, 22⟩)
        [.expression (.variable "missing" ⟨1, 31⟩)] ⟨1, 17⟩] ⟨1, 1⟩] := by decide +kernel
  obtain ⟨e, m', hends, hx⟩ : ∃ e m',
      Ends (fun fuel => runSource host fuel source) m (.error (.failed e) m') ∧
        m'.heap.get? globals "x" = some (.string "b") := by
    simp only [Ends, runSource_eq, readSource_of_ok hparse, pure_bind]
    dsimp only [host, m]
    exact ⟨_, _, ⟨9, rfl, finished_failed _ _⟩, rfl⟩
  obtain ⟨_, _, hrun⟩ := failure_effect host hm source
  obtain ⟨hstatic, k, s, mk, hfails, _, hat, _⟩ := hrun _ hparse e m' hends
  exact ⟨hm, _, e, m', hparse, hends, hx, hstatic, k, s, mk, hfails, hat⟩

end Abacus
