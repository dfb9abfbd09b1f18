import Abacus.Proofs.Session.Budget

/-!
# Abacus.Proofs.Session.Return

Values are given back to calls only.  Outside every call a statement that would
give a value back stops with a fault before it evaluates anything, so the ways
to run a program that look at how its statements end, and those that do not,
have the same ends (`endsAlike_block`, `endsAlike_source`).  Whether that fault
can occur is read off the text of the step: a return inside a function never
raises it, whenever and from wherever the function is called.
-/

namespace Abacus

open Mirror

variable {host : Host}

/-- From the machine two families of runs have the same ends. -/
def EndsAlike {α : Type} (x y : Nat → Run α) (m : Machine) : Prop := ∀ r, Ends x m r ↔ Ends y m r

/-! ## Programs as blocks -/

/-- Outside every call, running statements one after the other and running them
as a block come to the same. -/
theorem runProgram_eq_discard_executeBlock (fuel : Nat) (program : List Stmt) {m : Machine}
    (hm : m.calls = 0) :
    runProgram host fuel program m =
      (Functor.discard (executeBlock host fuel program globals) : Run Unit) m := by
  induction program generalizing m with
  | nil => rfl
  | cons s rest ih =>
      have hcounters := counters_execute host fuel s globals m
      rw [runProgram, Stateful.discard_bind, Stateful.discard_eq]
      cases hr : execute host fuel s globals m with
      | error e m' =>
          have hblock : executeBlock host fuel (s :: rest) globals m = .error e m' :=
            Stateful.bind_of_error _ hr
          rw [Stateful.bind_of_error _ hr, Stateful.bind_of_error _ hblock]
      | ok flow m' =>
          cases flow with
          | returned v => exact absurd hm (calls_ne_zero_of_execute host fuel hr)
          | normal =>
              have hblock : executeBlock host fuel (s :: rest) globals m =
                  executeBlock host fuel rest globals m' := Stateful.bind_of_ok _ hr
              rw [Run.final_of_ok hr] at hcounters
              have hm' : m'.calls = 0 := (congrArg Counters.calls hcounters).trans hm
              rw [Stateful.bind_of_ok _ hr, ih hm', Stateful.discard_eq,
                Stateful.bind_of_eq _ hblock]

/-- Outside of a call, the statements of a program and those of a block do the same: no
return ends a block early without being stray. -/
theorem endsAlike_block (program : List Stmt) {m : Machine} (hm : m.calls = 0) :
    EndsAlike (fun fuel => runProgram host fuel program)
      (fun fuel => Functor.discard (executeBlock host fuel program globals)) m := by
  intro r
  simp only [Ends, runProgram_eq_discard_executeBlock _ program hm]

/-! ## Programs with a value -/

/-- A program is run piece by piece. -/
theorem runProgram_append (fuel : Nat) (init rest : List Stmt) :
    runProgram host fuel (init ++ rest) =
      runProgram host fuel init >>= fun _ => runProgram host fuel rest := by
  induction init with
  | nil => rfl
  | cons s init ih => rw [List.cons_append, runProgram, runProgram, ih, bind_assoc]

/-- More fuel keeps the outcome of a program. -/
theorem steady_runProgram (program : List Stmt) :
    Steady fun fuel => runProgram host fuel program := by
  intro fuel
  induction program with
  | nil => exact .refl _
  | cons s rest ih => exact (steady_execute host s globals fuel).discard.bind fun _ => ih

/-- To run a bare expression as a statement is to evaluate it with one unit of
fuel less. -/
theorem runProgram_expression (fuel : Nat) (e : Expr) :
    runProgram host (fuel + 1) [.expression e] =
      Functor.discard (evaluate host fuel e globals) := by
  have hexecute : execute host (fuel + 1) (.expression e) globals =
      Functor.discard (evaluate host fuel e globals) >>= fun _ => pure Flow.normal := rfl
  rw [runProgram, hexecute, Stateful.discard_bind, bind_assoc]
  simp only [pure_bind, runProgram]
  exact bind_pure _

/-- Up to its value, a whole program is its first statements and its last expression. -/
theorem discard_runWhole {fuel : Nat} {program : List Stmt} :
    Functor.discard ((Recursion.ofFuel host fuel).runWhole program) =
      runProgram host fuel (splitLast program).1 >>= fun _ =>
        match (splitLast program).2 with
        | some e => Functor.discard (evaluate host fuel e globals)
        | none => (pure () : Run Unit) := by
  rw [Stateful.discard_eq, Recursion.runWhole, bind_assoc, runProgram_eq]
  congr 1
  funext _
  cases (splitLast program).2 with
  | none => rfl
  | some e =>
      simp only [Stateful.discard_eq, bind_assoc, pure_bind]
      rfl

/-- A whole program ends as its statements do with one unit of fuel more, which the last
expression takes as a statement. -/
theorem covers_runProgram_of_runWhole (fuel : Nat) (program : List Stmt) :
    Covers (Functor.discard ((Recursion.ofFuel host fuel).runWhole program))
      (runProgram host (fuel + 1) program) := by
  have hinit : Covers (runProgram host fuel (splitLast program).1)
      (runProgram host (fuel + 1) (splitLast program).1) := steady_runProgram _ fuel
  rw [discard_runWhole, ← splitLast_append program, runProgram_append, splitLast_append]
  refine hinit.bind fun _ => ?_
  cases (splitLast program).2 with
  | none => exact .refl _
  | some e =>
      show Covers _ (runProgram host (fuel + 1) [.expression e])
      rw [runProgram_expression]
      exact .refl _

/-- The statements end as the whole program does. -/
theorem covers_runWhole_of_runProgram (fuel : Nat) (program : List Stmt) :
    Covers (runProgram host fuel program)
      (Functor.discard ((Recursion.ofFuel host fuel).runWhole program)) := by
  rw [discard_runWhole]
  nth_rewrite 1 [← splitLast_append program]
  rw [runProgram_append]
  refine (Covers.refl _).bind fun _ => ?_
  cases (splitLast program).2 with
  | none => exact .refl _
  | some e =>
      cases fuel with
      | zero => exact fun m hfinished => absurd rfl (hfinished m)
      | succ fuel =>
          show Covers (runProgram host (fuel + 1) [.expression e]) _
          rw [runProgram_expression]
          exact (steady_evaluate host e globals fuel).discard

/-! ## Sources -/

/-- Up to its value, running a text is reading it and running its program. -/
theorem discard_runSource (fuel : Nat) (text : String) :
    Functor.discard (runSource host fuel text) = readSource text >>= fun program =>
      Functor.discard ((Recursion.ofFuel host fuel).runWhole program) := by
  rw [runSource_eq, Stateful.discard_eq, bind_assoc]
  simp only [Stateful.discard_eq]

/-- Running a source for its value and for its effects come to the same. -/
theorem endsAlike_source (text : String) (m : Machine) :
    EndsAlike (fun fuel => interpretSource host fuel text)
      (fun fuel => Functor.discard (runSource host fuel text)) m := by
  intro r
  simp only [discard_runSource]
  constructor
  · refine Ends.of_covers fun fuel => ⟨fuel, (Covers.refl _).bind fun program => ?_⟩
    exact covers_runWhole_of_runProgram fuel program
  · refine Ends.of_covers fun fuel => ⟨fuel + 1, (Covers.refl _).bind fun program => ?_⟩
    exact covers_runProgram_of_runWhole fuel program

/-- A text and the block of its statements do the same outside of a call. -/
theorem endsAlike_source_block (text : String) {m : Machine} (hm : m.calls = 0) :
    EndsAlike (fun fuel => interpretSource host fuel text)
      (fun fuel => readSource text >>= fun program =>
        Functor.discard (executeBlock host fuel program globals)) m := by
  intro r
  cases hparse : parseSource text with
  | error e => simp only [interpretSource, readSource_of_error hparse]; rfl
  | ok program =>
      simp only [interpretSource, readSource_of_ok hparse, pure_bind]
      exact endsAlike_block program hm r

/-! ## The law -/

/-- Outside every call a return stops before it evaluates anything. -/
theorem execute_giveBack (fuel : Nat) (scope : FrameId) (value : Option Expr) (pos : Position)
    {m : Machine} (hm : m.calls = 0) :
    execute host (fuel + 1) (.giveBack value pos) scope m =
      .error (.failed (.runtime .returnOutsideFunction pos)) m := by
  show (if m.calls = 0 then Run.fault .returnOutsideFunction pos else _ : Run Flow) m = _
  rw [if_pos hm]
  rfl

/-- A step whose text gives no value back outside a function never stops for
one. -/
theorem not_isStrayReturn_of_step {step : SessionStep}
    (h : ∀ s ∈ step.statements, s.givesBack = false) {fuel : Nat} {m m' : Machine} {e : Stop}
    (hr : step.run host fuel m = .error e m') : ¬ e.IsStrayReturn := by
  have hsuits := suits_lexical host
  have hfollows := follows_perform hsuits (hsuits.paired_ofFuel fuel) m.counters step
    fun s hs _ => .inr (h s hs)
  rw [step.run_eq_perform] at hr
  obtain ⟨_, _, _, he⟩ | ⟨_, _, _, hstray⟩ := lockstep hfollows trivial fun _ _ _ => eq_of_rel_value
  · exact he.elim
  · exact hstray e m' hr trivial

/-- **Returns are confined to calls.**  No call is open between the steps of a
session.  From every machine without an open call, no statement and no block
gives a value back: a return stops at once, on the machine as it is.  So a
program has the same ends however it is run: statement by statement, as a source
with a value, or as a block in the outermost scope.  A step stops for a stray
return only if its own text has a return outside a function. -/
theorem return_confined (host : Host) :
    (∀ m, Session host m → m.calls = 0) ∧
    (∀ m, m.calls = 0 →
      (∀ fuel scope s v m', execute host fuel s scope m ≠ .ok (.returned v) m') ∧
      (∀ fuel scope stmts v m', executeBlock host fuel stmts scope m ≠ .ok (.returned v) m') ∧
      (∀ fuel scope value pos, execute host (fuel + 1) (.giveBack value pos) scope m =
        .error (.failed (.runtime .returnOutsideFunction pos)) m) ∧
      (∀ program, EndsAlike (fun fuel => runProgram host fuel program)
        (fun fuel => Functor.discard (executeBlock host fuel program globals)) m) ∧
      (∀ text, EndsAlike (fun fuel => interpretSource host fuel text)
          (fun fuel => Functor.discard (runSource host fuel text)) m ∧
        EndsAlike (fun fuel => interpretSource host fuel text)
          (fun fuel => readSource text >>= fun program =>
            Functor.discard (executeBlock host fuel program globals)) m)) ∧
    (∀ m step, (∀ s ∈ SessionStep.statements step, s.givesBack = false) →
      ∀ fuel e m', step.run host fuel m = .error e m' → ¬ e.IsStrayReturn) := by
  refine ⟨fun m hm => ?_, fun m hm => ⟨?_, ?_, ?_, ?_, ?_⟩, fun m step h fuel e m' hr => ?_⟩
  · exact congrArg Counters.calls hm.counters_eq
  · exact fun fuel scope s v m' hr => calls_ne_zero_of_execute host fuel hr hm
  · exact fun fuel scope stmts v m' hr => calls_ne_zero_of_executeBlock host fuel hr hm
  · exact fun fuel scope value pos => execute_giveBack fuel scope value pos hm
  · exact fun program => endsAlike_block program hm
  · exact fun text => ⟨endsAlike_source text m, endsAlike_source_block text hm⟩
  · exact not_isStrayReturn_of_step h hr

/-- A fresh session: a return in a block of the outermost scope is a fault; a
function that gives a value back is called from a block without one. -/
theorem return_confined_fresh :
    let p : Position := ⟨1, 1⟩
    let host := Host.standard
    let m : Machine := .fresh .unlimited
    let stray : Stmt := .ifThen (.boolean true) [.giveBack none p] p
    let step : SessionStep := .program
      [.function "f" [] [.giveBack (some (.string "a")) p] p,
        .ifThen (.boolean true) [.expression (.call "f" [] p)] p]
    Session host m ∧ m.calls = 0 ∧ (∀ v m', execute host 9 stray globals m ≠ .ok (.returned v) m') ∧
      (∀ s ∈ step.statements, s.givesBack = false) ∧ (∃ m', step.run host 9 m = .ok none m') ∧
      ∀ fuel e m', step.run host fuel m = .error e m' → ¬ e.IsStrayReturn := by
  intro p host m stray step
  have hm : Session host m := .fresh .unlimited
  have htext : ∀ s ∈ step.statements, s.givesBack = false := by decide
  obtain ⟨hcalls, hconfined, hsteps⟩ := return_confined host
  exact ⟨hm, hcalls m hm, (hconfined m (hcalls m hm)).1 9 globals stray, htext, ⟨_, rfl⟩,
    hsteps m step htext⟩

end Abacus
