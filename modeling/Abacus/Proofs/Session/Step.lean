import Abacus.Proofs.Eval.Fuel
import Abacus.Session

/-!
# Abacus.Proofs.Session.Step

The steps of a session.  A step runs a source text, or statements that were read
before; `Session` holds of the machines between steps, those after a failed step
included.  What a step does depends on evaluation only through the `Recursion`
that it is given (`run_eq_perform`), so two sessions whose evaluations stand for
each other take steps that do (`Paired.perform`).
-/

namespace Abacus

/-- A step of a session: to run a source text, or to run statements. -/
inductive SessionStep where
  | source (text : String)
  | program (stmts : List Stmt)

namespace SessionStep

/-- Take a step.  Its value is that of a source text. -/
def run (host : Host) (fuel : Nat) : SessionStep → Run (Option Value)
  | source text => runSource host fuel text
  | program stmts => do
    runProgram host fuel stmts
    return none

/-- The top-level statements that a step runs. -/
def statements : SessionStep → List Stmt
  | source text =>
    match parseSource text with
    | .ok stmts => stmts
    | .error _ => []
  | program stmts => stmts

end SessionStep

/-- The machines between the steps of a session: that of a fresh session, and
those that a finished step leaves behind, whatever its outcome. -/
inductive Session (host : Host) : Machine → Prop
  | fresh (sink : Sink) : Session host (.fresh sink)
  | step {m : Machine} (hm : Session host m) (step : SessionStep) (fuel : Nat)
      (h : Finished (step.run host fuel m)) : Session host ((step.run host fuel).final m)

/-- A text that parses is read as its program. -/
theorem readSource_of_ok {text : String} {program : List Stmt}
    (h : parseSource text = .ok program) : readSource text = pure program := by
  rw [readSource, h]

/-- A text that does not parse fails before anything is run. -/
theorem readSource_of_error {text : String} {e : SourceError} (h : parseSource text = .error e) :
    readSource text = Run.fail (.source e) := by
  rw [readSource, h]

/-! ## Steps over given evaluations -/

namespace Recursion

/-- Run top-level statements in order. -/
def runProgram (self : Recursion) : List Stmt → Run Unit
  | [] => pure ()
  | s :: rest => do
    discard (self.exec s globals)
    runProgram self rest

/-- Run the statements of a program and then its trailing bare expression. -/
def runWhole (self : Recursion) (program : List Stmt) : Run (Option Value) := do
  self.runProgram (splitLast program).1
  match (splitLast program).2 with
  | some e => return some (← self.eval e globals)
  | none => return none

/-- Take a step of a session. -/
def perform (self : Recursion) : SessionStep → Run (Option Value)
  | .source text => readSource text >>= self.runWhole
  | .program stmts => do
    self.runProgram stmts
    return none

end Recursion

/-- The top-level statements are run by the recursion with the given fuel. -/
theorem runProgram_eq (host : Host) (fuel : Nat) (stmts : List Stmt) :
    runProgram host fuel stmts = (Recursion.ofFuel host fuel).runProgram stmts := by
  induction stmts with
  | nil => rfl
  | cons s rest ih => rw [runProgram, Recursion.runProgram, ih]; rfl

/-- A text is read first and run as a whole then. -/
theorem runSource_eq (host : Host) (fuel : Nat) (text : String) :
    runSource host fuel text = readSource text >>= (Recursion.ofFuel host fuel).runWhole := by
  have hwhole : (fun program => do
      runProgram host fuel (splitLast program).1
      match (splitLast program).2 with
      | some e => return some (← evaluate host fuel e globals)
      | none => return none) = (Recursion.ofFuel host fuel).runWhole := by
    funext program
    rw [runProgram_eq]
    rfl
  rw [← hwhole]
  rfl

/-- A text that parses is run as its program. -/
theorem runSource_of_ok {host : Host} {text : String} {program : List Stmt}
    (h : parseSource text = .ok program) (fuel : Nat) :
    runSource host fuel text = (Recursion.ofFuel host fuel).runWhole program := by
  rw [runSource_eq, readSource_of_ok h, pure_bind]

/-- A step is performed by evaluation with the given fuel. -/
theorem SessionStep.run_eq_perform (host : Host) (fuel : Nat) (step : SessionStep) :
    step.run host fuel = (Recursion.ofFuel host fuel).perform step := by
  cases step with
  | source text => exact runSource_eq host fuel text
  | program stmts => rw [SessionStep.run, runProgram_eq]; rfl

/-! ## The parts of a program -/

/-- A program is its statements up to the trailing bare expression, and that
expression. -/
theorem splitLast_append (program : List Stmt) :
    (splitLast program).1 ++ (splitLast program).2.toList.map .expression = program := by
  fun_induction splitLast program with
  | case1 => rfl
  | case2 e => rfl
  | case3 s rest _ init last heq ih =>
      rw [heq] at ih
      rw [List.cons_append, ih]

theorem splitLast_cons_cons (s t : Stmt) (rest : List Stmt) :
    splitLast (s :: t :: rest) =
      (s :: (splitLast (t :: rest)).1, (splitLast (t :: rest)).2) := by
  rw [splitLast]
  simp

/-- What is run before the last expression is in the program. -/
theorem mem_of_mem_splitLast {program : List Stmt} {s : Stmt} (h : s ∈ (splitLast program).1) :
    s ∈ program := by
  rw [← splitLast_append program]
  exact List.mem_append_left _ h

/-! ## Steps side by side -/

namespace Pairing

variable {C : Pairing} {host host' : Host} {w : C.World} {self self' : Recursion}

/-- Programs that stand for each other are split at the same place. -/
theorem Lawful.splitLast (hC : C.Lawful host host') {program program' : List Stmt}
    (h : List.Forall₂ (C.stmt w) program program') :
    List.Forall₂ (C.stmt w) (Abacus.splitLast program).1 (Abacus.splitLast program').1 ∧
      Option.Rel (C.expr w) (Abacus.splitLast program).2 (Abacus.splitLast program').2 := by
  induction h with
  | nil => exact ⟨.nil, .none⟩
  | cons hs hrest ih =>
      cases hrest with
      | nil =>
          cases hC.stmt_congruent hs with
          | expression he => exact ⟨.nil, .some he⟩
          | _ => exact ⟨.cons hs .nil, .none⟩
      | cons ht hrest =>
          rw [splitLast_cons_cons, splitLast_cons_cons]
          exact ⟨.cons hs ih.1, ih.2⟩

namespace Paired

variable (hself : C.Paired self self')

include hself

/-- The statements of a program, by induction on their list. -/
theorem runProgram {stmts stmts' : List Stmt} (hglobals : C.scope w globals globals)
    (h : List.Forall₂ (C.stmt w) stmts stmts') :
    C.Follows w C.any (self.runProgram stmts) (self'.runProgram stmts') := by
  induction stmts generalizing w stmts' with
  | nil =>
      cases h
      exact .pure trivial
  | cons s rest ih =>
      cases h with
      | cons hs hrest =>
          refine (hself.exec hs hglobals).discard.bind fun w₁ _ _ hw₁ _ => ?_
          exact ih (C.scope_mono hw₁ hglobals) (stmts_mono hw₁ hrest)

/-- A program and its last expression, whose values stand for each other. -/
theorem runWhole (hC : C.Lawful host host') {program program' : List Stmt}
    (hglobals : C.scope w globals globals) (h : List.Forall₂ (C.stmt w) program program') :
    C.Follows w (fun w => Option.Rel (C.value w)) (self.runWhole program)
      (self'.runWhole program') := by
  obtain ⟨hinit, hlast⟩ := hC.splitLast h
  refine (hself.runProgram hglobals hinit).bind fun w₁ _ _ hw₁ _ => ?_
  generalize (Abacus.splitLast program).2 = last, (Abacus.splitLast program').2 = last' at hlast ⊢
  cases hlast with
  | none => exact .pure .none
  | some he =>
      have heval := hself.eval (C.expr_mono hw₁ he) (C.scope_mono hw₁ hglobals)
      exact heval.bind fun w₂ v v' _ hv => .pure (.some hv)

/-- Steps over evaluations that stand for each other do so. -/
theorem perform (hC : C.Lawful host host') (step : SessionStep)
    (hsource : ∀ e, C.stop (.failed (.source e)) (.failed (.source e)))
    (hglobals : C.scope w globals globals) (h : ∀ s ∈ step.statements, C.stmt w s s) :
    C.Follows w (fun w => Option.Rel (C.value w)) (self.perform step) (self'.perform step) := by
  cases step with
  | program stmts =>
      have hstmts := List.forall₂_same.mpr h
      exact (hself.runProgram hglobals hstmts).bind fun _ _ _ _ _ => .pure .none
  | source text =>
      show C.Follows w _ (readSource text >>= self.runWhole) (readSource text >>= self'.runWhole)
      cases hparse : parseSource text with
      | error e =>
          rw [readSource_of_error hparse]
          have hfail : C.Follows w (fun _ _ _ => False) (Run.fail (.source e) : Run (List Stmt))
            (Run.fail (.source e) : Run (List Stmt)) := .fail (hsource e)
          exact hfail.bind fun _ _ _ _ hno => hno.elim
      | ok program =>
          simp only [SessionStep.statements, hparse] at h
          rw [readSource_of_ok hparse, pure_bind, pure_bind]
          exact hself.runWhole hC hglobals (List.forall₂_same.mpr h)

end Paired

end Pairing

/-! ## Steps in a mirror -/

namespace Mirror

variable {S : Mirror} {host host' : Host}

/-- In a mirror the values of a step are equal. -/
theorem eq_of_rel_value {c : Counters} {v v' : Option Value}
    (h : Option.Rel (S.pairing.value c) v v') : v = v' := by
  cases h with
  | none => rfl
  | some hv => rw [eq_of_value hv]

/-- A step follows its mirror image if all of its statements fit. -/
theorem follows_perform (hsuits : S.Suits host host') {self self' : Recursion}
    (hself : S.pairing.Paired self self') (c : Counters) (step : SessionStep)
    (h : ∀ s ∈ step.statements, S.fits c s) :
    S.pairing.Follows c (fun c => Option.Rel (S.pairing.value c)) (self.perform step)
      (self'.perform step) :=
  hself.perform hsuits.lawful step (fun _ => ⟨rfl, fun _ => id⟩) rfl fun s hs => ⟨rfl, h s hs⟩

end Mirror

/-- More fuel keeps the result of a finished step. -/
theorem steady_step (host : Host) (step : SessionStep) : Steady fun fuel => step.run host fuel := by
  have hsuits := Mirror.suits_self (S := Mirror.fuel) host (fun _ _ _ => trivial)
    fun _ _ _ => trivial
  have hfollows := fun fuel c =>
    Mirror.follows_perform hsuits (Mirror.paired_fuel host fuel) c step fun _ _ hc => hc.elim
  simp only [SessionStep.run_eq_perform]
  exact Mirror.steady_of_follows hfollows fun _ _ _ => Mirror.eq_of_rel_value

end Abacus
