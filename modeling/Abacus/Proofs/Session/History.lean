import Abacus.Proofs.Eval.Bounded
import Abacus.Proofs.Session.Limit

/-!
# Abacus.Proofs.Session.History

Sessions with the steps they took.  Between steps nothing is open and the
outermost scope is a root (`Machine.Idle`), so a step whose statements keep to a
shape may be performed, and leaves such a machine behind.  By induction on the
history the scopes of a session keep to the shape of everything it ran
(`History.idle`), and so do those of every machine that a further step comes by
(`History.everywhere`).
-/

namespace Abacus

/-- The top-level statements that steps ran. -/
def SessionStep.allStatements (steps : List SessionStep) : List Stmt :=
  steps.flatMap SessionStep.statements

/-- The machines between the steps of a session, with the steps that were taken. -/
inductive History (host : Host) : List SessionStep → Machine → Prop
  | fresh (sink : Sink) : History host [] (.fresh sink)
  | step {steps : List SessionStep} {m : Machine} (hm : History host steps m)
      (step : SessionStep) (fuel : Nat) (h : Finished (step.run host fuel m)) :
      History host (steps ++ [step]) ((step.run host fuel).final m)

/-- Every session has a history. -/
theorem Session.exists_history {host : Host} {m : Machine} (hm : Session host m) :
    ∃ steps, History host steps m := by
  induction hm with
  | fresh sink => exact ⟨[], .fresh sink⟩
  | step _ step fuel hfinished ih =>
      obtain ⟨steps, hsteps⟩ := ih
      exact ⟨steps ++ [step], hsteps.step step fuel hfinished⟩

/-! ## Between steps -/

/-- Nothing is open and scopes keep to the shape. -/
structure Machine.Idle (X : Shape) (m : Machine) : Prop where
  heap : m.heap.Within X
  globals_lt : globals < m.heap.nextId
  root : m.heap.height globals = 1
  counters : m.counters = ⟨0, 0⟩

variable {X S : Shape} {limit : Nat} {m m' : Machine} {self self' : Recursion}

namespace Machine.Idle

/-- A run that keeps to a shape leaves the machine idle as it was. -/
theorem after (hm : m.Idle X) (h : m.After X m') : m'.Idle X :=
  ⟨h.heap, Nat.lt_of_lt_of_le hm.globals_lt h.scopes.nextId_le,
    (Heap.height_of_grows h.scopes hm.globals_lt).trans hm.root, h.counters.trans hm.counters⟩

/-- Whatever keeps to the shape may be executed in the outermost scope. -/
theorem executable (hm : m.Idle X) (hS : S ≤ X) : m.Executable X globals S := by
  have hdepth : m.depth = 0 := congrArg Counters.depth hm.counters
  have hcalls : m.calls = 0 := congrArg Counters.calls hm.counters
  have hroot := hm.root
  have hblocks := hS.blocks
  exact ⟨hm.heap, hm.globals_lt, by omega, hS.folds, hS.functions, by omega, .inr hcalls⟩

theorem fresh (X : Shape) (sink : Sink) : (Machine.fresh sink).Idle X := by
  have hframe : ∀ id, Heap.empty.newRoot.frame id = .empty := by
    intro id
    rw [Heap.newRoot, Heap.frame_add]
    split <;> rfl
  have hheight : ∀ id, Heap.empty.newRoot.height id = 1 := by
    intro id
    rw [Heap.height, Heap.chain, hframe]
    rfl
  refine ⟨⟨fun id _ => .inl ?_, fun id _ => ?_, fun id b hb => ?_⟩, Nat.zero_lt_one, hheight _, rfl⟩
  · exact congrArg Frame.outer (hframe id)
  · show Heap.empty.newRoot.height id ≤ _
    rw [hheight]
    omega
  · rw [show (Machine.fresh sink).heap.frame id = .empty from hframe id] at hb
    contradiction

end Machine.Idle

/-! ## Steps -/

namespace Recursion.Bounded

variable (hself : Bounded X limit self self')

include hself

/-- Statements within the shape, by induction on their list. -/
theorem runProgram {stmts : List Stmt} (hm : m.Idle X) (hstmts : Shape.of stmts ≤ X) :
    Keeps X limit m (fun _ _ => True) (self.runProgram stmts) (self'.runProgram stmts) := by
  induction stmts generalizing m with
  | nil => exact .pure hm.heap trivial
  | cons s rest ih =>
      obtain ⟨hs, hrest⟩ := Shape.of_cons_le_iff.mp hstmts
      refine (hself.exec (hm.executable hs)).discard.bind fun _ m₁ hafter _ => ?_
      exact ih (hm.after hafter) hrest

/-- A program within the shape, with its last expression. -/
theorem runWhole {program : List Stmt} (hm : m.Idle X) (hprogram : Shape.of program ≤ X) :
    Keeps X limit m (fun _ _ => True) (self.runWhole program) (self'.runWhole program) := by
  have hinit : Shape.of (splitLast program).1 ≤ X :=
    Shape.of_le_iff.mpr fun s hs => Shape.of_le_iff.mp hprogram s (mem_of_mem_splitLast hs)
  have hlast : ∀ e ∈ (splitLast program).2, .expression e ∈ program := by
    intro e he
    rw [← splitLast_append program]
    exact List.mem_append_right _ (by simp [Option.mem_def.mp he])
  refine (hself.runProgram hm hinit).bind fun _ m₁ hafter _ => ?_
  cases hsplit : (splitLast program).2 with
  | none => exact .pure hafter.heap trivial
  | some e =>
      have hs := Shape.of_le_iff.mp hprogram _ (hlast e hsplit)
      have he := ((hm.after hafter).executable hs).evaluable
        (Shape.folds_le_of_mem (e := e) (by simp [Stmt.expressions]))
      exact (hself.eval he).bind fun v m₂ hafter₂ _ => .pure hafter₂.heap trivial

/-- A step that keeps to the shape may be performed between steps. -/
theorem perform {step : SessionStep} (hm : m.Idle X) (hstep : Shape.of step.statements ≤ X) :
    Keeps X limit m (fun _ _ => True) (self.perform step) (self'.perform step) := by
  cases step with
  | program stmts =>
      exact (hself.runProgram hm hstep).bind fun _ m₁ hafter _ => .pure hafter.heap trivial
  | source text =>
      cases hparse : parseSource text with
      | ok program =>
          have hprogram : Shape.of program ≤ X := by
            rw [SessionStep.statements, hparse] at hstep
            exact hstep
          refine Keeps.bind (A := fun _ p => p = program) ?_ ?_
          · rw [readSource_of_ok hparse]
            exact .pure hm.heap rfl
          · rintro _ m₁ hafter rfl
            exact hself.runWhole (hm.after hafter) hprogram
      | error e =>
          refine Keeps.bind (A := fun _ _ => False) ?_ fun _ _ _ h => h.elim
          rw [readSource_of_error hparse]
          exact .fail hm.heap id

end Recursion.Bounded

variable {host : Host} (hhost : host.Closureless)

include hhost in
/-- So a step between steps keeps to the shape. -/
theorem Machine.Idle.keeps_run {step : SessionStep} (hm : m.Idle X)
    (hstep : Shape.of step.statements ≤ X) (fuel : Nat) :
    Keeps X host.maxDepth m (fun _ _ => True) (step.run host fuel) (step.run host fuel) := by
  rw [SessionStep.run_eq_perform]
  exact (Recursion.bounded_ofFuel hhost fuel).perform hm hstep

/-! ## Histories -/

namespace History

variable {steps : List SessionStep}

/-- A shape that bounds a history bounds what came first and the last step. -/
theorem shape_of_append_le {step : SessionStep}
    (hX : Shape.of (SessionStep.allStatements (steps ++ [step])) ≤ X) :
    Shape.of (SessionStep.allStatements steps) ≤ X ∧ Shape.of step.statements ≤ X := by
  rw [SessionStep.allStatements, List.flatMap_append, List.flatMap_singleton] at hX
  exact ⟨Shape.le_trans (Shape.of_le_of_subset (List.subset_append_left _ _)) hX,
    Shape.le_trans (Shape.of_le_of_subset (List.subset_append_right _ _)) hX⟩

include hhost

/-- What a session ran bounds what it left behind. -/
theorem idle (hm : History host steps m) (hX : Shape.of (SessionStep.allStatements steps) ≤ X) :
    m.Idle X := by
  induction hm with
  | fresh sink => exact .fresh X sink
  | step _ step fuel _ ih =>
      obtain ⟨hsteps, hstep⟩ := shape_of_append_le hX
      exact (ih hsteps).after ((ih hsteps).keeps_run hhost hstep fuel).final

/-- What follows from the invariant holds of every node that a further step comes
by. -/
theorem everywhere (hm : History host steps m) {step : SessionStep}
    (hX : Shape.of (SessionStep.allStatements (steps ++ [step])) ≤ X)
    {ok : Visit → Machine → Prop} (hok : ∀ v m, m.Inside X → ok v m) :
    Everywhere host ok (fun self => self.perform step) m := by
  obtain ⟨hsteps, hstep⟩ := shape_of_append_le hX
  intro _ fuel alarm
  exact ((Recursion.bounded_heralded hhost hok alarm fuel).perform (hm.idle hhost hsteps) hstep).eq

/-- A further step stops at the limit on nesting only if functions are allowed, or
more blocks than the limit. -/
theorem functions_or_lt_of_atLimit (hm : History host steps m) {step : SessionStep}
    (hX : Shape.of (SessionStep.allStatements (steps ++ [step])) ≤ X) {fuel : Nat}
    (h : AtLimit (step.run host fuel m)) : X.functions = true ∨ host.maxDepth < X.blocks := by
  obtain ⟨hsteps, hstep⟩ := shape_of_append_le hX
  obtain ⟨e, m', hrun, he⟩ := h
  exact (((hm.idle hhost hsteps).keeps_run hhost hstep fuel).error e m' hrun).2 he

end History

end Abacus
