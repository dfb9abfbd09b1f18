import Abacus.Proofs.Eval.Coherence
import Abacus.Proofs.Eval.Halting

/-!
# Abacus.Proofs.Session.Termination

Sessions without while loops.  A step whose statements have none, taken where no
stored function has one, ends with a value or an error, however its functions
call themselves and each other; what it leaves behind has no loops either, so the
same holds of every later step (`loopFree_terminates`).
-/

namespace Abacus

variable {host : Host} {d : Nat}

/-- A host that does not see how closures are kept cannot put loops into them. -/
theorem Host.Blind.loopFree (hhost : host.Blind) : host.LoopFree := by
  constructor
  · intro name v hv
    have hentry := hhost.registry .loopFree name
    rw [hv] at hentry
    cases hentry with
    | some hv => exact hv.loopFree
  · intro name args v hargs hv
    have hreply := hhost.foreign .loopFree name args args Likeness.faithful_loopFree
      (Value.forall_loopFree_iff.mp hargs)
    have hanswer := hreply.answer
    rw [hv] at hanswer
    cases hanswer with
    | ok hv => exact hv.loopFree

theorem Heap.loopFree_fresh (sink : Sink) : (Machine.fresh sink).heap.LoopFree := by
  intro id name v hv
  have hframe : (Machine.fresh sink).heap.frame id = .empty := by
    show (Heap.add .empty .empty).frame id = _
    rw [Heap.frame_add]
    split <;> rfl
  rw [hframe] at hv
  contradiction

/-! ## Steps -/

/-- The statements of a loop-free program halt, by induction on their list. -/
theorem halts_runProgram (hhost : host.LoopFree) {program : List Stmt}
    (h : ∀ s ∈ program, s.loopFree = true) :
    HaltsAt d (fun _ => True) fun fuel => (Recursion.ofFuel host fuel).runProgram program := by
  induction program with
  | nil => exact .pure trivial
  | cons s rest ih =>
      rw [List.forall_mem_cons] at h
      have hs := halts_execute hhost (bodies_halt hhost d) h.1 globals
      exact hs.discard.bind fun _ _ => ih h.2

/-- A loop-free program halts with its last expression. -/
theorem halts_runWhole (hhost : host.LoopFree) {program : List Stmt}
    (h : ∀ s ∈ program, s.loopFree = true) :
    HaltsAt d (fun _ => True) fun fuel => (Recursion.ofFuel host fuel).runWhole program := by
  have hinit : ∀ s ∈ (splitLast program).1, s.loopFree = true := fun s hs =>
    h s (mem_of_mem_splitLast hs)
  refine (halts_runProgram hhost hinit).bind fun _ _ => ?_
  cases (splitLast program).2 with
  | none => exact .pure trivial
  | some e =>
      have he := halts_evaluate hhost (bodies_halt hhost d) e globals
      exact he.bind fun _ _ => .pure trivial

/-- A step of a session halts if its statements are loop-free. -/
theorem halts_perform (hhost : host.LoopFree) {step : SessionStep}
    (h : ∀ s ∈ step.statements, s.loopFree = true) :
    HaltsAt d (fun _ => True) fun fuel => (Recursion.ofFuel host fuel).perform step := by
  cases step with
  | program stmts => exact (halts_runProgram hhost h).bind fun _ _ => .pure trivial
  | source text =>
      show HaltsAt d _ fun fuel => readSource text >>= (Recursion.ofFuel host fuel).runWhole
      cases hparse : parseSource text with
      | error e =>
          rw [readSource_of_error hparse]
          exact Halts.bind (Q := fun _ => False) (.fail (.source e)) fun _ hno => hno.elim
      | ok program =>
          simp only [SessionStep.statements, hparse] at h
          rw [readSource_of_ok hparse]
          simp only [pure_bind]
          exact halts_runWhole hhost h

/-- **Programs without while loops terminate.**  On every machine whose stored
functions have no while loop, and for every limit of the host, a step whose
statements have none ends: with a value or with an error, and with a machine
whose stored functions have none either. -/
theorem loopFree_terminates (hhost : host.LoopFree) {m : Machine} (hm : m.heap.LoopFree)
    {step : SessionStep} (hstep : ∀ s ∈ step.statements, s.loopFree = true) :
    (∃ v m', Ends (fun fuel => step.run host fuel) m (.ok v m') ∧ m'.heap.LoopFree) ∨
    ∃ e m', Ends (fun fuel => step.run host fuel) m (.error (.failed e) m') ∧
      m'.heap.LoopFree := by
  have hhalts : HaltsAt m.depth (fun _ => True) fun fuel => step.run host fuel := by
    simp only [SessionStep.run_eq_perform]
    exact halts_perform hhost hstep
  obtain ⟨v, m', hends, _, hm'⟩ | ⟨e, m', hends, hm'⟩ := hhalts.ends ⟨hm, rfl⟩
  · exact .inl ⟨v, m', hends, hm'.heap⟩
  · exact .inr ⟨e, m', hends, hm'.heap⟩

/-- Two functions that call each other without end, in a fresh session: the step
ends all the same. -/
theorem loopFree_terminates_mutual :
    let p : Position := ⟨1, 1⟩
    let host := Host.standard
    let m : Machine := .fresh .unlimited
    let step : SessionStep := .program
      [.function "ping" ["x"] [.giveBack (some (.call "pong" [.variable "x" p] p)) p] p,
        .function "pong" ["x"]
          [.ifThen (.boolean true) [.expression (.call "ping" [.variable "x" p] p)] p] p,
        .forLoop "c" (.string "ab") [.expression (.call "ping" [.variable "c" p] p)] p]
    host.LoopFree ∧ m.heap.LoopFree ∧ (∀ s ∈ step.statements, s.loopFree = true) ∧
      ((∃ v m', Ends (fun fuel => step.run host fuel) m (.ok v m') ∧ m'.heap.LoopFree) ∨
        ∃ e m', Ends (fun fuel => step.run host fuel) m (.error (.failed e) m') ∧
          m'.heap.LoopFree) := by
  intro p host m step
  have hhost : host.LoopFree := (Host.blind_of_standard rfl rfl).loopFree
  have hm : m.heap.LoopFree := Heap.loopFree_fresh .unlimited
  have hstep : ∀ s ∈ step.statements, s.loopFree = true := by decide
  exact ⟨hhost, hm, hstep, loopFree_terminates hhost hm hstep⟩

end Abacus
