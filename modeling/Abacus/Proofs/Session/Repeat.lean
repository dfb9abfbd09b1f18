import Abacus.Proofs.Session.Cut
import Abacus.Proofs.Session.Loop

/-!
# Abacus.Proofs.Session.Repeat

Expressions can be evaluated again.  An evaluation changes no scope that was
there before it; what it leaves behind is scopes and closures that no earlier
scope mentions, and text in the output.  A second evaluation does not see the
former, as the numbers of scopes and closures do not matter, nor the latter, as
what a run writes does not depend on where it writes.  So it comes to the same
result and writes the same text.
-/

namespace Abacus

/-- Functions stand for each other if their names, parameters and bodies are the
same. -/
def Likeness.byText : Likeness := ⟨fun _ _ => True, fun _ _ => True, Eq⟩

theorem Renaming.likeness_le_byText (w : Renaming) : w.likeness.Le .byText :=
  ⟨fun _ _ _ => trivial, fun _ _ _ => trivial, fun _ _ h => h⟩

/-- Two results with the same value, functions being compared by their text, or
with the same error. -/
inductive SameOutcome : EStateM.Result Stop Machine Value → EStateM.Result Stop Machine Value → Prop
  | ok {v v' : Value} {m m' : Machine} (h : v.Alike .byText v') : SameOutcome (.ok v m) (.ok v' m')
  | error (e : Stop) (m m' : Machine) : SameOutcome (.error e m) (.error e m')

namespace SameOutcome

variable {r r' : EStateM.Result Stop Machine Value}

/-- The outcome does not lie in the sink. -/
theorem of_withSink {sink sink' : Sink} (h : SameOutcome r (Result.withSink r' sink)) :
    SameOutcome r (Result.withSink r' sink') := by
  cases r' with
  | ok v m =>
      cases h with
      | ok hv => exact .ok hv
  | error e m =>
      cases h
      exact .error e _ _

theorem finished (h : SameOutcome r r') (hr : Finished r) : Finished r' := by
  cases h with
  | ok _ => exact finished_ok _ _
  | error e m m' =>
      rintro _ ⟨⟩
      exact hr m rfl

end SameOutcome

/-- From machines that are the same up to a renaming, an evaluation has the same
outcome and the same output. -/
theorem sameOutcome_of_agrees {w : Renaming} {r r' : EStateM.Result Stop Machine Value}
    (h : (Renaming.pairing False).Agrees w (Renaming.pairing False).value r r') :
    SameOutcome r r' ∧ (Result.machine r).sink = (Result.machine r').sink := by
  cases h with
  | ok hw hm hv => exact ⟨.ok (hv.mono (Renaming.likeness_le_byText _)), hm.sink id⟩
  | error hw hm he =>
      obtain rfl : _ = _ := he
      exact ⟨.error _ _ _, hm.sink id⟩
  | left he => exact he.1.elim
  | right he => exact he.1.elim

theorem Run.final_eq_machine {α : Type} (x : Run α) (m : Machine) :
    x.final m = Result.machine (x m) := by
  unfold Run.final
  cases x m <;> rfl

variable {host : Host} {m : Machine}

/-- An evaluation makes a coherent machine grow. -/
theorem grows_evaluate (hhost : host.Blind) (hm : m.heap.Coherent) {scope : FrameId}
    (hs : scope < m.heap.nextId) (fuel : Nat) (e : Expr) :
    m.Grows ((evaluate host fuel e scope).final m) := by
  have hself := Renaming.paired_ofFuel hhost False fuel
  exact (grows_final (evaluate_scopes host fuel e scope) (counters_evaluate host fuel e scope m) hm
    (hself.eval rfl (Heap.mem_identity hs))).2

/-- On a machine that has grown, but not in its output, an evaluation has the same
outcome and writes the same. -/
theorem evaluate_grown (hhost : host.Blind) (hm : m.heap.Coherent) {m' : Machine} (hg : m.Grows m')
    {scope : FrameId} (hs : scope < m.heap.nextId) (fuel : Nat) (e : Expr) :
    SameOutcome (evaluate host fuel e scope m) (evaluate host fuel e scope (m'.withSink m.sink)) ∧
      (Result.machine (evaluate host fuel e scope m)).sink =
        (Result.machine (evaluate host fuel e scope (m'.withSink m.sink))).sink := by
  have hself := Renaming.paired_ofFuel hhost False fuel
  have hdepth : m'.depth = m.depth := congrArg Counters.depth hg.counters
  have hcalls : m'.calls = m.calls := congrArg Counters.calls hg.counters
  have hmachines : Renaming.Machines False m.heap.identity m (m'.withSink m.sink) :=
    ⟨hm.heaps hg.scopes hg.closures, hdepth.symm, hcalls.symm, fun _ => rfl⟩
  exact sameOutcome_of_agrees (hself.eval rfl (Heap.mem_identity hs) _ _ hmachines)

/-- **Expressions are repeatable.**  On a host with the standard library, from
every reachable machine whose sink takes everything and in every scope of it, an
expression whose evaluation ends can be evaluated again at once: the second
evaluation ends with the same error, at the same place, or with the same value,
functions being compared by name, parameters and body, and it appends the same
bytes to the output. -/
theorem evaluation_repeats (limit : Nat) {m : Machine}
    (hm : Reachable (Host.standard.withLimit limit) m) (hcapacity : m.sink.capacity = none)
    (hflush : m.sink.flushable = true) {scope : FrameId} (hs : scope < m.heap.nextId) (e : Expr)
    {r : EStateM.Result Stop Machine Value}
    (h : Ends (fun fuel => evaluate (Host.standard.withLimit limit) fuel e scope) m r) :
    ∃ r' w, Ends (fun fuel => evaluate (Host.standard.withLimit limit) fuel e scope)
        (Result.machine r) r' ∧
      SameOutcome r r' ∧
      (Result.machine r).sink = .endless (m.sink.written ++ w) ∧
      (Result.machine r').sink = .endless (m.sink.written ++ w ++ w) := by
  obtain ⟨fuel, hr, hfinished⟩ := h
  change evaluate (Host.standard.withLimit limit) fuel e scope m = r at hr
  have hhost : (Host.standard.withLimit limit).Blind := Host.blind_of_standard rfl rfl
  have hcoherent := hm.coherent hhost
  have hsink := Sink.eq_endless hcapacity hflush
  have hself : m.withSink (.endless m.sink.written) = m := by
    rw [← hsink, Machine.withSink_self]
  -- the first evaluation, the second with the output put back, and the second as it is
  have hgrows := grows_evaluate hhost hcoherent hs fuel e
  obtain ⟨hsame, hsinks⟩ := evaluate_grown hhost hcoherent hgrows hs fuel e
  rw [Run.final_eq_machine, hr] at hsame hsinks
  obtain ⟨o, ho⟩ := exists_prints_evaluate (Host.standard.withLimit limit) fuel e scope m
  obtain ⟨o', ho'⟩ :=
    exists_prints_evaluate (Host.standard.withLimit limit) fuel e scope (Result.machine r)
  have hfirst := ho.endless m.sink.written
  rw [hself, hr] at hfirst
  have hfirstSink : (Result.machine r).sink = .endless (m.sink.written ++ o.bytes) := by
    rw [hfirst, Result.machine_withSink, Machine.withSink_sink]
  rw [hsink, ho'.endless] at hsame hsinks
  have hbytes : o'.bytes = o.bytes := by
    rw [hfirstSink, Result.machine_withSink, Machine.withSink_sink] at hsinks
    have hwritten := congrArg Sink.written hsinks
    exact ((ByteArray.append_right_inj _).mp hwritten).symm
  have hsecond := ho'.endless (m.sink.written ++ o.bytes)
  rw [← hfirstSink, Machine.withSink_self, hbytes] at hsecond
  refine ⟨_, o.bytes, ⟨fuel, hsecond, ?_⟩, hsame.of_withSink, hfirstSink, ?_⟩
  · exact hsame.of_withSink.finished hfinished
  · rw [Result.machine_withSink, Machine.withSink_sink]

/-- A function that prints and gives back a function of its own can be called
again: the second call gives back the function of another scope, and prints as the
first did. -/
theorem evaluation_repeats_inner_function :
    let p : Position := ⟨1, 1⟩
    let host := Host.standard.withLimit 10
    let step : SessionStep := .program [.function "make" []
      [.function "inner" [] [] p, .expression (.call "print" [.string "a"] p),
        .giveBack (some (.variable "inner" p)) p] p]
    let m := (step.run host 3).final (.fresh .unlimited)
    let e : Expr := .call "make" [] p
    let eval := fun fuel => evaluate host fuel e globals
    ∃ r, Reachable host m ∧ m.sink.capacity = none ∧ m.sink.flushable = true ∧
      globals < m.heap.nextId ∧ Ends eval m r ∧ (Result.machine r).sink.written = "a\n".toUTF8 ∧
      ∃ r', Ends eval (Result.machine r) r' ∧ SameOutcome r r' ∧
        (Result.machine r').sink.written = "a\na\n".toUTF8 := by
  intro p host step m e eval
  have hsession : Session host m := .step (.fresh .unlimited) step 3 (finished_ok _ _)
  have hm := hsession.reachable
  have hok : ∃ v m', evaluate host 5 e globals m = .ok v m' ∧ m'.sink.written = "a\n".toUTF8 :=
    ⟨_, _, rfl, rfl⟩
  obtain ⟨v, m', hr, hwritten⟩ := hok
  have hends : Ends eval m (.ok v m') := ⟨5, hr, finished_ok v m'⟩
  obtain ⟨r', w, hagain, hsame, hfirst, hsecond⟩ :=
    evaluation_repeats 10 hm rfl rfl hm.globals_lt e hends
  have hw : w = "a\n".toUTF8 := by
    rw [← hwritten, show m'.sink = _ from hfirst]
    exact ByteArray.empty_append.symm
  refine ⟨_, hm, rfl, rfl, hm.globals_lt, hends, hwritten, r', hagain, hsame, ?_⟩
  rw [hsecond, hw]
  rfl

end Abacus
