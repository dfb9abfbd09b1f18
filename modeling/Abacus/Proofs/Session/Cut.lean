import Abacus.Proofs.Eval.Output
import Abacus.Proofs.Session.Limit

/-!
# Abacus.Proofs.Session.Cut

Steps of a session on a sink that fills up.  A step writes the same bytes to
every sink, so on one that takes only so many of them it ends as on one that
takes everything if they fit, and otherwise it stops at the exact byte: nothing
catches the failure of a write, so nothing is evaluated after it.
-/

namespace Abacus

/-- The machine that a result leaves. -/
def Result.machine {α : Type} : EStateM.Result Stop Machine α → Machine
  | .ok _ m => m
  | .error _ m => m

namespace Result

variable {α : Type}

@[simp] theorem machine_withSink (r : EStateM.Result Stop Machine α) (sink : Sink) :
    machine (withSink r sink) = (machine r).withSink sink := by
  cases r <;> rfl

@[simp] theorem withSink_withSink (r : EStateM.Result Stop Machine α) (sink sink' : Sink) :
    withSink (withSink r sink) sink' = withSink r sink' := by
  cases r <;> rfl

/-- The sink of a result does not say whether it is finished. -/
theorem finished_withSink {r : EStateM.Result Stop Machine α} (h : Finished r) (sink : Sink) :
    Finished (withSink r sink) := by
  cases r with
  | ok a m => exact finished_ok a _
  | error e m =>
      rintro _ ⟨⟩
      exact h m rfl

theorem finished_of_withSink {r : EStateM.Result Stop Machine α} {sink : Sink}
    (h : Finished (withSink r sink)) : Finished r := by
  rintro m rfl
  exact h _ rfl

end Result

/-- **A full sink cuts a step at the exact byte.**  A step that ends on a sink that
takes everything appends some bytes to it.  On a sink with room for only `n`
more, the step ends in the same result, with the same output and the same
scopes, if there are at most `n` of them; if there are more it stops with the
failure of the sink, which holds exactly the first `n`.  In both cases it comes
by the same nodes, on the same machines, as long as no more than `n` bytes are
written, and by no other: nothing is evaluated after the write that fails. -/
theorem full_sink_cuts (host : Host) {m : Machine} (hcapacity : m.sink.capacity = none)
    (hflush : m.sink.flushable = true) (step : SessionStep) (n : Nat)
    {r : EStateM.Result Stop Machine (Option Value)}
    (h : Ends (fun fuel => step.run host fuel) m r) :
    let held := m.sink.written
    let limit := held.size + n
    let small := m.withSink (.limited held limit)
    ∃ w : ByteArray, (Result.machine r).sink = .endless (held ++ w) ∧
      (w.size ≤ n →
        Ends (fun fuel => step.run host fuel) small
          (Result.withSink r (.limited (held ++ w) limit))) ∧
      (n < w.size →
        ∃ m', Ends (fun fuel => step.run host fuel) small
            (.error (.failed (.io .sinkFull)) m') ∧
          m'.sink = .limited (held ++ w.extract 0 n) limit) ∧
      ∀ ok, Everywhere host ok (·.perform step) small ↔
        Everywhere host (UpTo limit ok) (·.perform step) m := by
  intro held limit small
  obtain ⟨fuel, hr, hfinished⟩ := h
  have hendless : m = m.withSink (.endless held) := by
    rw [← Sink.eq_endless hcapacity hflush, Machine.withSink_self]
  have hheld : held.size ≤ limit := Nat.le_add_right _ _
  obtain ⟨o, ho⟩ := exists_prints_perform host fuel step m
  rw [← SessionStep.run_eq_perform] at ho
  have hrun : r = Result.withSink o.result (.endless (held ++ o.bytes)) := by
    rw [← hr, hendless]
    exact ho.endless held
  refine ⟨o.bytes, ?_, fun hle => ?_, fun hlt => ?_, fun ok => ?_⟩
  · rw [hrun, Result.machine_withSink, Machine.withSink_sink]
  · have hfits : (held ++ o.bytes).size ≤ limit := by
      rw [ByteArray.size_append]
      exact Nat.add_le_add_left hle _
    refine ⟨fuel, ?_, Result.finished_withSink hfinished _⟩
    rw [hrun, Result.withSink_withSink]
    exact ho.limited_of_le hfits
  · have hfull : limit < (held ++ o.bytes).size := by
      rw [ByteArray.size_append]
      exact Nat.add_lt_add_left hlt _
    obtain ⟨m', hm', hsink⟩ := ho.limited_of_lt hheld hfull
    refine ⟨m', ⟨fuel, hm', finished_failed _ m'⟩, ?_⟩
    rw [hsink, Nat.add_sub_cancel_left]
  · conv_rhs => rw [hendless]
    exact everywhere_limited_iff host step ok m hheld

/-- A text is printed as an argument of another print.  On a sink with room for
five bytes the second line is cut after two letters; on one with room for eight
both are written, and the step ends as it does without a limit. -/
theorem full_sink_cuts_inner_print :
    let p : Position := ⟨1, 1⟩
    let host := Host.standard.withLimit 10
    let print : Expr → Expr := fun e => .call "print" [e] p
    let step : SessionStep := .program [.expression (print (print (.string "ab")))]
    let m : Machine := .fresh .unlimited
    let run := fun fuel => step.run host fuel
    Ends run m (step.run host 4 m) ∧
      (∃ m', Ends run (m.withSink (.limited .empty 5)) (.error (.failed (.io .sinkFull)) m') ∧
        m'.sink.written = "ab\nno".toUTF8) ∧
      ∃ m', Ends run (m.withSink (.limited .empty 8)) (.ok none m') ∧
        m'.sink.written = "ab\nnone\n".toUTF8 := by
  intro p host print step m run
  have hok : ∃ m', step.run host 4 m = .ok none m' ∧ m'.sink.written = "ab\nnone\n".toUTF8 :=
    ⟨_, rfl, rfl⟩
  obtain ⟨m₁, hrun, hwritten⟩ := hok
  have hends : Ends run m (.ok none m₁) := ⟨4, hrun, finished_ok _ m₁⟩
  have hbytes : ∀ u, m₁.sink = .endless (m.sink.written ++ u) → u = "ab\nnone\n".toUTF8 := by
    intro u hu
    rw [← hwritten, hu]
    exact ByteArray.empty_append.symm
  obtain ⟨w, hw, _, hcut, _⟩ := full_sink_cuts host (m := m) rfl rfl step 5 hends
  obtain ⟨w', hw', hfits, _⟩ := full_sink_cuts host (m := m) rfl rfl step 8 hends
  obtain rfl := hbytes w hw
  obtain rfl := hbytes w' hw'
  obtain ⟨m', hm', hsink⟩ := hcut (by decide)
  refine ⟨hrun ▸ hends, ⟨m', hm', ?_⟩, _, hfits (by decide), rfl⟩
  rw [hsink]
  rfl

end Abacus
