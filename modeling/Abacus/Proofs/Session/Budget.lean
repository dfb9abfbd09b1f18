import Abacus.Proofs.Eval.Counters
import Abacus.Proofs.Session.Limit

/-!
# Abacus.Proofs.Session.Budget

The budget of nested blocks and calls.  A run gives back what it took of it,
whatever its outcome, so between the steps of a session nothing is taken and
every step may use the whole limit.  While a step runs, no more calls are open
than blocks and calls, and no more of these than the limit.
-/

namespace Abacus

open Mirror

variable {host : Host}

/-- The counters are within the limit of the host. -/
def Machine.WithinLimit (host : Host) (m : Machine) : Prop :=
  m.calls ≤ m.depth ∧ m.depth ≤ host.maxDepth

/-! ## Between steps -/

theorem counters_step (step : SessionStep) (fuel : Nat) (m : Machine) :
    ((step.run host fuel).final m).counters = m.counters := by
  have hsuits := suits_plain host
  have hfollows := fun c =>
    follows_perform hsuits (hsuits.paired_ofFuel fuel) c step fun _ _ hc => hc.elim
  rw [step.run_eq_perform]
  exact counters_final hfollows (fun _ _ _ => eq_of_rel_value) m

/-- No block and no call is open between the steps of a session. -/
theorem Session.counters_eq {m : Machine} (hm : Session host m) : m.counters = ⟨0, 0⟩ := by
  induction hm with
  | fresh sink => rfl
  | step hm step fuel _ ih => rw [counters_step, ih]

/-! ## During a step -/

/-- A step that starts within the limit stays there, so what follows from the limit
holds at every node it comes by. -/
theorem withinLimit_everywhere {ok : Visit → Machine → Prop}
    (hok : ∀ v m, m.WithinLimit host → ok v m) (step : SessionStep) {m : Machine}
    (hm : m.WithinLimit host) : Everywhere host ok (·.perform step) m := by
  intro dec fuel alarm
  have hsuits := suits_bounded host
  have hself := hsuits.paired_heralded hok alarm fuel
  have hfollows := follows_perform hsuits hself m.counters step fun _ _ hc => hc.elim
  obtain ⟨_, _, _, he⟩ | ⟨heq, _⟩ := lockstep hfollows hm fun _ _ _ => eq_of_rel_value
  · exact he.elim
  · exact heq.symm

/-! ## The law -/

/-- **Counters survive**: evaluation and execution leave the counters as they
found them, whatever the outcome, and where a block or a call is closed one is
open.  Between the steps of a session both counters are zero, so the next step
has the whole limit to use; and at every node that it comes by there are no more
open calls than open blocks, and no more of these than the limit allows. -/
theorem counters_survive (host : Host) :
    (∀ fuel scope m,
      (∀ e, ((evaluate host fuel e scope).final m).counters = m.counters) ∧
      (∀ s, ((execute host fuel s scope).final m).counters = m.counters) ∧
      (∀ stmts, ((executeBlock host fuel stmts scope).final m).counters = m.counters)) ∧
    (∀ fuel stmts scope pos (m : Machine),
      0 < ((executeBlock host fuel stmts scope).final m.enterBlock).depth ∧
      0 < ((Run.deeper host.maxDepth pos (executeBlock host fuel stmts scope)).final
        { m with calls := m.calls + 1 }).calls) ∧
    (∀ m, Session host m →
      m.counters = ⟨0, 0⟩ ∧ host.maxDepth - m.depth = host.maxDepth ∧
      ∀ step, Everywhere host (fun _ => Machine.WithinLimit host) (·.perform step) m) := by
  refine ⟨fun fuel scope m => ⟨?_, ?_, ?_⟩, fun fuel stmts scope pos m => ⟨?_, ?_⟩, fun m hm => ?_⟩
  · exact fun e => counters_evaluate host fuel e scope m
  · exact fun s => counters_execute host fuel s scope m
  · exact fun stmts => counters_executeBlock host fuel stmts scope m
  · have hcounters := counters_executeBlock host fuel stmts scope m.enterBlock
    have hdepth := congrArg Counters.depth hcounters
    exact Nat.lt_of_lt_of_eq (Nat.succ_pos m.depth) hdepth.symm
  · have hcounters := counters_deeper host fuel stmts scope pos { m with calls := m.calls + 1 }
    have hcalls := congrArg Counters.calls hcounters
    exact Nat.lt_of_lt_of_eq (Nat.succ_pos m.calls) hcalls.symm
  · have hzero := hm.counters_eq
    have hdepth : m.depth = 0 := congrArg Counters.depth hzero
    have hcalls : m.calls = 0 := congrArg Counters.calls hzero
    refine ⟨hzero, by rw [hdepth, Nat.sub_zero],
      fun step => withinLimit_everywhere (fun _ _ h => h) step ?_⟩
    rw [Machine.WithinLimit, hcalls, hdepth]
    exact ⟨Nat.le_refl 0, Nat.zero_le _⟩

/-- After a function that called itself up to the limit of three, the counters
are zero and the same step keeps within the limit once more. -/
theorem counters_survive_at_limit :
    let p : Position := ⟨1, 1⟩
    let host := Host.standard.withLimit 3
    let endless : SessionStep :=
      .program [.function "f" [] [.expression (.call "f" [] p)] p, .expression (.call "f" [] p)]
    let m := (endless.run host 20).final (.fresh .unlimited)
    AtLimit (endless.run host 20 (.fresh .unlimited)) ∧ Session host m ∧
      m.counters = ⟨0, 0⟩ ∧ host.maxDepth - m.depth = host.maxDepth ∧
      Everywhere host (fun _ => Machine.WithinLimit host) (·.perform endless) m := by
  intro p host endless m
  have hlimit : AtLimit (endless.run host 20 (.fresh .unlimited)) := ⟨_, _, rfl, trivial⟩
  have hm : Session host m := .step (.fresh .unlimited) endless 20 hlimit.finished
  obtain ⟨hzero, hbudget, hwithin⟩ := (counters_survive host).2.2 m hm
  exact ⟨hlimit, hm, hzero, hbudget, hwithin endless⟩

end Abacus
