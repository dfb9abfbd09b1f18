import Abacus.Proofs.Session.Step

/-!
# Abacus.Proofs.Session.Limit

The limit on nesting only cuts runs short.  Two hosts that differ in their
limits run in lockstep until the lower limit is reached: a step that ends with
the lower limit in any other way ends so with the higher one, on the same
machine, and a step that reaches the higher limit reaches the lower one.
-/

namespace Abacus

/-- The host with another limit on nested blocks and calls. -/
def Host.withLimit (host : Host) (limit : Nat) : Host := { host with maxDepth := limit }

/-- A result that stops at the limit on nesting. -/
def AtLimit {α : Type} (r : EStateM.Result Stop Machine α) : Prop :=
  ∃ e m, r = .error e m ∧ e.IsRecursionLimit

/-- The mirror in which the first run may reach its limit. -/
def Mirror.limit : Mirror := ⟨fun _ => True, Stop.IsRecursionLimit, False⟩

theorem Mirror.suits_limit (host : Host) {low high : Nat} (h : low ≤ high) :
    Mirror.limit.Suits (host.withLimit low) (host.withLimit high) :=
  ⟨rfl, rfl, h, .inr fun _ => id, fun _ _ _ => trivial, fun _ _ _ => trivial⟩

/-- With the same fuel, the lower limit is reached or both limits give the same
result. -/
theorem atLimit_or_run_eq (host : Host) {low high : Nat} (h : low ≤ high) (step : SessionStep)
    (fuel : Nat) (m : Machine) :
    AtLimit (step.run (host.withLimit low) fuel m) ∨
      step.run (host.withLimit low) fuel m = step.run (host.withLimit high) fuel m := by
  have hsuits := Mirror.suits_limit host h
  have hfollows := Mirror.follows_perform hsuits (hsuits.paired_ofFuel fuel) m.counters step
    fun _ _ hc => hc.elim
  rw [SessionStep.run_eq_perform, SessionStep.run_eq_perform]
  obtain hlimit | ⟨heq, _⟩ := Mirror.lockstep hfollows trivial fun _ _ _ => Mirror.eq_of_rel_value
  · exact .inl hlimit
  · exact .inr heq

theorem AtLimit.finished {α : Type} {r : EStateM.Result Stop Machine α} (h : AtLimit r) :
    Finished r := by
  rintro m rfl
  obtain ⟨e, m', heq, he⟩ := h
  cases heq
  exact he

/-- **The limit only cuts.**  A step that ends with the lower limit, and not at
that limit, ends with the higher limit in the same result: the same value or
error and the same machine.  A step that ends at the higher limit ends at the
lower one. -/
theorem limit_only_cuts (host : Host) {low high : Nat} (h : low ≤ high) (step : SessionStep)
    (m : Machine) :
    (∀ r, Ends (fun fuel => step.run (host.withLimit low) fuel) m r → ¬ AtLimit r →
      Ends (fun fuel => step.run (host.withLimit high) fuel) m r) ∧
    (∀ r, Ends (fun fuel => step.run (host.withLimit high) fuel) m r → AtLimit r →
      ∃ r', Ends (fun fuel => step.run (host.withLimit low) fuel) m r' ∧ AtLimit r') := by
  constructor
  · rintro _ ⟨fuel, rfl, hfinished⟩ hnot
    obtain hlimit | heq := atLimit_or_run_eq host h step fuel m
    · exact absurd hlimit hnot
    · exact ⟨fuel, heq.symm, hfinished⟩
  · rintro _ ⟨fuel, rfl, hfinished⟩ hlimit
    have hlow : AtLimit (step.run (host.withLimit low) fuel m) := by
      obtain hlow | heq := atLimit_or_run_eq host h step fuel m
      · exact hlow
      · rw [heq]
        exact hlimit
    exact ⟨_, ⟨fuel, rfl, hlow.finished⟩, hlow⟩

/-- A block ends well within the limit of two, so it does with three; a function
that calls itself for ever reaches the limit of three blocks and calls, so it
reaches the limit of two. -/
theorem limit_only_cuts_two_and_three :
    let p : Position := ⟨1, 1⟩
    let block : SessionStep :=
      .program [.ifThen (.boolean true) [.assign "x" (.string "a") p] p]
    let endless : SessionStep :=
      .program [.function "f" [] [.expression (.call "f" [] p)] p, .expression (.call "f" [] p)]
    let m : Machine := .fresh .unlimited
    let low := Host.standard.withLimit 2
    let high := Host.standard.withLimit 3
    2 ≤ 3 ∧ ¬ AtLimit (block.run low 20 m) ∧
      Ends (fun fuel => block.run high fuel) m (block.run low 20 m) ∧
      AtLimit (endless.run high 20 m) ∧
      ∃ r, Ends (fun fuel => endless.run low fuel) m r ∧ AtLimit r := by
  intro p block endless m low high
  have hblock : ∃ m', block.run low 20 m = .ok none m' := ⟨_, rfl⟩
  have hnot : ¬ AtLimit (block.run low 20 m) := by
    rintro ⟨e, m', heq, _⟩
    contradiction
  have hends : Ends (fun fuel => block.run low fuel) m (block.run low 20 m) := by
    obtain ⟨m', heq⟩ := hblock
    refine ⟨20, rfl, ?_⟩
    rw [heq]
    intro _ h
    contradiction
  have hlimit : AtLimit (endless.run high 20 m) := ⟨_, _, rfl, trivial⟩
  have hcuts := limit_only_cuts Host.standard (show 2 ≤ 3 by decide)
  exact ⟨by decide, hnot, (hcuts block m).1 _ hends hnot, hlimit,
    (hcuts endless m).2 _ ⟨20, rfl, hlimit.finished⟩ hlimit⟩

end Abacus
