import Abacus.Proofs.Eval.Fuel

/-!
# Abacus.Proofs.Eval.Visit

What a run comes by.  A `Visit` is a node that is about to be evaluated or
executed, with the scope it is in.  `Recursion.heralded` evaluates as usual, but
does something before every node; if that something is to look at the machine
and to stop with an alarm where a condition fails, then the run gives the same
result as the plain run, for every alarm, exactly if the condition held at every
node, at whatever depth of blocks, calls and aggregates: nothing in a run catches
a stop.  This is `Everywhere`.

To show it, one pairs the plain run with the one that checks, and carries an
invariant from which the condition follows (`Suits.paired_heralded` for conditions
on the counters).
-/

namespace Abacus

/-- A node that is about to be evaluated or executed, and the scope it is in. -/
inductive Visit where
  | expression (e : Expr) (scope : FrameId)
  | statement (s : Stmt) (scope : FrameId)

/-- Evaluation and execution that do something before every node. -/
def Recursion.heralded (host : Host) (before : Visit → Run Unit) : Nat → Recursion
  | 0 => ⟨fun _ _ => Run.exhausted, fun _ _ => Run.exhausted⟩
  | fuel + 1 =>
    ⟨fun e scope => do
        before (.expression e scope)
        Recursion.evalStep host (heralded host before fuel) e scope,
      fun s scope => do
        before (.statement s scope)
        Recursion.execStep host (heralded host before fuel) s scope⟩

/-- To do nothing before a node is to evaluate as usual. -/
theorem Recursion.heralded_pure (host : Host) (fuel : Nat) :
    heralded host (fun _ => pure ()) fuel = ofFuel host fuel := by
  induction fuel with
  | zero => rfl
  | succ fuel ih =>
      rw [heralded, ih]
      simp only [pure_bind]
      rfl

/-- Stop with the alarm unless the condition holds of the machine. -/
def Run.check (ok : Machine → Prop) [DecidablePred ok] (alarm : Stop) : Run Unit := fun m =>
  if ok m then .ok () m else .error alarm m

section check

variable {host : Host} {ok : Visit → Machine → Prop} [∀ v, DecidablePred (ok v)] {m : Machine}

/-- A check that holds does nothing. -/
theorem Run.check_bind {α : Type} {ok : Machine → Prop} [DecidablePred ok] (h : ok m)
    (alarm : Stop) (x : Run α) : (Run.check ok alarm >>= fun _ => x) m = x m := by
  have hcheck : Run.check ok alarm m = .ok () m := if_pos h
  exact Stateful.bind_of_ok (fun _ => x) hcheck

/-- An expression at which the condition holds is evaluated as usual, the nodes below
it being checked. -/
theorem Recursion.checked_eval {e : Expr} {scope : FrameId} (h : ok (.expression e scope) m)
    (alarm : Stop) (fuel : Nat) :
    (heralded host (fun v => Run.check (ok v) alarm) (fuel + 1)).eval e scope m =
      evalStep host (heralded host (fun v => Run.check (ok v) alarm) fuel) e scope m :=
  Run.check_bind h alarm _

/-- A statement at which the condition holds is executed as usual, the nodes below it
being checked. -/
theorem Recursion.checked_exec {s : Stmt} {scope : FrameId} (h : ok (.statement s scope) m)
    (alarm : Stop) (fuel : Nat) :
    (heralded host (fun v => Run.check (ok v) alarm) (fuel + 1)).exec s scope m =
      execStep host (heralded host (fun v => Run.check (ok v) alarm) fuel) s scope m :=
  Run.check_bind h alarm _

end check

/-- The condition holds of every node that the given run comes by and of the
machine at that point, with any fuel. -/
def Everywhere {α : Type} (host : Host) (ok : Visit → Machine → Prop) (x : Recursion → Run α)
    (m : Machine) : Prop :=
  ∀ (_ : ∀ v, DecidablePred (ok v)) fuel alarm,
    x (.heralded host (fun v => Run.check (ok v) alarm) fuel) m = x (.ofFuel host fuel) m

/-- A statement that is executed where the condition fails raises the alarm. -/
theorem not_everywhere_exec {host : Host} {ok : Visit → Machine → Prop} {s : Stmt}
    {scope : FrameId} {m : Machine} (h : ¬ ok (.statement s scope) m) :
    ¬ Everywhere host ok (fun self => self.exec s scope) m := by
  intro heverywhere
  have dec : ∀ v, DecidablePred (ok v) := fun v => Classical.decPred _
  have halarm : ∀ alarm, (Recursion.ofFuel host 1).exec s scope m = .error alarm m := by
    intro alarm
    have hcheck : Run.check (ok (.statement s scope)) alarm m = .error alarm m := if_neg h
    exact (heverywhere dec 1 alarm).symm.trans (Stateful.bind_of_error _ hcheck)
  -- the plain run does not stop with two alarms
  have heq := (halarm .exhausted).symm.trans (halarm (.failed (.io .sinkFull)))
  cases heq

namespace Mirror

variable {S : Mirror} {host : Host} {ok : Visit → Machine → Prop} [∀ v, DecidablePred (ok v)]

/-- Runs that check a condition before every node stand for plain ones, if the
condition follows from what the counters keep to. -/
theorem Suits.paired_heralded (h : S.Suits host host)
    (hok : ∀ v m, S.keeps m.counters → ok v m) (alarm : Stop) (fuel : Nat) :
    S.pairing.Paired (.ofFuel host fuel)
      (.heralded host (fun v => Run.check (ok v) alarm) fuel) := by
  induction fuel with
  | zero =>
      constructor
      · exact fun _ _ _ _ hm => .error rfl hm ⟨rfl, fun _ => id⟩
      · exact fun _ _ _ _ hm => .error rfl hm ⟨rfl, fun _ => id⟩
  | succ fuel ih =>
      constructor
      · intro c e e' s s' he hs m m' hm
        have hstep := ih.evalStep h.lawful he hs m m' hm
        obtain ⟨rfl, rfl, hkeeps⟩ := hm
        rw [Recursion.checked_eval (hok _ m hkeeps)]
        exact hstep
      · intro c t t' s s' ht hs m m' hm
        have hstep := ih.execStep h.lawful ht hs m m' hm
        obtain ⟨rfl, rfl, hkeeps⟩ := hm
        rw [Recursion.checked_exec (hok _ m hkeeps)]
        exact hstep

end Mirror

end Abacus
