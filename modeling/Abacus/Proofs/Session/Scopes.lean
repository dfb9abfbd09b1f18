import Abacus.Proofs.Session.History

/-!
# Abacus.Proofs.Session.Scopes

The scopes of a session form a forest whose height is bounded by the text of what
the session ran: one for the outermost scope, one for each of the blocks inside
of one another and one for each of the aggregates inside of one another
(`scopes_form_forest`).  How deep calls are nested does not enter, since the
scope of a call is inside that of the function's definition and not inside that
of the caller.
-/

namespace Abacus

/-- The height that scopes may reach in a session that took the steps. -/
def SessionStep.heightBound (steps : List SessionStep) : Nat :=
  1 + Stmt.layersAll (allStatements steps) + Stmt.foldsAll (allStatements steps)

/-- **Scopes form a forest of bounded height.**  After any number of steps the
scope around a scope was made before it, the closures that are bound anywhere are
over scopes that exist, and the way from a scope to its root is no longer than one
more than the blocks and the aggregates that are inside of one another in what was
run, so every name is looked up in as many steps.  The same holds at every node
that a further step comes by, with what that step runs included.

The law is about hosts that make no closures (`Host.Closureless`): a closure that a host
made could be over any scope, and its body could be higher than the sources. -/
theorem scopes_form_forest {host : Host} (hhost : host.Closureless) {steps : List SessionStep}
    {m : Machine} (hm : History host steps m) :
    m.heap.Forest (SessionStep.heightBound steps) ∧
      ∀ step, Everywhere host
        (fun _ m' => m'.heap.Forest (SessionStep.heightBound (steps ++ [step])))
        (·.perform step) m := by
  constructor
  · exact (hm.idle hhost (Shape.le_refl _)).heap.forest
  · intro step
    exact hm.everywhere hhost (Shape.le_refl _) fun _ m' hm' => hm'.heap.forest

/-- A function that calls itself until it meets the limit of three leaves five
scopes behind, none of them higher than two; two blocks around another call of it
make that three. -/
theorem scopes_form_forest_recursion :
    let p : Position := ⟨1, 1⟩
    let host := Host.standard.withLimit 3
    let call : Stmt := .expression (.call "f" [] p)
    let first : SessionStep := .program [.function "f" [] [call] p, call]
    let second : SessionStep :=
      .program [.ifThen (.boolean true) [.ifThen (.boolean true) [call] p] p]
    let m := (first.run host 12).final (.fresh .unlimited)
    AtLimit (first.run host 12 (.fresh .unlimited)) ∧ History host [first] m ∧
      m.heap.nextId = 5 ∧ m.heap.Forest 2 ∧
      Everywhere host (fun _ m' => m'.heap.Forest 3) (·.perform second) m := by
  intro p host call first second m
  have hlimit : AtLimit (first.run host 12 (.fresh .unlimited)) := ⟨_, _, rfl, trivial⟩
  have hm : History host [first] m := (History.fresh .unlimited).step first 12 hlimit.finished
  obtain ⟨hforest, heverywhere⟩ := scopes_form_forest (Host.closureless_of_standard rfl rfl) hm
  exact ⟨hlimit, hm, rfl, hforest, heverywhere second⟩

end Abacus
