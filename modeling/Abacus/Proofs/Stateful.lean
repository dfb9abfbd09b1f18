/-!
# Abacus.Proofs.Stateful

Computations on a state that may stop.  Runs and parsers are both of this form;
the lemmas here say what one computation after another does, given what the
first one does.
-/

namespace Abacus

namespace Stateful

variable {ε σ α β : Type} {x : EStateM ε σ α} {s s' : σ}

/-- After a value the second computation goes on from the state that was left. -/
theorem bind_of_ok {a : α} (f : α → EStateM ε σ β) (h : x s = .ok a s') :
    (x >>= f) s = f a s' := by
  show EStateM.bind x f s = f a s'
  rw [EStateM.bind, h]

/-- After a stop the second computation is left out. -/
theorem bind_of_error {e : ε} (f : α → EStateM ε σ β) (h : x s = .error e s') :
    (x >>= f) s = .error e s' := by
  show EStateM.bind x f s = .error e s'
  rw [EStateM.bind, h]

/-- Two computations that give a value do so one after the other. -/
theorem bind_eq_ok {f : α → EStateM ε σ β} {b : β} (h : (x >>= f) s = .ok b s') :
    ∃ a t, x s = .ok a t ∧ f a t = .ok b s' := by
  cases hx : x s with
  | ok a t =>
      rw [bind_of_ok f hx] at h
      exact ⟨a, t, rfl, h⟩
  | error e t =>
      rw [bind_of_error f hx] at h
      contradiction

/-- Of two computations one after the other, the first stops, or it gives a value
and the second stops. -/
theorem bind_eq_error {f : α → EStateM ε σ β} {e : ε} (h : (x >>= f) s = .error e s') :
    x s = .error e s' ∨ ∃ a t, x s = .ok a t ∧ f a t = .error e s' := by
  cases hx : x s with
  | ok a t =>
      rw [bind_of_ok f hx] at h
      exact .inr ⟨a, t, rfl, h⟩
  | error e' t =>
      rw [bind_of_error f hx] at h
      cases h
      exact .inl rfl

/-- Of the first computation only its result is seen. -/
theorem bind_of_eq {y : EStateM ε σ α} (f : α → EStateM ε σ β) (h : x s = y s') :
    (x >>= f) s = (y >>= f) s' := by
  show EStateM.bind x f s = EStateM.bind y f s'
  rw [EStateM.bind, EStateM.bind, h]

/-- Leaving a value out is going on without it. -/
theorem discard_eq (x : EStateM ε σ α) :
    Functor.discard x = x >>= fun _ => (pure PUnit.unit : EStateM ε σ PUnit) := by
  rw [bind_pure_comp]
  rfl

/-- A discarded value is not seen by what comes next. -/
theorem discard_bind (x : EStateM ε σ α) (f : PUnit → EStateM ε σ β) :
    Functor.discard x >>= f = x >>= fun _ => f PUnit.unit := by
  rw [discard_eq, bind_assoc]
  simp only [pure_bind]

end Stateful

end Abacus
