import Abacus.Eval.Evaluate
import Abacus.Proofs.Stateful
import Mathlib.Order.Defs.Unbundled

/-!
# Abacus.Proofs.Eval.Law

Laws of runs.  A law relates the machine before a run to the machine after it,
whether the run gives a value or stops; `Run.Obeys` says that a run obeys a law
from every machine.  A law that is a preorder passes from the parts of a run to
the whole (`Obeys.bind`); the lemmas after it carry a law through the sequences
and folds that the steps of evaluation are built from.
-/

namespace Abacus

namespace Run

open Stateful

variable {α β : Type}

/-! ## Machines after a run -/

/-- The machine after a run, whether it gives a value or stops. -/
def final (x : Run α) (m : Machine) : Machine :=
  match x m with
  | .ok _ m' => m'
  | .error _ m' => m'

theorem final_of_ok {x : Run α} {m m' : Machine} {a : α} (h : x m = .ok a m') :
    x.final m = m' := by
  rw [final, h]

theorem final_of_error {x : Run α} {m m' : Machine} {e : Stop} (h : x m = .error e m') :
    x.final m = m' := by
  rw [final, h]

/-! ## Laws -/

/-- The run obeys the law `R` from every machine, whatever its outcome. -/
def Obeys (R : Machine → Machine → Prop) (x : Run α) : Prop := ∀ m, R m (x.final m)

namespace Obeys

variable {R : Machine → Machine → Prop}

/-- The law holds of a run that gives a value. -/
theorem of_ok {x : Run α} (hx : x.Obeys R) {m m' : Machine} {a : α} (h : x m = .ok a m') :
    R m m' := final_of_ok h ▸ hx m

/-- The law holds of a run that stops. -/
theorem of_error {x : Run α} (hx : x.Obeys R) {m m' : Machine} {e : Stop}
    (h : x m = .error e m') : R m m' := final_of_error h ▸ hx m

/-- A law may be weakened. -/
theorem mono {S : Machine → Machine → Prop} {x : Run α} (h : x.Obeys R)
    (hRS : ∀ m m', R m m' → S m m') : x.Obeys S := fun m => hRS m _ (h m)

/-- A choice of two runs that obey. -/
theorem ite {c : Prop} [Decidable c] {x y : Run α} (hx : x.Obeys R) (hy : y.Obeys R) :
    (if c then x else y).Obeys R := by
  split
  · exact hx
  · exact hy

section preorder

variable [IsPreorder Machine R]

/-- A run that leaves the machine alone obeys every law. -/
theorem of_final_eq {x : Run α} (h : ∀ m, x.final m = m) : x.Obeys R := by
  intro m
  rw [h]
  exact refl_of R m

/-- A run that leaves the machine as it is obeys every law that is reflexive. -/
theorem pure (a : α) : Obeys R (Pure.pure a : Run α) := of_final_eq fun _ => rfl

theorem get : Obeys R (MonadState.get : Run Machine) := of_final_eq fun _ => rfl

theorem exhausted : Obeys R (Run.exhausted : Run α) := of_final_eq fun _ => rfl

theorem fail (e : Error) : Obeys R (Run.fail e : Run α) := of_final_eq fun _ => rfl

theorem fault (f : RuntimeFault) (pos : Position) : Obeys R (Run.fault f pos : Run α) := fail _

/-- A result is passed on or reported. -/
theorem ofResult (pos : Position) (r : Except RuntimeFault α) : Obeys R (Run.ofResult pos r) := by
  cases r with
  | ok a => exact pure a
  | error f => exact fault f pos

/-- Flushing leaves the machine as it is, also if it fails. -/
theorem flush : Obeys R Run.flush := by
  apply of_final_eq
  intro m
  unfold Run.final Run.flush
  cases m.sink.flushError? <;> rfl

/-- One run after another obeys what both obey. -/
theorem bind {x : Run α} {f : α → Run β} (hx : x.Obeys R) (hf : ∀ a, (f a).Obeys R) :
    (x >>= f).Obeys R := by
  intro m
  have hxm := hx m
  cases hr : x m with
  | ok a m' =>
      rw [final_of_ok hr] at hxm
      have hfm := hf a m'
      rw [final, bind_of_ok f hr, ← final]
      exact trans_of R hxm hfm
  | error e m' =>
      rw [final_of_error hr] at hxm
      rw [final_of_error (bind_of_error f hr)]
      exact hxm

/-- A value that is thrown away makes no difference. -/
theorem discard {x : Run α} (hx : x.Obeys R) : (Functor.discard x).Obeys R := by
  rw [discard_eq]
  exact hx.bind fun _ => pure _

/-! ## Sequences -/

/-- Arguments and items, by induction on their list. -/
theorem evalAll {self : Recursion} {scope : FrameId} (h : ∀ e, (self.eval e scope).Obeys R)
    (es : List Expr) : (self.evalAll scope es).Obeys R := by
  induction es with
  | nil => exact pure []
  | cons e es ih => exact (h e).bind fun v => ih.bind fun vs => pure (v :: vs)

/-- The statements of a block, by induction on their list. -/
theorem execAll {self : Recursion} {scope : FrameId} (h : ∀ s, (self.exec s scope).Obeys R)
    (stmts : List Stmt) : (self.execAll scope stmts).Obeys R := by
  induction stmts with
  | nil => exact pure Flow.normal
  | cons s rest ih =>
      refine (h s).bind fun flow => ?_
      cases flow with
      | normal => exact ih
      | returned v => exact pure (Flow.returned v)

/-- Several bindings, by induction on their list. -/
theorem defineAll {scope : FrameId} (h : ∀ name v, (Run.define scope name v).Obeys R)
    (bs : List (String × Value)) : (Run.defineAll scope bs).Obeys R := by
  induction bs with
  | nil => exact pure ()
  | cons b bs ih => exact (h b.1 b.2).bind fun _ => ih

/-- The terms of an aggregate, by induction on their number. -/
theorem foldFrom {combine : Float → Float → Float} {term : Float → Run Float}
    (h : ∀ x, (term x).Obeys R) (count : Nat) (i : Int) (total : Float) :
    (Recursion.foldFrom combine term count i total).Obeys R := by
  induction count generalizing i total with
  | zero => exact pure total
  | succ count ih => exact (h (Float.ofInt i)).bind fun x => ih (i + 1) (combine total x)

/-- An aggregate over its interval. -/
theorem total {term : Float → Run Float} (h : ∀ x, (term x).Obeys R) (kind : Aggregate)
    (start stop : Float) : (Recursion.total kind term start stop).Obeys R := by
  cases kind with
  | sum => exact foldFrom h _ _ _
  | product => exact foldFrom h _ _ _
  | integral => exact foldFrom (fun x => h _) _ _ _

end preorder

/-- Changes around a run that the law does not see may be left out. -/
theorem around {before after : Machine → Machine} {x : Run α} (hx : x.Obeys R)
    (h : ∀ m m', R (before m) m' → R m (after m')) : (Run.around before after x).Obeys R := by
  intro m
  have hxm := h m _ (hx (before m))
  have hfinal : (Run.around before after x).final m = after (x.final (before m)) := by
    unfold final Run.around
    cases x (before m) <;> rfl
  rw [hfinal]
  exact hxm

end Obeys

end Run

end Abacus
