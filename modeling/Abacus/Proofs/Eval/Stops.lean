import Abacus.Proofs.Eval.Recoding

/-!
# Abacus.Proofs.Eval.Stops

How runs stop.  An error of a source text is found before anything is run, so no
run of a program stops with one (`not_isStatic_of_execute`).  The recoding is that
of a program as itself, in which only the other stops stand for themselves.
-/

namespace Abacus

/-- The errors of a source text. -/
def Stop.IsStatic : Stop → Prop
  | .failed e => e.isStatic = true
  | .exhausted => False

namespace Recoding

/-- A program as itself, which stops with no error of a source text. -/
def self : Recoding where
  code := Eq
  place _ := Eq
  expr := Eq
  stmt := Eq
  stop e e' := e = e' ∧ ¬ e.IsStatic

theorem respects_self (host : Host) : self.Respects host where
  expr_congruent := by
    rintro e _ rfl
    exact .refl (fun _ _ => rfl) (fun _ => rfl) e
  stmt_congruent := by
    rintro s _ rfl
    exact .refl (fun _ _ => rfl) (fun _ => rfl) (fun _ => rfl) fun b _ =>
      List.forall₂_same.mpr fun _ _ => rfl
  stmts_of_code := by
    rintro b _ rfl
    exact List.forall₂_same.mpr fun _ _ => rfl
  registry name := Value.rel_alike_same _
  foreign := by
    intro args args' name hargs
    have heq : args = args' := List.forall₂_eq_eq_eq ▸ hargs.imp fun _ _ => Value.alike_same_iff.mp
    rw [heq]
    exact .refl _
  limit := by
    rintro site p _ n rfl
    exact ⟨rfl, Bool.false_ne_true⟩
  stray := by
    rintro v v' p p' hgive
    cases hgive
    exact ⟨rfl, Bool.false_ne_true⟩
  fault := by
    rintro site f p _ _ rfl
    exact ⟨rfl, Bool.false_ne_true⟩
  io _ := ⟨rfl, Bool.false_ne_true⟩

end Recoding

/-- Executing a statement stops with no error of a source text. -/
theorem not_isStatic_of_execute {host : Host} {fuel : Nat} {s : Stmt} {scope : FrameId}
    {m m' : Machine} {e : Stop} (h : execute host fuel s scope m = .error e m') :
    ¬ e.IsStatic := by
  have hself := (Recoding.respects_self host).paired_ofFuel ⟨rfl, id⟩ fuel
  have hm : m.Alike Recoding.self.likeness m :=
    m.alike_self ⟨fun _ _ h => h, fun _ _ h => h, fun _ _ h => h⟩
  exact (Recoding.stop_of_follows (hself.exec rfl rfl) hm h).2

end Abacus
