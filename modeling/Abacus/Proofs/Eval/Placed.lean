import Abacus.Proofs.Eval.Recoding
import Abacus.Proofs.Eval.Renaming
import Abacus.Proofs.Parse.Placed
import Abacus.Proofs.Session.Step

/-!
# Abacus.Proofs.Eval.Placed

Where running programs meet their faults.  The recoding is that of a placed program
as itself: everything a scope may hold of it is placed, the bodies of its closures
included, so a fault is met at a site that admits it, whatever call led there
(`placed_of_runWhole`).
-/

namespace Abacus

/-- The faults that may be met at a site, those of the control of a run included. -/
inductive Raised : Site → RuntimeFault → Prop
  | met {site : Site} {fault : RuntimeFault} (h : MetAt site fault) : Raised site fault
  | recursionLimit (site : Site) (limit : Nat) : Raised site (.recursionLimit limit)
  | returnOutsideFunction : Raised (.keyword .returnKw) .returnOutsideFunction

/-- The stop of a run is a fault at a site that admits it, or it is not about the
program. -/
inductive Stop.Placed (stands : Site → Position → Prop) : Stop → Prop
  | runtime {site : Site} {fault : RuntimeFault} {p : Position} (h : Raised site fault)
      (hp : stands site p) : Placed stands (.failed (.runtime fault p))
  | io (e : IoError) : Placed stands (.failed (.io e))
  | exhausted : Placed stands .exhausted

section congruent

variable {stands : Site → Position → Prop}

/-- An expression in its places is made of expressions in theirs. -/
theorem Expr.Placed.congruent {e : Expr} (h : e.Placed stands) :
    e.Congruent (fun site p p' => p = p' ∧ stands site p)
      (fun a a' => a = a' ∧ a.Placed stands) e := by
  cases h with
  | number n => exact .number n
  | string s => exact .string s
  | boolean b => exact .boolean b
  | «variable» hp => exact .variable _ ⟨rfl, hp⟩
  | binary hl hr hp => exact .binary _ ⟨rfl, hl⟩ ⟨rfl, hr⟩ ⟨rfl, hp⟩
  | unary ha hp => exact .unary _ ⟨rfl, ha⟩ ⟨rfl, hp⟩
  | call hargs hp =>
      exact .call _ (List.forall₂_same.mpr fun a ha => ⟨rfl, hargs a ha⟩) ⟨rfl, hp⟩
  | aggregate ha hz hb hp => exact .aggregate _ _ ⟨rfl, ha⟩ ⟨rfl, hz⟩ ⟨rfl, hb⟩ ⟨rfl, hp⟩

theorem Stmt.forall₂_placed {b : List Stmt} (h : ∀ s ∈ b, s.Placed stands) :
    List.Forall₂ (fun s s' => s = s' ∧ s.Placed stands) b b :=
  List.forall₂_same.mpr fun s hs => ⟨rfl, h s hs⟩

/-- A statement in its places is made of statements and expressions in theirs. -/
theorem Stmt.Placed.congruent {s : Stmt} (h : s.Placed stands) :
    s.Congruent (fun site p p' => p = p' ∧ stands site p)
      (fun a a' => a = a' ∧ a.Placed stands)
      (List.Forall₂ fun s s' => s = s' ∧ s.Placed stands)
      (fun b b' => b = b' ∧ ∀ s ∈ b, s.Placed stands) s := by
  cases h with
  | expression he => exact .expression ⟨rfl, he⟩
  | assign he => exact .assign _ ⟨rfl, he⟩
  | ifThen hc hb hp => exact .ifThen ⟨rfl, hc⟩ (forall₂_placed hb) ⟨rfl, hp⟩
  | ifElse hc hb ho hp =>
      exact .ifElse ⟨rfl, hc⟩ (forall₂_placed hb) (forall₂_placed ho) ⟨rfl, hp⟩
  | whileLoop hc hb hp => exact .whileLoop ⟨rfl, hc⟩ (forall₂_placed hb) ⟨rfl, hp⟩
  | forLoop he hb hp => exact .forLoop _ ⟨rfl, he⟩ (forall₂_placed hb) ⟨rfl, hp⟩
  | function hb => exact .function _ _ ⟨rfl, hb⟩
  | @giveBack e _ he hp =>
      refine .giveBack ?_ ⟨rfl, hp⟩
      cases e with
      | none => exact .none
      | some a => exact .some ⟨rfl, he a rfl⟩

end congruent

/-! ## The recoding -/

namespace Recoding

/-- A placed program as itself. -/
def placed (stands : Site → Position → Prop) : Recoding where
  code b b' := b = b' ∧ ∀ s ∈ b, s.Placed stands
  place site p p' := p = p' ∧ stands site p
  expr e e' := e = e' ∧ e.Placed stands
  stmt s s' := s = s' ∧ s.Placed stands
  stop e e' := e = e' ∧ e.Placed stands

/-- On a host that does not see how closures are kept, nodes in their places respect them. -/
theorem respects_placed {host : Host} (hhost : host.Blind) (stands : Site → Position → Prop) :
    (placed stands).Respects host where
  expr_congruent := by
    rintro e _ ⟨rfl, he⟩
    exact he.congruent
  stmt_congruent := by
    rintro s _ ⟨rfl, hs⟩
    exact hs.congruent
  stmts_of_code := by
    rintro b _ ⟨rfl, hb⟩
    exact Stmt.forall₂_placed hb
  registry := hhost.registry _
  foreign name hargs := hhost.foreign _ name _ _ (faithful_likeness _) hargs
  limit := by
    rintro site p _ n ⟨rfl, hp⟩
    exact ⟨rfl, .runtime (.recursionLimit site n) hp⟩
  stray := by
    rintro v v' p p' ⟨heq, hs⟩
    cases heq
    cases hs with
    | giveBack _ hp => exact ⟨rfl, .runtime .returnOutsideFunction hp⟩
  fault := by
    rintro site f p _ hf ⟨rfl, hp⟩
    exact ⟨rfl, .runtime (.met hf) hp⟩
  io e := ⟨rfl, .io e⟩

end Recoding

/-- A fresh session holds nothing that could be told apart. -/
theorem Machine.alike_fresh (L : Likeness) (sink : Sink) :
    (Machine.fresh sink).Alike L (.fresh sink) := by
  refine ⟨⟨rfl, rfl, fun id => ⟨?_, rfl⟩⟩, rfl, rfl, rfl⟩
  have hempty : ((Machine.fresh sink).heap.frame id).bindings = [] := by
    rw [fresh, Heap.newRoot, Heap.frame_add]
    split <;> rfl
  rw [hempty]
  exact .nil

/-- A placed program in a fresh session stops at a site that admits it. -/
theorem placed_of_runWhole {host : Host} (hhost : host.Blind) {fuel : Nat}
    {stands : Site → Position → Prop} {program : List Stmt}
    (hprogram : ∀ s ∈ program, s.Placed stands) {sink : Sink} {e : Stop} {m' : Machine}
    (h : (Recursion.ofFuel host fuel).runWhole program (.fresh sink) = .error e m') :
    e.Placed stands := by
  have hR := Recoding.respects_placed hhost stands
  have hself := hR.paired_ofFuel ⟨rfl, .exhausted⟩ fuel
  have hfollows := hself.runWhole hR.lawful (w := ()) rfl (Stmt.forall₂_placed hprogram)
  exact (Recoding.stop_of_follows hfollows (Machine.alike_fresh _ sink) h).2

end Abacus
