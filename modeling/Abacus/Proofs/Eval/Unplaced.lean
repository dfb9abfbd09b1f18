import Abacus.Proofs.Eval.Recoding
import Abacus.Proofs.Parse.Unplaced

/-!
# Abacus.Proofs.Eval.Unplaced

Runs do not look at places.  Values are alike up to places if their closures have
bodies that are equal once unplaced; machines, if their scopes bind the same names
to such values and all else is equal.  The pairing of such machines relates the
run of a program to that of the same program in another layout: equal output,
values and scopes that are alike up to places, or the same error up to its place.
-/

namespace Abacus

/-! ## Trees up to places -/

theorem forall₂_of_map_eq {α β : Type} {f : α → β} {as as' : List α}
    (h : as.map f = as'.map f) : List.Forall₂ (fun a a' => f a = f a') as as' := by
  rw [← List.forall₂_map_right_iff, ← List.forall₂_map_left_iff (R := (· = ·)),
    List.forall₂_eq_eq_eq, h]

/-- Expressions that are equal once unplaced have one form and such parts. -/
theorem Expr.congruent_of_unplaced {e e' : Expr} (h : e.unplaced = e'.unplaced) :
    e.Congruent (fun _ _ _ => True) (fun a a' => a.unplaced = a'.unplaced) e' := by
  cases e with
  | number n =>
      cases e' with
      | number n' =>
          cases h
          exact .number n
      | _ => cases h
  | string s =>
      cases e' with
      | string s' =>
          cases h
          exact .string s
      | _ => cases h
  | boolean b =>
      cases e' with
      | boolean b' =>
          cases h
          exact .boolean b
      | _ => cases h
  | «variable» name p =>
      cases e' with
      | «variable» name' p' =>
          cases h
          exact .variable name trivial
      | _ => cases h
  | binary op l r p =>
      cases e' with
      | binary op' l' r' p' =>
          injection h with hop hl hr
          subst hop
          exact .binary op hl hr trivial
      | _ => cases h
  | unary op a p =>
      cases e' with
      | unary op' a' p' =>
          injection h with hop ha
          subst hop
          exact .unary op ha trivial
      | _ => cases h
  | call name args p =>
      cases e' with
      | call name' args' p' =>
          rw [unplaced_call, unplaced_call] at h
          injection h with hname hargs
          subst hname
          exact .call name (forall₂_of_map_eq hargs) trivial
      | _ => cases h
  | aggregate kind var a z b p =>
      cases e' with
      | aggregate kind' var' a' z' b' p' =>
          injection h with hkind hvar ha hz hb
          subst hkind hvar
          exact .aggregate kind var ha hz hb trivial
      | _ => cases h

/-- Statements that are equal once unplaced have one form and such parts. -/
theorem Stmt.congruent_of_unplaced {s s' : Stmt} (h : s.unplaced = s'.unplaced) :
    s.Congruent (fun _ _ _ => True) (fun a a' => a.unplaced = a'.unplaced)
      (List.Forall₂ fun t t' => t.unplaced = t'.unplaced)
      (fun b b' => b.map Stmt.unplaced = b'.map Stmt.unplaced) s' := by
  cases s with
  | expression e =>
      cases s' with
      | expression e' =>
          injection h with he
          exact .expression he
      | _ => cases h
  | assign name e p =>
      cases s' with
      | assign name' e' p' =>
          injection h with hname he
          subst hname
          exact .assign name he
      | _ => cases h
  | ifThen c b p =>
      cases s' with
      | ifThen c' b' p' =>
          rw [unplaced_ifThen, unplaced_ifThen] at h
          injection h with hc hb
          exact .ifThen hc (forall₂_of_map_eq hb) trivial
      | _ => cases h
  | ifElse c b o p =>
      cases s' with
      | ifElse c' b' o' p' =>
          rw [unplaced_ifElse, unplaced_ifElse] at h
          injection h with hc hb ho
          exact .ifElse hc (forall₂_of_map_eq hb) (forall₂_of_map_eq ho) trivial
      | _ => cases h
  | whileLoop c b p =>
      cases s' with
      | whileLoop c' b' p' =>
          rw [unplaced_whileLoop, unplaced_whileLoop] at h
          injection h with hc hb
          exact .whileLoop hc (forall₂_of_map_eq hb) trivial
      | _ => cases h
  | forLoop var e b p =>
      cases s' with
      | forLoop var' e' b' p' =>
          rw [unplaced_forLoop, unplaced_forLoop] at h
          injection h with hvar he hb
          subst hvar
          exact .forLoop var he (forall₂_of_map_eq hb) trivial
      | _ => cases h
  | function name params b p =>
      cases s' with
      | function name' params' b' p' =>
          rw [unplaced_function, unplaced_function] at h
          injection h with hname hparams hb
          subst hname hparams
          exact .function name params hb
      | _ => cases h
  | giveBack e p =>
      cases s' with
      | giveBack e' p' =>
          rw [unplaced_giveBack, unplaced_giveBack] at h
          injection h with he
          refine .giveBack ?_ trivial
          cases e with
          | none =>
              cases e' with
              | none => exact .none
              | some a' => cases he
          | some a =>
              cases e' with
              | none => cases he
              | some a' => exact .some (Option.some.inj he)
      | _ => cases h

/-! ## Values and machines up to places -/

/-- Closures that differ at most in the places inside their bodies. -/
def Likeness.unplaced : Likeness :=
  ⟨Eq, Eq, fun b b' => b.map Stmt.unplaced = b'.map Stmt.unplaced⟩

/-- Identities are told apart as they are. -/
theorem Likeness.faithful_unplaced : Likeness.unplaced.Faithful := by
  rintro i j i' j' rfl rfl
  exact Iff.rfl

/-- Code stands for itself up to places. -/
theorem Likeness.same_le_unplaced : Likeness.same.Le .unplaced := by
  refine ⟨fun _ _ h => h, fun _ _ h => h, fun b b' h => ?_⟩
  rw [show b = b' from h]
  rfl

theorem Machine.Alike.refl (m : Machine) : m.Alike .unplaced m :=
  m.alike_self Likeness.same_le_unplaced

/-! ## The pairing -/

/-- The error with its place at the start. -/
def Error.unplaced : Error → Error
  | source e => source e.unplaced
  | runtime fault _ => runtime fault .first
  | io e => io e

/-- The reason to stop with its place at the start. -/
def Stop.unplaced : Stop → Stop
  | failed e => failed e.unplaced
  | exhausted => exhausted

/-- Programs that are the same up to places. -/
def Recoding.unplaced : Recoding where
  code b b' := b.map Stmt.unplaced = b'.map Stmt.unplaced
  place _ _ _ := True
  expr e e' := e.unplaced = e'.unplaced
  stmt s s' := s.unplaced = s'.unplaced
  stop e e' := e.unplaced = e'.unplaced

/-- The pairing of machines that are the same up to places. -/
def Unplaced.pairing : Pairing := Recoding.unplaced.pairing

/-- A host whose own builtins do not look at the places inside of functions: on
arguments that differ at most there, they write the same and answer alike.  Nothing is
asked of the registry, whose entries are alike in themselves. -/
def Host.IgnoresPlaces (host : Host) : Prop :=
  ∀ name args args', List.Forall₂ (Value.Alike .unplaced) args args' →
    Reply.Alike .unplaced (host.foreign name args) (host.foreign name args')

/-- On a host that ignores places, every node respects code up to places. -/
theorem Recoding.respects_unplaced {host : Host} (hhost : host.IgnoresPlaces) :
    Recoding.unplaced.Respects host where
  expr_congruent h := Expr.congruent_of_unplaced h
  stmt_congruent h := Stmt.congruent_of_unplaced h
  stmts_of_code h := forall₂_of_map_eq h
  registry name := by
    cases Bindings.lookup name host.registry with
    | none => exact .none
    | some v => exact .some ((Value.Alike.refl v).mono Likeness.same_le_unplaced)
  foreign name hargs := hhost name _ _ hargs
  limit _ _ := rfl
  stray _ := rfl
  fault _ _ := rfl
  io _ := rfl

/-- The primitive runs of such a host do not look at places. -/
theorem Unplaced.lawful {host : Host} (hhost : host.IgnoresPlaces) :
    Unplaced.pairing.Lawful host host :=
  (Recoding.respects_unplaced hhost).lawful

/-- Runs with the same fuel stand for each other up to places. -/
theorem Unplaced.paired_ofFuel {host : Host} (hhost : host.IgnoresPlaces) (fuel : Nat) :
    Unplaced.pairing.Paired (.ofFuel host fuel) (.ofFuel host fuel) :=
  (Unplaced.lawful hhost).paired_ofFuel rfl fuel

end Abacus
