import Abacus.Proofs.Eval.Coherence
import Abacus.Proofs.Eval.Unplaced

/-!
# Abacus.Proofs.Session.Layout

Layout does not change the meaning of a source.  The plain layout of a text has
the same tokens, is read as the same program and runs alike, up to places
(`layout_invariant`); and what it leaves behind is alike, so the same holds of
everything that is run later.
-/

namespace Abacus

/-- Two outcomes of running a source that are the same up to places: values that
are alike, or errors that differ at most in their places, on machines that are
alike.  A run that wants for fuel goes with another that does. -/
inductive RunsAlike : EStateM.Result Stop Machine (Option Value) →
    EStateM.Result Stop Machine (Option Value) → Prop
  | value {v v' : Option Value} {m m' : Machine} (hm : m.Alike .unplaced m')
      (hv : Option.Rel (Value.Alike .unplaced) v v') : RunsAlike (.ok v m) (.ok v' m')
  | error {e e' : Error} {m m' : Machine} (hm : m.Alike .unplaced m')
      (he : e.unplaced = e'.unplaced) : RunsAlike (.error (.failed e) m) (.error (.failed e') m')
  | exhausted {m m' : Machine} (hm : m.Alike .unplaced m') :
      RunsAlike (.error .exhausted m) (.error .exhausted m')

theorem runsAlike_of_agrees {r r' : EStateM.Result Stop Machine (Option Value)}
    (h : Unplaced.pairing.Agrees () (fun w => Option.Rel (Unplaced.pairing.value w)) r r') :
    RunsAlike r r' := by
  cases h with
  | ok _ hm hv => exact .value hm hv
  | @error _ e e' _ _ _ hm he =>
      cases e with
      | failed e =>
          cases e' with
          | failed e' => exact .error hm (Stop.failed.inj he)
          | exhausted => cases he
      | exhausted =>
          cases e' with
          | failed e' => cases he
          | exhausted => exact .exhausted hm
  | left he => exact he.elim
  | right he => exact he.elim

/-- Programs that are the same up to places run alike from machines that are alike. -/
theorem runsAlike_runWhole {host : Host} (hhost : host.IgnoresPlaces) {program program' : List Stmt}
    (h : program.map Stmt.unplaced = program'.map Stmt.unplaced) {m m' : Machine}
    (hm : m.Alike .unplaced m') (fuel : Nat) :
    RunsAlike ((Recursion.ofFuel host fuel).runWhole program m)
      ((Recursion.ofFuel host fuel).runWhole program' m') := by
  have hself := Unplaced.paired_ofFuel hhost fuel
  have hfollows := hself.runWhole (Unplaced.lawful hhost) (w := ()) rfl (forall₂_of_map_eq h)
  exact runsAlike_of_agrees (hfollows m m' hm)

/-- Sources that are read alike run alike from machines that are. -/
theorem runsAlike_runSource {host : Host} (hhost : host.IgnoresPlaces) {source source' : String}
    (h : ((parseSource source).map (List.map Stmt.unplaced)).mapError SourceError.unplaced =
      ((parseSource source').map (List.map Stmt.unplaced)).mapError SourceError.unplaced)
    {m m' : Machine} (hm : m.Alike .unplaced m') (fuel : Nat) :
    RunsAlike (runSource host fuel source m) (runSource host fuel source' m') := by
  rw [runSource_eq, runSource_eq]
  cases hparse : parseSource source with
  | error e =>
      cases hparse' : parseSource source' with
      | ok program' =>
          rw [hparse, hparse'] at h
          cases h
      | error e' =>
          rw [hparse, hparse'] at h
          rw [readSource_of_error hparse, readSource_of_error hparse']
          exact .error hm (congrArg Error.source (Except.error.inj h))
  | ok program =>
      cases hparse' : parseSource source' with
      | error e' =>
          rw [hparse, hparse'] at h
          cases h
      | ok program' =>
          rw [hparse, hparse'] at h
          rw [readSource_of_ok hparse, readSource_of_ok hparse', pure_bind, pure_bind]
          exact runsAlike_runWhole hhost (Except.ok.inj h) hm fuel

/-- **Layout does not change meaning.**  Let a source have tokens, and let its
plain layout be their texts with single spaces between them, the empty text of
the end of input included or not.  Then the plain layout has the same tokens, is
read as the same statements or gives the same fault, and runs alike from alike
machines, every machine being like itself: with the same output, the same
variables and the same value or error, up to places.

Tokens and statements do not depend on a host.  The runs are on a host whose own
builtins, if it has any, do not look at the places inside of the functions that they
are given; the registry is of any kind.  The standard library has no such builtins. -/
theorem layout_invariant {host : Host} (hhost : host.IgnoresPlaces) {source norm : String}
    {tokens : List Token} (htokens : tokenize source = .ok tokens)
    (hnorm : norm = spaced tokens ∨ norm = spaced tokens.dropLast) :
    (∃ tokens', tokenize norm = .ok tokens' ∧
      tokens'.map Token.unplaced = tokens.map Token.unplaced) ∧
    ((parseSource norm).map (List.map Stmt.unplaced)).mapError SourceError.unplaced =
      ((parseSource source).map (List.map Stmt.unplaced)).mapError SourceError.unplaced ∧
    (∀ m : Machine, m.Alike .unplaced m) ∧
    ∀ m m' : Machine, m.Alike .unplaced m' → ∀ fuel,
      RunsAlike (runSource host fuel norm m) (runSource host fuel source m') := by
  obtain ⟨tokens', htokens', hsame⟩ := exists_tokenize_spaced htokens hnorm
  have hread := parseSource_unplaced htokens' htokens hsame
  exact ⟨⟨tokens', htokens', hsame⟩, hread, .refl, fun m m' hm fuel =>
    runsAlike_runSource hhost hread hm fuel⟩

/-- A host that does not see how closures are kept sees no places in them. -/
theorem Host.Blind.ignoresPlaces {host : Host} (hhost : host.Blind) : host.IgnoresPlaces :=
  fun name args args' hargs =>
    hhost.foreign .unplaced name args args' Likeness.faithful_unplaced hargs

/-- A function over three lines with a comment, and a call of it: on one line with
single spaces it is the same program. -/
theorem layout_invariant_three_lines :
    let host := Host.standard
    let source := "function f(x) \x7b # the same\n  return x<=\"a b\"\n\x7d\nf(\"a\")"
    let norm := "function f ( x ) \x7b return x <= \"a b\" \x7d f ( \"a\" ) "
    host.IgnoresPlaces ∧
      (∃ tokens, tokenize source = .ok tokens ∧ norm = spaced tokens) ∧
      ((parseSource norm).map (List.map Stmt.unplaced)).mapError SourceError.unplaced =
        ((parseSource source).map (List.map Stmt.unplaced)).mapError SourceError.unplaced ∧
      ∀ fuel, RunsAlike (runSource host fuel norm (.fresh .unlimited))
        (runSource host fuel source (.fresh .unlimited)) := by
  intro host source norm
  have hhost : host.IgnoresPlaces := (Host.blind_of_standard rfl rfl).ignoresPlaces
  obtain ⟨tokens, htokens, hnorm⟩ :
      ∃ tokens, tokenize source = .ok tokens ∧ norm = spaced tokens := by
    dsimp only [source, norm]
    refine ⟨_, rfl, ?_⟩
    decide
  obtain ⟨_, hread, hrefl, hrun⟩ := layout_invariant hhost htokens (.inl hnorm)
  exact ⟨hhost, ⟨tokens, htokens, hnorm⟩, hread, hrun _ _ (hrefl _)⟩

end Abacus
