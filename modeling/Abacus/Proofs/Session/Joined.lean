import Abacus.Proofs.Parse.Joined
import Abacus.Proofs.Session.Layout
import Abacus.Proofs.Session.Return

/-!
# Abacus.Proofs.Session.Joined

Sources submitted in parts.  A program is run part by part (`runWhole_append`), and places
further down make no difference to a run.  So two sources that are run one after the
other do what one source does that is made of both (`submission_in_parts`).
-/

namespace Abacus

variable {host : Host}

/-! ## Programs in parts -/

/-- The trailing bare expression of a program is that of its last part. -/
theorem splitLast_append_of_ne_nil (init : List Stmt) {rest : List Stmt} (h : rest ≠ []) :
    splitLast (init ++ rest) = (init ++ (splitLast rest).1, (splitLast rest).2) := by
  induction init with
  | nil => rfl
  | cons s init ih =>
      have hne : init ++ rest ≠ [] := List.append_ne_nil_of_right_ne_nil init h
      obtain ⟨t, tail, htail⟩ := List.exists_cons_of_ne_nil hne
      rw [htail] at ih
      rw [List.cons_append, htail, splitLast_cons_cons, ih, List.cons_append]

/-- A program is run by running its first part for its effects and then its last part. -/
theorem runWhole_append (fuel : Nat) (init : List Stmt) {rest : List Stmt} (h : rest ≠ []) :
    (Recursion.ofFuel host fuel).runWhole (init ++ rest) =
      runProgram host fuel init >>= fun _ => (Recursion.ofFuel host fuel).runWhole rest := by
  rw [Recursion.runWhole, splitLast_append_of_ne_nil init h, ← runProgram_eq, runProgram_append,
    bind_assoc]
  congr 1
  funext _
  rw [runProgram_eq]
  rfl

/-- A source that gives a value is one that is accepted. -/
theorem exists_parseSource_of_runSource {source : String} {fuel : Nat} {m m' : Machine}
    {v : Option Value} (h : runSource host fuel source m = .ok v m') :
    ∃ program, parseSource source = .ok program := by
  cases hparse : parseSource source with
  | ok program => exact ⟨program, rfl⟩
  | error e =>
      rw [runSource_eq, readSource_of_error hparse] at h
      cases h

/-- A program that gives a value is run for its effects with more fuel. -/
theorem runProgram_of_runWhole {program : List Stmt} {fuel fuel' : Nat} (hfuel : fuel < fuel')
    {m m' : Machine} {v : Option Value}
    (h : (Recursion.ofFuel host fuel).runWhole program m = .ok v m') :
    runProgram host fuel' program m = .ok () m' := by
  have hdiscard : (Functor.discard ((Recursion.ofFuel host fuel).runWhole program) : Run Unit) m =
      .ok () m' := by
    rw [Stateful.discard_eq, Stateful.bind_of_ok _ h]
    rfl
  have hrun : runProgram host (fuel + 1) program m = .ok () m' := by
    rw [covers_runProgram_of_runWhole fuel program m (hdiscard ▸ finished_ok () m'), hdiscard]
  rw [(steady_runProgram program).of_le hfuel (hrun ▸ finished_ok () m'), hrun]

theorem steady_runWhole (program : List Stmt) :
    Steady fun fuel => (Recursion.ofFuel host fuel).runWhole program := by
  intro fuel
  have hinit : Covers ((Recursion.ofFuel host fuel).runProgram (splitLast program).1)
      ((Recursion.ofFuel host (fuel + 1)).runProgram (splitLast program).1) := by
    rw [← runProgram_eq, ← runProgram_eq]
    exact steady_runProgram _ fuel
  refine hinit.bind fun _ => ?_
  cases (splitLast program).2 with
  | none => exact .refl _
  | some e => exact (steady_evaluate host e globals fuel).bind fun _ => .refl _

/-- Two programs that succeed one after the other succeed as one, also with the places of
the second moved. -/
theorem ends_append (hhost : host.IgnoresPlaces) (f : Position → Position)
    {program others : List Stmt} (hothers : others ≠ []) {m m₁ m₂ : Machine} {v v' : Option Value}
    (h : Ends (fun fuel => (Recursion.ofFuel host fuel).runWhole program) m (.ok v m₁))
    (h' : Ends (fun fuel => (Recursion.ofFuel host fuel).runWhole others) m₁ (.ok v' m₂)) :
    ∃ v'' m', Ends (fun fuel => (Recursion.ofFuel host fuel).runWhole
        (program ++ others.map (Stmt.relocate f))) m (.ok v'' m') ∧
      m'.Alike .unplaced m₂ ∧ Option.Rel (Value.Alike .unplaced) v'' v' := by
  obtain ⟨fuel, hrun, _⟩ := h
  obtain ⟨fuel', hrun', hfinished⟩ := h'
  let most := max (fuel + 1) fuel'
  have hprogram : runProgram host most program m = .ok () m₁ :=
    runProgram_of_runWhole (Nat.le_max_left _ _) hrun
  have hlater : (Recursion.ofFuel host most).runWhole others m₁ = .ok v' m₂ := by
    rw [← hrun'] at hfinished ⊢
    exact (steady_runWhole others).of_le (Nat.le_max_right _ _) hfinished
  have halike := runsAlike_runWhole hhost (Stmt.map_unplaced_relocate f others) (.refl m₁) most
  rw [hlater] at halike
  generalize hmoved : (Recursion.ofFuel host most).runWhole _ m₁ = r at halike
  cases halike with
  | @value v'' _ m' _ hm hv =>
      refine ⟨v'', m', ⟨most, ?_, finished_ok v'' m'⟩, hm, hv⟩
      have hne : others.map (Stmt.relocate f) ≠ [] := by simpa using hothers
      dsimp only
      rw [runWhole_append most program hne, Stateful.bind_of_ok _ hprogram, hmoved]

/-! ## The law -/

/-- Two sources that succeed one after the other succeed at once. -/
theorem ends_joinTexts (hhost : host.IgnoresPlaces) {first second : String} {m m₁ m₂ : Machine}
    {v v' : Option Value}
    (h : Ends (fun fuel => runSource host fuel first) m (.ok v m₁))
    (h' : Ends (fun fuel => runSource host fuel second) m₁ (.ok v' m₂)) :
    ∃ v'' m', Ends (fun fuel => runSource host fuel (joinTexts first second)) m (.ok v'' m') ∧
      m'.Alike .unplaced m₂ ∧
      (parseSource second ≠ .ok [] → Option.Rel (Value.Alike .unplaced) v'' v') := by
  obtain ⟨program, hfirst⟩ := exists_parseSource_of_runSource h.choose_spec.1
  obtain ⟨others, hsecond⟩ := exists_parseSource_of_runSource h'.choose_spec.1
  have hjoined : parseSource (joinTexts first second) =
      .ok (program ++ others.map (Stmt.relocate (.down (linesBefore first)))) := by
    rw [parseSource_joinTexts hfirst, hsecond]
    rfl
  simp only [runSource_of_ok hfirst] at h
  simp only [runSource_of_ok hsecond] at h'
  simp only [runSource_of_ok hjoined]
  by_cases hothers : others = []
  · -- nothing follows the first source, and the value is its own
    subst hothers
    obtain ⟨_, hrun, _⟩ := h'
    cases hrun
    rw [List.map_nil, List.append_nil]
    exact ⟨v, m₁, h, .refl m₁, fun hne => absurd hsecond hne⟩
  · obtain ⟨v'', m', hends, hm, hv⟩ := ends_append hhost (.down (linesBefore first)) hothers h h'
    exact ⟨v'', m', hends, hm, fun _ => hv⟩

/-- **Submitting in parts is submitting at once.**  Let a source be accepted, and let
another one follow it after a semicolon on a line of its own.  Both together are read as
the statements of the first and those of the second, with the places of the second moved
down by the line breaks of the first and two more; or they are refused for the fault of the
second, moved down so.  If the first source and then the second succeed from a machine,
both together succeed from it, with the same output and, up to places, the same variables:
they leave behind what the two do one after the other, up to places.  If the second source
has statements, they have its value, too.

How the sources are read does not depend on a host.  They are run on a host whose own
builtins, if it has any, do not look at the places inside of the functions that they are
given. -/
theorem submission_in_parts {first : String} {program : List Stmt}
    (h : parseSource first = .ok program) (second : String) :
    let both := first ++ "\n;\n" ++ second
    let moved := Position.down (first.toList.count '\n' + 2)
    parseSource both = ((parseSource second).map fun others =>
      program ++ others.map (Stmt.relocate moved)).mapError (SourceError.relocate moved) ∧
    ∀ host : Host, host.IgnoresPlaces → ∀ m v m₁ v' m₂,
      Ends (fun fuel => runSource host fuel first) m (.ok v m₁) →
      Ends (fun fuel => runSource host fuel second) m₁ (.ok v' m₂) →
      ∃ v'' m', Ends (fun fuel => runSource host fuel both) m (.ok v'' m') ∧
        m'.sink = m₂.sink ∧
        Bindings.Alike .unplaced m'.globalBindings m₂.globalBindings ∧
        m'.Alike .unplaced m₂ ∧
        (parseSource second ≠ .ok [] → Option.Rel (Value.Alike .unplaced) v'' v') := by
  intro both moved
  refine ⟨parseSource_joinTexts h second, fun host hhost m v m₁ v' m₂ hfirst hsecond => ?_⟩
  obtain ⟨v'', m', hboth, hm, hv⟩ := ends_joinTexts hhost hfirst hsecond
  have hglobals := (hm.heap.frame globals).bindings.sorted
  exact ⟨v'', m', hboth, hm.sink, hglobals, hm, hv⟩

/-- An assignment with a comment that no line break ends, and then a function that prints:
the places of the second source are two lines further down. -/
theorem submission_in_parts_after_comment :
    let host := Host.standard
    let first := "x = \"a\" # kept"
    let second := "function f() \x7b\n  print(x)\n\x7d\nf()"
    let both := "x = \"a\" # kept\n;\nfunction f() \x7b\n  print(x)\n\x7d\nf()"
    host.IgnoresPlaces ∧
      parseSource both = .ok [.assign "x" (.string "a") ⟨1, 1⟩,
        .function "f" [] [.expression (.call "print" [.variable "x" ⟨4, 9⟩] ⟨4, 3⟩)] ⟨3, 1⟩,
        .expression (.call "f" [] ⟨6, 1⟩)] ∧
      ∃ v m₁ v' m₂ v'' m',
        Ends (fun fuel => runSource host fuel first) (.fresh .unlimited) (.ok v m₁) ∧
        Ends (fun fuel => runSource host fuel second) m₁ (.ok v' m₂) ∧
        Ends (fun fuel => runSource host fuel both) (.fresh .unlimited) (.ok v'' m') ∧
        m'.sink = m₂.sink ∧ Bindings.Alike .unplaced m'.globalBindings m₂.globalBindings := by
  intro host first second both
  have hhost : host.IgnoresPlaces := (Host.blind_of_standard rfl rfl).ignoresPlaces
  have hfirst : parseSource first = .ok [.assign "x" (.string "a") ⟨1, 1⟩] := by decide +kernel
  have hsecond : parseSource second = .ok
      [.function "f" [] [.expression (.call "print" [.variable "x" ⟨2, 9⟩] ⟨2, 3⟩)] ⟨1, 1⟩,
        .expression (.call "f" [] ⟨4, 1⟩)] := by decide +kernel
  have hboth : first ++ "\n;\n" ++ second = both := by decide
  have hlines : first.toList.count '\n' = 0 := by decide
  obtain ⟨hread, hrun⟩ := submission_in_parts hfirst second
  obtain ⟨v, m₁, v', m₂, hone, hother⟩ : ∃ v m₁ v' m₂,
      runSource host 9 first (.fresh .unlimited) = .ok v m₁ ∧
        runSource host 9 second m₁ = .ok v' m₂ := by
    simp only [runSource_of_ok hfirst, runSource_of_ok hsecond]
    exact ⟨_, _, _, _, rfl, rfl⟩
  have hends : Ends (fun fuel => runSource host fuel first) (.fresh .unlimited) (.ok v m₁) :=
    ⟨9, hone, finished_ok v m₁⟩
  have hends' : Ends (fun fuel => runSource host fuel second) m₁ (.ok v' m₂) :=
    ⟨9, hother, finished_ok v' m₂⟩
  obtain ⟨v'', m', hboth', hsink, hglobals, _⟩ := hrun host hhost _ _ _ _ _ hends hends'
  rw [hboth] at hread hboth'
  rw [hsecond, hlines] at hread
  exact ⟨hhost, hread, v, m₁, v', m₂, v'', m', hends, hends', hboth', hsink, hglobals⟩

end Abacus
