import Abacus.Proofs.Parse.Nesting
import Abacus.Proofs.Session.History

/-!
# Abacus.Proofs.Session.Depth

How deep a session of parsed sources gets.  The parser lets blocks nest at most
256 deep, the branches of an else-if chain and the bodies of functions included.
So at most that many blocks are open for the text outside of functions and for
every call that is open (`depth_le_between_calls`), and without functions the
limit on nesting is never met.
-/

namespace Abacus

namespace SessionStep

/-- The statements that a step runs were read from a source text. -/
def Parsed : SessionStep → Prop
  | source _ => True
  | program stmts => ∃ text, parseSource text = .ok stmts

/-- The blocks of a parsed step nest at most as deep as the parser allows. -/
theorem Parsed.layers_le {step : SessionStep} (h : step.Parsed) :
    Stmt.layersAll step.statements ≤ nestingLimit := by
  cases step with
  | source text =>
      cases hparse : parseSource text with
      | ok program =>
          rw [statements, hparse]
          exact layers_of_parseSource hparse
      | error e =>
          rw [statements, hparse]
          exact Nat.zero_le _
  | program stmts =>
      obtain ⟨text, hparse⟩ := h
      exact layers_of_parseSource hparse

/-- So do those of all parsed steps of a session, whatever else they hold. -/
theorem shape_le_of_parsed {steps : List SessionStep} (h : ∀ step ∈ steps, step.Parsed) :
    Shape.of (allStatements steps) ≤ ⟨256, Stmt.foldsAll (allStatements steps),
      Stmt.definesIn (allStatements steps)⟩ := by
  refine Shape.of_le_iff.mpr fun s hs => ?_
  obtain ⟨step, hstep, hmem⟩ := List.mem_flatMap.mp hs
  have hown : Shape.of [s] ≤ Shape.of step.statements :=
    Shape.of_le_of_subset (List.cons_subset.mpr ⟨hmem, List.nil_subset _⟩)
  have hall : Shape.of [s] ≤ Shape.of (allStatements steps) :=
    Shape.of_le_of_subset (List.cons_subset.mpr ⟨hs, List.nil_subset _⟩)
  exact ⟨Nat.le_trans hown.blocks (h step hstep).layers_le, hall.folds, hall.functions⟩

end SessionStep

/-- **The parser's limit bounds the depth between calls.**  In every session of
parsed sources, at every node that a step comes by, at most 256 blocks are open
for the outermost text and for each open call.  If no source defines a function,
no step stops at a limit on nesting of 256 or more, whatever its blocks, loops
and else-if chains.

The law is about hosts that make no closures: the entries of the registry are
builtins and plain constants, and the host's own builtins give back no closures but
those of their arguments.  The standard library is such a host, with any limit
(`Host.closureless_of_standard`). -/
theorem depth_le_between_calls {host : Host} (hhost : host.Closureless)
    {steps : List SessionStep} {m : Machine} (hm : History host steps m) (step : SessionStep)
    (hparsed : ∀ s ∈ steps ++ [step], s.Parsed) :
    Everywhere host (fun _ m' => m'.depth ≤ 256 * (m'.calls + 1)) (·.perform step) m ∧
    (Stmt.definesIn (SessionStep.allStatements (steps ++ [step])) = false →
      256 ≤ host.maxDepth → ∀ fuel, ¬ AtLimit (step.run host fuel m)) := by
  have hX := SessionStep.shape_le_of_parsed hparsed
  refine ⟨hm.everywhere hhost hX fun _ m' hm' => hm'.depth_le, fun hdefines hlimit fuel h => ?_⟩
  obtain hfunctions | hlt := hm.functions_or_lt_of_atLimit hhost hX h
  · rw [show Stmt.definesIn _ = true from hfunctions] at hdefines
    contradiction
  · exact absurd hlimit (Nat.not_le.mpr hlt)

/-- A function that calls itself for ever from inside a block meets the limit of
three blocks and calls, with at most 256 blocks to a call; an else-if chain without
functions does not meet the limit of 256. -/
theorem depth_le_between_calls_endless :
    let endless := "function f() { if true { f() } }"
    let chain := "if false {} else if true {}"
    let low := Host.standard.withLimit 3
    let high := Host.standard.withLimit 256
    ∃ defined m, parseSource endless = .ok defined ∧ History low [.program defined] m ∧
      AtLimit ((SessionStep.source "f()").run low 12 m) ∧
      Everywhere low (fun _ m' => m'.depth ≤ 256 * (m'.calls + 1)) (·.perform (.source "f()")) m ∧
      Stmt.definesIn (SessionStep.source chain).statements = false ∧
      ∀ fuel, ¬ AtLimit ((SessionStep.source chain).run high fuel (.fresh .unlimited)) := by
  intro endless chain low high
  let defined : List Stmt :=
    [.function "f" [] [.ifThen (.boolean true) [.expression (.call "f" [] ⟨1, 26⟩)] ⟨1, 16⟩] ⟨1, 1⟩]
  have hendless : parseSource endless = .ok defined := by decide +kernel
  have hcall : parseSource "f()" = .ok [.expression (.call "f" [] ⟨1, 1⟩)] := by decide +kernel
  have hchain : parseSource chain = .ok [.ifElse (.boolean false) []
      [.ifThen (.boolean true) [] ⟨1, 18⟩] ⟨1, 1⟩] := by decide +kernel
  have hdefined : History low [.program defined] _ :=
    (History.fresh .unlimited).step (.program defined) 3 (finished_ok _ _)
  have hparsed : ∀ s ∈ [SessionStep.program defined] ++ [.source "f()"], s.Parsed := by
    simp only [List.cons_append, List.nil_append, List.forall_mem_cons]
    exact ⟨⟨endless, hendless⟩, trivial, List.forall_mem_nil _⟩
  have hfree : Stmt.definesIn (SessionStep.source chain).statements = false := by
    rw [SessionStep.statements, hchain]
    rfl
  obtain ⟨hdepth, _⟩ := depth_le_between_calls (Host.closureless_of_standard rfl rfl) hdefined
    (.source "f()") hparsed
  have hfresh : History high [] (.fresh .unlimited) := .fresh .unlimited
  obtain ⟨_, hnever⟩ := depth_le_between_calls (Host.closureless_of_standard rfl rfl) hfresh
    (.source chain) fun s hs => List.mem_singleton.mp hs ▸ trivial
  refine ⟨defined, _, hendless, hdefined, ?_, hdepth, hfree, hnever ?_ (Nat.le_refl _)⟩
  · rw [SessionStep.run, runSource_of_ok hcall]
    exact ⟨_, _, rfl, trivial⟩
  · simpa [SessionStep.allStatements] using hfree

end Abacus
