import Abacus.Proofs.Session.Passes
import Mathlib.Data.Int.Range

/-!
# Abacus.Proofs.Session.Fold

Sums and products.  Between two bounds an aggregate evaluates its body once for
every integer, in ascending order, and folds the terms from the left
(`Fold.ends_run_iff`).  The terms share a scope, but each is what it is alone, in a
fresh scope with the variable bound to its integer (`folds_over_integers`).
-/

namespace Abacus

variable {host : Host} {m m' : Machine}

/-- How the terms of a sum or a product are combined, and from what on. -/
def Aggregate.folding? : Aggregate → Option ((Float → Float → Float) × Float)
  | .sum => some ((· + ·), 0)
  | .product => some ((· * ·), 1)
  | .integral => none

/-- The integers from one to another, in ascending order. -/
def integers (low high : Int) : List Int := Int.range low (high + 1)

/-- The integers from one to another, both of them included. -/
theorem mem_integers {low high i : Int} : i ∈ integers low high ↔ low ≤ i ∧ i ≤ high := by
  rw [integers, Int.mem_range_iff, Int.lt_add_one_iff]

/-- The integers of an interval ascend. -/
theorem integers_ascend (low high : Int) : (integers low high).Pairwise (· < ·) := by
  rw [integers, Int.range, List.pairwise_map]
  exact List.pairwise_lt_range.imp fun h => by omega

/-- There are no integers between bounds in the wrong order. -/
theorem integers_of_lt {low high : Int} (h : high < low) : integers low high = [] := by
  rw [integers, Int.range, show (high + 1 - low).toNat = 0 by omega]
  rfl

/-- The integers of an interval begin with its lower bound. -/
theorem integers_cons {low high : Int} (h : low ≤ high) :
    integers low high = low :: integers (low + 1) high := by
  have hcount : (high + 1 - low).toNat = (high + 1 - (low + 1)).toNat + 1 := by omega
  unfold integers Int.range
  rw [hcount, List.range_succ_eq_map, List.map_cons, List.map_map]
  congr 1
  · exact Int.add_zero low
  · refine List.map_congr_left fun n _ => ?_
    simp only [Function.comp_apply, Nat.succ_eq_add_one]
    omega

namespace Number

/-- Bounds are integers of 64 bits. -/
theorem bound_mem (x : Float) : Binary.minInt64 ≤ bound x ∧ bound x ≤ Binary.maxInt64 := by
  have hle : Binary.minInt64 ≤ Binary.maxInt64 := by decide
  unfold bound Binary.truncateInt64
  split
  · split
    · exact ⟨Int.le_refl _, hle⟩
    · exact ⟨hle, Int.le_refl _⟩
  · omega

end Number

/-! ## Folds -/

/-- An aggregate, in a scope. -/
structure Fold where
  kind : Aggregate
  var : String
  start : Expr
  stop : Expr
  body : Expr
  pos : Position
  scope : FrameId

namespace Fold

variable (host) (f : Fold)

/-- Evaluate the aggregate. -/
def run (fuel : Nat) : Run Value :=
  evaluate host fuel (.aggregate f.kind f.var f.start f.stop f.body f.pos) f.scope

/-- Evaluate the lower bound. -/
def low (fuel : Nat) : Run Float :=
  (Recursion.ofFuel host fuel).evalNumber .lowerBound f.pos f.start f.scope

/-- Evaluate the upper bound. -/
def high (fuel : Nat) : Run Float :=
  (Recursion.ofFuel host fuel).evalNumber .upperBound f.pos f.stop f.scope

/-- Evaluate the body in a scope. -/
def value (inner : FrameId) (fuel : Nat) : Run Float :=
  (Recursion.ofFuel host fuel).evalNumber .aggregateBody f.pos f.body inner

/-- Bind the variable to an integer and evaluate the body. -/
def term (inner : FrameId) (i : Int) : Nat → Run Float :=
  Run.binding inner f.var (.number (Float.ofInt i)) (f.value host inner)

/-- Evaluate the body in a fresh scope with the variable bound to an integer. -/
def alone (i : Int) (fuel : Nat) : Run Float := do
  let inner ← Run.newChild f.scope
  f.term host inner i fuel

/-- Evaluate the body for every integer between the bounds, and fold the terms. -/
def terms (inner : FrameId) (combine : Float → Float → Float) (count : Nat) (i : Int)
    (total : Float) (fuel : Nat) : Run Float :=
  Recursion.foldFrom combine (fun x => (Recursion.ofFuel host fuel).term .aggregateBody f.pos f.var
    f.body inner x) count i total

end Fold

/-- An evaluation to a number is repeatable. -/
theorem repeatable_evalNumber (hhost : host.Blind) (role : Role) (pos : Position) (e : Expr)
    (scope : FrameId) :
    Repeatable scope (fun _ => Eq) fun fuel =>
      (Recursion.ofFuel host fuel).evalNumber role pos e scope where
  steady := (steady_evaluate host e scope).bind fun _ => .const _
  follows hscope fuel := by
    have hself := Renaming.paired_ofFuel hhost False fuel
    have hpos : (Renaming.pairing False).place (.fold .sum) pos pos := rfl
    exact hself.evalNumber (Renaming.lawful hhost False) role hpos rfl hscope
  scopes fuel := (Recursion.keepsScopes_ofFuel host fuel).evalNumber role pos e scope
  counters fuel := by
    have hsuits := Mirror.suits_plain host
    have hpos : Mirror.plain.pairing.place (.fold .sum) pos pos := rfl
    exact Mirror.counters_final (fun _ => (hsuits.paired_ofFuel fuel).evalNumber hsuits.lawful role
      hpos rfl rfl) fun _ _ _ h => h
  prints fuel := by
    have hself := Run.composable_prints.common_ofFuel host fuel
    exact hself.evalNumber Run.composable_prints scope pos role e

namespace Fold

variable {f : Fold} {inner : FrameId}

/-- More fuel keeps the value of the body. -/
theorem steady_value (inner : FrameId) : Steady (f.value host inner) :=
  (steady_evaluate host f.body inner).bind fun _ => .const _

/-- More fuel keeps a term. -/
theorem steady_term (inner : FrameId) (i : Int) : Steady (f.term host inner i) :=
  Run.steady_binding (steady_value inner) inner f.var _

/-! ## Terms -/

section terms

variable {combine : Float → Float → Float}

theorem terms_succ (count : Nat) (i : Int) (total : Float) (fuel : Nat) :
    f.terms host inner combine (count + 1) i total fuel = (do
      let x ← f.term host inner i fuel
      f.terms host inner combine count (i + 1) (combine total x) fuel) := rfl

/-- More fuel keeps the terms from an index on. -/
theorem steady_terms (count : Nat) (i : Int) (total : Float) :
    Steady (f.terms host inner combine count i total) := by
  induction count generalizing i total with
  | zero => exact .const _
  | succ count ih => exact (steady_term inner i).bind fun x => ih (i + 1) (combine total x)

/-- The terms are folded from the left, or the first that stops ends the fold. -/
theorem ends_terms_iff {low high : Int} {total : Float} {r : EStateM.Result Stop Machine Float} :
    Ends (f.terms host inner combine (high - low + 1).toNat low total) m r ↔
      (∃ xs m', Passes (f.term host inner) m (integers low high) xs m' ∧
        r = .ok (xs.foldl combine total) m') ∨
      ∃ before i after xs m' e m'', integers low high = before ++ i :: after ∧
        Passes (f.term host inner) m before xs m' ∧
        Ends (f.term host inner i) m' (.error e m'') ∧ r = .error e m'' := by
  generalize hcount : (high - low + 1).toNat = count
  induction count generalizing low total m with
  | zero =>
      have hnone : integers low high = [] := integers_of_lt (by omega)
      rw [hnone]
      constructor
      · rintro ⟨_, rfl, _⟩
        exact .inl ⟨[], m, .nil m, rfl⟩
      · rintro (⟨xs, m', hpasses, rfl⟩ | ⟨before, i, after, _, _, _, _, hsplit, _⟩)
        · cases hpasses
          exact ⟨0, rfl, finished_ok _ m⟩
        · cases before <;> cases hsplit
  | succ count ih =>
      rw [funext (terms_succ count low total), integers_cons (by omega),
        (steady_term inner low).ends_bind_iff
          fun x => steady_terms count (low + 1) (combine total x)]
      have ih := fun total m => @ih m (low + 1) total (by omega)
      constructor
      · rintro (⟨x, m₁, hterm, hrest⟩ | ⟨e, m', hterm, rfl⟩)
        · obtain ⟨xs, m', hpasses, rfl⟩ |
            ⟨before, i, after, xs, m', e, m'', hsplit, hpasses, hstop⟩ := (ih _ _).mp hrest
          · exact .inl ⟨x :: xs, m', .cons hterm hpasses, rfl⟩
          · exact .inr ⟨low :: before, i, after, x :: xs, m', e, m'', by rw [hsplit]; rfl,
              .cons hterm hpasses, hstop⟩
        · exact .inr ⟨[], low, _, [], m, e, m', rfl, .nil m, hterm, rfl⟩
      · rintro (⟨xs, m', hpasses, rfl⟩ |
          ⟨before, i, after, xs, m', e, m'', hsplit, hpasses, hstop⟩)
        · cases hpasses with
          | cons hterm hpasses =>
              exact .inl ⟨_, _, hterm, (ih _ _).mpr (.inl ⟨_, m', hpasses, rfl⟩)⟩
        · cases before with
          | nil =>
              cases hpasses
              cases hsplit
              exact .inr ⟨e, m'', hstop⟩
          | cons head before =>
              injection hsplit with hhead hsplit
              subst hhead
              cases hpasses with
              | cons hterm hpasses =>
                  exact .inl ⟨_, _, hterm, (ih _ _).mpr
                    (.inr ⟨before, i, after, _, m', e, m'', hsplit, hpasses, hstop⟩)⟩

end terms

/-! ## Aggregates -/

variable (host) (f) in
/-- Fold the terms for the integers between two bounds. -/
def sum (combine : Float → Float → Float) (init low high : Float) (inner : FrameId) (fuel : Nat) :
    Run Value := do
  let count := (Number.bound high - Number.bound low + 1).toNat
  let x ← f.terms host inner combine count (Number.bound low) init fuel
  return .number x

section aggregates

variable {combine : Float → Float → Float} {init : Float}

/-- More fuel keeps the sum of all terms. -/
theorem steady_sum (low high : Float) (inner : FrameId) :
    Steady (f.sum host combine init low high inner) :=
  (steady_terms _ _ _).bind fun _ => .const _

/-- The sum is the fold of all terms, or ends with the first that stops. -/
theorem ends_sum_iff {low high : Float} {r : EStateM.Result Stop Machine Value} :
    let is := integers (Number.bound low) (Number.bound high)
    Ends (f.sum host combine init low high inner) m r ↔
      (∃ xs m', Passes (f.term host inner) m is xs m' ∧
        r = .ok (.number (xs.foldl combine init)) m') ∨
      ∃ before i after xs m' e m'', is = before ++ i :: after ∧
        Passes (f.term host inner) m before xs m' ∧
        Ends (f.term host inner i) m' (.error e m'') ∧ r = .error e m'' := by
  intro is
  refine ((steady_terms _ _ _).ends_bind_iff fun x => .const (pure (Value.number x))).trans ⟨?_, ?_⟩
  · rintro (⟨x, m', hterms, _, rfl, _⟩ | ⟨e, m', hterms, rfl⟩)
    · obtain ⟨xs, _, hpasses, heq⟩ | ⟨_, _, _, _, _, _, _, _, _, _, heq⟩ := ends_terms_iff.mp hterms
      · cases heq
        exact .inl ⟨xs, m', hpasses, rfl⟩
      · cases heq
    · obtain ⟨_, _, _, heq⟩ | ⟨before, i, after, xs, m₁, _, _, hsplit, hpasses, hstop, heq⟩ :=
        ends_terms_iff.mp hterms
      · cases heq
      · cases heq
        exact .inr ⟨before, i, after, xs, m₁, e, m', hsplit, hpasses, hstop, rfl⟩
  · rintro (⟨xs, m', hpasses, rfl⟩ |
      ⟨before, i, after, xs, m', e, m'', hsplit, hpasses, hstop, rfl⟩)
    · refine .inl ⟨_, m', ends_terms_iff.mpr ?_, 0, rfl, finished_ok _ m'⟩
      exact .inl ⟨xs, m', hpasses, rfl⟩
    · refine .inr ⟨e, m'', ends_terms_iff.mpr ?_, rfl⟩
      exact .inr ⟨before, i, after, xs, m', e, m'', hsplit, hpasses, hstop, rfl⟩

variable (hkind : f.kind.folding? = some (combine, init))

include hkind

/-- A run of the fold: its bounds, the scope of its variable, and its terms. -/
theorem run_succ (fuel : Nat) :
    f.run host (fuel + 1) = (do
      let low ← f.low host fuel
      let high ← f.high host fuel
      let inner ← Run.newChild f.scope
      f.sum host combine init low high inner fuel) := by
  obtain ⟨kind, var, start, stop, body, pos, scope⟩ := f
  cases kind with
  | sum =>
      cases hkind
      rfl
  | product =>
      cases hkind
      rfl
  | integral => cases hkind

/-- A sum or a product is the fold of its terms in a fresh scope, once its bounds are
evaluated. -/
theorem ends_run_iff {low high : Float} {m₁ m₂ : Machine}
    (hlow : Ends (f.low host) m (.ok low m₁)) (hhigh : Ends (f.high host) m₁ (.ok high m₂))
    {r : EStateM.Result Stop Machine Value} :
    Ends (f.run host) m r ↔
      Ends (f.sum host combine init low high m₂.heap.nextId) (m₂.newChild f.scope) r := by
  have hrun : Steady (f.run host) := steady_evaluate host _ f.scope
  have hbound : ∀ role e, Steady fun fuel =>
      (Recursion.ofFuel host fuel).evalNumber role f.pos e f.scope := fun role e =>
    (steady_evaluate host e f.scope).bind fun _ => .const _
  have hinner : ∀ a b, Steady fun fuel =>
      Run.newChild f.scope >>= fun inner => f.sum host combine init a b inner fuel := fun a b =>
    (Steady.const _).bind (steady_sum a b)
  have hrest : ∀ a, Steady fun fuel => f.high host fuel >>= fun b =>
      Run.newChild f.scope >>= fun inner => f.sum host combine init a b inner fuel := fun a =>
    (hbound .upperBound f.stop).bind (hinner a)
  have hchild : Ends (fun _ => Run.newChild f.scope) m₂
      (.ok m₂.heap.nextId (m₂.newChild f.scope)) := ⟨0, rfl, finished_ok _ _⟩
  rw [← hrun.ends_succ_iff, funext (run_succ hkind)]
  calc
    _ ↔ Ends (fun fuel => f.high host fuel >>= fun b => Run.newChild f.scope >>= fun inner =>
          f.sum host combine init low b inner fuel) m₁ r :=
        (hbound .lowerBound f.start).ends_bind_of_ok hrest hlow
    _ ↔ Ends (fun fuel => Run.newChild f.scope >>= fun inner =>
          f.sum host combine init low high inner fuel) m₂ r :=
        (hbound .upperBound f.stop).ends_bind_of_ok (hinner low) hhigh
    _ ↔ _ := (Steady.const _).ends_bind_of_ok (steady_sum low high) hchild

end aggregates

end Fold

/-! ## The law -/

/-- **Sums and products are folds over the integers between their bounds.**  On a
host with the standard library, let an aggregate in a scope of a reachable machine
whose sink takes everything be a sum or a product, and let its bounds evaluate to
two numbers.  They stand for integers of 64 bits.  The body is evaluated in one
fresh scope, once for each integer from the lower to the upper one in ascending
order, if there are any.  Each term ends as it does alone, on the machine before
the terms in a fresh scope with only the variable bound: it is the same number, or
stops with the same error at the same place, and it writes the same.  If all terms
are numbers they are folded from the left, from zero with addition or from one with
multiplication; the first term that is not a number, or fails, ends the aggregate
with its error.  No binding that was there before is changed, whatever the outcome. -/
theorem folds_over_integers (limit : Nat) {m : Machine}
    (hm : Reachable (Host.standard.withLimit limit) m) (hcapacity : m.sink.capacity = none)
    (hflush : m.sink.flushable = true) (f : Fold) (hs : f.scope < m.heap.nextId)
    {combine : Float → Float → Float} {init : Float}
    (hkind : f.kind = .sum ∧ combine = (· + ·) ∧ init = 0 ∨
      f.kind = .product ∧ combine = (· * ·) ∧ init = 1)
    {low high : Float} {m₁ m₂ : Machine}
    (hlow : Ends (f.low (Host.standard.withLimit limit)) m (.ok low m₁))
    (hhigh : Ends (f.high (Host.standard.withLimit limit)) m₁ (.ok high m₂)) :
    let host := Host.standard.withLimit limit
    let inner := m₂.heap.nextId
    let m₃ := m₂.newChild f.scope
    let is := integers (Number.bound low) (Number.bound high)
    (∀ i, i ∈ is ↔ Number.bound low ≤ i ∧ i ≤ Number.bound high) ∧ is.Pairwise (· < ·) ∧
    (∀ i ∈ is, Binary.minInt64 ≤ i ∧ i ≤ Binary.maxInt64) ∧
    (∀ before i after xs m', is = before ++ i :: after →
      Passes (f.term host inner) m₃ before xs m' →
      EndsSame (fun _ => Eq) (f.alone host i) m₂ (f.term host inner i) m') ∧
    (∀ r, Ends (f.run host) m r ↔
      (∃ xs m', Passes (f.term host inner) m₃ is xs m' ∧
        r = .ok (.number (xs.foldl combine init)) m') ∨
      ∃ before i after xs m' e m'', is = before ++ i :: after ∧
        Passes (f.term host inner) m₃ before xs m' ∧
        Ends (f.term host inner i) m' (.error e m'') ∧ r = .error e m'') ∧
    ∀ fuel id, id < m.heap.nextId →
      ((f.run host fuel).final m).heap.frame id = m.heap.frame id := by
  intro host inner m₃ is
  have hhost : host.Blind := Host.blind_of_standard rfl rfl
  have hample : m.Ample := ⟨hm.coherent hhost, Sink.eq_endless hcapacity hflush⟩
  have hfolding : f.kind.folding? = some (combine, init) := by
    obtain ⟨hkind, rfl, rfl⟩ | ⟨hkind, rfl, rfl⟩ := hkind <;> rw [hkind] <;> rfl
  -- the machines after the bounds
  have hnumber := fun role e => repeatable_evalNumber hhost role f.pos e f.scope
  obtain ⟨hample₁, hgrows₁⟩ := (hnumber _ _).ample_of_ends hample hs hlow
  have hs₁ := hgrows₁.lt hs
  obtain ⟨hample₂, hgrows₂⟩ := (hnumber _ _).ample_of_ends hample₁ hs₁ hhigh
  have hs₂ := hgrows₂.lt hs₁
  have hample₃ : m₃.Ample := hample₂.newChild hs₂
  have hinner : inner < m₃.heap.nextId := by
    show inner < (m₂.heap.newChild f.scope).nextId
    rw [Heap.nextId_newChild]
    exact Nat.lt_succ_self _
  refine ⟨fun i => mem_integers, integers_ascend _ _, fun i hi => ?_, ?_, fun r => ?_, ?_⟩
  · obtain ⟨hlo, hhi⟩ := mem_integers.mp hi
    exact ⟨Int.le_trans (Number.bound_mem low).1 hlo, Int.le_trans hhi (Number.bound_mem high).2⟩
  · intro before i after xs m' _ hpasses
    have hvalue := repeatable_evalNumber hhost .aggregateBody f.pos f.body inner
    have hsame : EndsSame _ (f.term host inner i) m₃ (f.term host inner i) m' :=
      Passes.endsSame hvalue hample₃ hinner (fun i _ => .number _) (.number _) hpasses
    have hidentity : m₂.heap.identity ≤ m₃.heap.identity := by
      refine Heap.identity_le ?_ (Nat.le_refl _)
      show m₂.heap.nextId ≤ (m₂.heap.newChild f.scope).nextId
      rw [Heap.nextId_newChild]
      exact Nat.le_succ _
    exact ⟨hsame.ends, fun r r' h h' => (hsame.result r r' h h').earlier hidentity, hsame.output⟩
  · exact (Fold.ends_run_iff hfolding hlow hhigh).trans Fold.ends_sum_iff
  · exact fun fuel => (evaluate_scopes host fuel _ f.scope m).frame

/-- The sum of a function over two integers: the second term is what it is alone, so the
sum is three, and no binding is changed. -/
theorem folds_over_integers_function :
    let p : Position := ⟨1, 1⟩
    let host := Host.standard.withLimit 10
    let step : SessionStep :=
      .program [.function "f" ["i"] [.giveBack (some (.variable "i" p)) p] p]
    let m := (step.run host 2).final (.fresh .unlimited)
    let f : Fold := ⟨.sum, "i", .number 1, .number 2, .call "f" [.variable "i" p] p, p, globals⟩
    Reachable host m ∧ m.sink.capacity = none ∧ m.sink.flushable = true ∧
      f.scope < m.heap.nextId ∧ Ends (f.low host) m (.ok 1 m) ∧ Ends (f.high host) m (.ok 2 m) ∧
      ∃ m', Ends (f.run host) m (.ok (.number 3) m') ∧
        m'.heap.frame globals = m.heap.frame globals := by
  intro p host step m f
  have hsession : Session host m := .step (.fresh .unlimited) step 2 (finished_ok _ _)
  have hm := hsession.reachable
  have hlow : Ends (f.low host) m (.ok 1 m) := ⟨1, rfl, finished_ok _ _⟩
  have hhigh : Ends (f.high host) m (.ok 2 m) := ⟨1, rfl, finished_ok _ _⟩
  obtain ⟨_, _, _, hsame, hrun, hframe⟩ :=
    folds_over_integers 10 hm rfl rfl f hm.globals_lt (.inl ⟨rfl, rfl, rfl⟩) hlow hhigh
  have his : integers (Number.bound 1) (Number.bound 2) = [1, 2] := by decide +kernel
  have hsum : [Float.ofInt 1, Float.ofInt 2].foldl (· + ·) 0 = 3 := by decide +kernel
  rw [his] at hsame hrun
  obtain ⟨m₄, hfirst⟩ : ∃ m₄, f.term host m.heap.nextId 1 3 (m.newChild globals) =
      .ok (Float.ofInt 1) m₄ := ⟨_, rfl⟩
  have hfirst : Ends (f.term host m.heap.nextId 1) (m.newChild globals) (.ok (Float.ofInt 1) m₄) :=
    ⟨3, hfirst, finished_ok _ m₄⟩
  -- the second term is what it is alone
  obtain ⟨m₅, halone⟩ : ∃ m₅, f.alone host 2 3 m = .ok (Float.ofInt 2) m₅ := ⟨_, rfl⟩
  have halone : Ends (f.alone host 2) m (.ok (Float.ofInt 2) m₅) := ⟨3, halone, finished_ok _ m₅⟩
  have hsecond := hsame [1] 2 [] [Float.ofInt 1] m₄ rfl (.cons hfirst (.nil m₄))
  obtain ⟨r, hr⟩ := hsecond.ends.mp ⟨_, halone⟩
  obtain ⟨m', rfl⟩ : ∃ m', r = .ok (Float.ofInt 2) m' := by
    cases hsecond.result _ r halone hr with
    | ok _ h =>
        cases h
        exact ⟨_, rfl⟩
  have hends : Ends (f.run host) m (.ok (.number 3) m') :=
    (hrun _).mpr (.inl ⟨_, m', .cons hfirst (.cons hr (.nil m')), hsum ▸ rfl⟩)
  have hkept : m'.heap.frame globals = m.heap.frame globals := by
    obtain ⟨fuel, hfuel, _⟩ := hends
    have hfinal := hframe fuel globals hm.globals_lt
    rwa [Run.final_of_ok hfuel] at hfinal
  exact ⟨hm, rfl, rfl, hm.globals_lt, hlow, hhigh, m', hends, hkept⟩

end Abacus
