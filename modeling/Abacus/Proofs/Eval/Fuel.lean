import Abacus.Proofs.Eval.Mirror

/-!
# Abacus.Proofs.Eval.Fuel

Fuel is no part of the meaning of a run.  A result is `Finished` if it is not
for want of fuel; more fuel keeps it (`Steady.of_le`), so a run from a given
machine has at most one (`Steady.ends_unique`).  `Ends` says which result a run
has with enough fuel.
-/

namespace Abacus

variable {α : Type} {host host' : Host}

/-! ## Mirrors and fuel -/

namespace Mirror

variable {S : Mirror}

/-- A mirror that suits two hosts pairs their runs with the same fuel. -/
theorem Suits.paired_ofFuel (h : S.Suits host host') (fuel : Nat) :
    S.pairing.Paired (.ofFuel host fuel) (.ofFuel host' fuel) :=
  h.lawful.paired_ofFuel ⟨rfl, fun _ => id⟩ fuel

/-- A run stands for the run with more fuel, if the want of fuel is excused. -/
theorem Suits.paired_succ (h : S.Suits host host) (hexcused : S.excused .exhausted) (fuel : Nat) :
    S.pairing.Paired (.ofFuel host fuel) (.ofFuel host (fuel + 1)) := by
  induction fuel with
  | zero =>
      constructor
      · exact fun _ _ _ _ _ => .left hexcused
      · exact fun _ _ _ _ _ => .left hexcused
  | succ fuel ih =>
      constructor
      · exact fun he hs => ih.evalStep h.lawful he hs
      · exact fun ht hs => ih.execStep h.lawful ht hs

/-- A host suits itself. -/
theorem suits_self (host : Host)
    (hblock : ∀ c, S.keeps c → c.depth < host.maxDepth → S.keeps c.inBlock)
    (hcall : ∀ c, S.keeps c → c.depth < host.maxDepth → S.keeps c.inCall) : S.Suits host host :=
  ⟨rfl, rfl, Nat.le_refl _, .inl rfl, hblock, hcall⟩

end Mirror

/-! ## Finished runs -/

/-- A result that is not for want of fuel. -/
def Finished (r : EStateM.Result Stop Machine α) : Prop := ∀ m, r ≠ .error .exhausted m

theorem finished_ok (a : α) (m : Machine) : Finished (.ok a m) := by
  intro _ h
  contradiction

theorem finished_failed (e : Error) (m : Machine) :
    Finished (.error (.failed e) m : EStateM.Result Stop Machine α) := by
  intro _ h
  cases h

/-- With enough fuel the run from the machine gives the result. -/
def Ends (x : Nat → Run α) (m : Machine) (r : EStateM.Result Stop Machine α) : Prop :=
  ∃ fuel, x fuel m = r ∧ Finished r

/-- The second run gives every finished result of the first. -/
def Covers (x y : Run α) : Prop := ∀ m, Finished (x m) → y m = x m

namespace Covers

variable {β : Type} {x y : Run α} {f g : α → Run β}

theorem refl (x : Run α) : Covers x x := fun _ _ => rfl

/-- One run after another, if the second covers the first in both parts. -/
theorem bind (hx : Covers x y) (hf : ∀ a, Covers (f a) (g a)) :
    Covers (x >>= f) (y >>= g) := by
  intro m hfinished
  cases hr : x m with
  | ok a m' =>
      have hy : y m = .ok a m' := hr ▸ hx m (hr ▸ finished_ok a m')
      rw [Stateful.bind_of_ok f hr] at hfinished ⊢
      rw [Stateful.bind_of_ok g hy]
      exact hf a m' hfinished
  | error e m' =>
      rw [Stateful.bind_of_error f hr] at hfinished ⊢
      have hstop : Finished (x m) := by
        rw [hr]
        rintro _ ⟨⟩
        exact hfinished m' rfl
      exact Stateful.bind_of_error g ((hx m hstop).trans hr)

/-- A value that is thrown away makes no difference. -/
theorem discard (hx : Covers x y) : Covers (Functor.discard x) (Functor.discard y) := by
  rw [Stateful.discard_eq, Stateful.discard_eq]
  exact hx.bind fun _ => refl _

end Covers

/-- Runs that cover each other, with some other fuel, have the same ends. -/
theorem Ends.of_covers {x y : Nat → Run α} (h : ∀ fuel, ∃ fuel', Covers (x fuel) (y fuel'))
    {m : Machine} {r : EStateM.Result Stop Machine α} (hr : Ends x m r) : Ends y m r := by
  obtain ⟨fuel, rfl, hfinished⟩ := hr
  obtain ⟨fuel', hcovers⟩ := h fuel
  exact ⟨fuel', hcovers m hfinished, hfinished⟩

/-- One more unit of fuel keeps every finished result. -/
def Steady (x : Nat → Run α) : Prop := ∀ fuel, Covers (x fuel) (x (fuel + 1))

namespace Steady

variable {x : Nat → Run α} (hx : Steady x) {m : Machine}

include hx

/-- More fuel keeps every finished result. -/
theorem of_le {fuel fuel' : Nat} (hle : fuel ≤ fuel') (h : Finished (x fuel m)) :
    x fuel' m = x fuel m := by
  induction hle with
  | refl => rfl
  | step _ ih =>
      have hstep := hx _ m (ih.symm ▸ h)
      rw [hstep, ih]

/-- A run has at most one finished result. -/
theorem ends_unique {r r' : EStateM.Result Stop Machine α} (h : Ends x m r) (h' : Ends x m r') :
    r = r' := by
  obtain ⟨fuel, rfl, hr⟩ := h
  obtain ⟨fuel', rfl, hr'⟩ := h'
  obtain hle | hle := Nat.le_total fuel fuel'
  · exact (hx.of_le hle hr).symm
  · exact hx.of_le hle hr'

/-- A unit of fuel that is always added makes no difference. -/
theorem ends_succ_iff {r : EStateM.Result Stop Machine α} :
    Ends (fun fuel => x (fuel + 1)) m r ↔ Ends x m r := by
  constructor
  · rintro ⟨fuel, hr, hfinished⟩
    exact ⟨fuel + 1, hr, hfinished⟩
  · rintro ⟨fuel, rfl, hfinished⟩
    exact ⟨fuel, hx fuel m hfinished, hfinished⟩

end Steady

namespace Steady

variable {β : Type} {x : Nat → Run α} {f : Nat → α → Run β}

/-- A run that does not look at the fuel is steady. -/
theorem const (x : Run α) : Steady fun _ => x := fun _ => .refl x

/-- One steady run after another. -/
theorem bind (hx : Steady x) (hf : ∀ a, Steady fun fuel => f fuel a) :
    Steady fun fuel => x fuel >>= f fuel := fun fuel => (hx fuel).bind fun a => hf a fuel

/-- One run after another ends as the second does after the first, or as the first
if that stops. -/
theorem ends_bind_iff (hx : Steady x) (hf : ∀ a, Steady fun fuel => f fuel a) {m : Machine}
    {r : EStateM.Result Stop Machine β} :
    Ends (fun fuel => x fuel >>= f fuel) m r ↔
      (∃ a m', Ends x m (.ok a m') ∧ Ends (fun fuel => f fuel a) m' r) ∨
      ∃ e m', Ends x m (.error e m') ∧ r = .error e m' := by
  constructor
  · rintro ⟨fuel, hr, hfinished⟩
    cases hfirst : x fuel m with
    | ok a m' =>
        have hrest : f fuel a m' = r := (Stateful.bind_of_ok _ hfirst).symm.trans hr
        exact .inl ⟨a, m', ⟨fuel, hfirst, finished_ok a m'⟩, fuel, hrest, hfinished⟩
    | error e m' =>
        have hstop : r = .error e m' := hr.symm.trans (Stateful.bind_of_error _ hfirst)
        subst hstop
        refine .inr ⟨e, m', ⟨fuel, hfirst, ?_⟩, rfl⟩
        rintro _ ⟨⟩
        exact hfinished m' rfl
  · rintro (⟨a, m', ⟨fuel, hfirst, _⟩, fuel', hrest, hfinished⟩ |
      ⟨e, m', ⟨fuel, hstop, hfirst⟩, rfl⟩)
    · -- both runs have their results with the larger of the two amounts of fuel
      have hleft := hx.of_le (Nat.le_max_left fuel fuel') (hfirst.symm ▸ finished_ok a m')
      have hright := (hf a).of_le (Nat.le_max_right fuel fuel') (hrest.symm ▸ hfinished)
      refine ⟨max fuel fuel', ?_, hfinished⟩
      exact (Stateful.bind_of_ok _ (hleft.trans hfirst)).trans (hright.trans hrest)
    · refine ⟨fuel, Stateful.bind_of_error _ hstop, ?_⟩
      rintro _ ⟨⟩
      exact hfirst m' rfl

/-- Once the first run has ended with a value, what comes of both is what comes of
the second. -/
theorem ends_bind_of_ok (hx : Steady x) (hf : ∀ a, Steady fun fuel => f fuel a) {m m' : Machine}
    {a : α} (h : Ends x m (.ok a m')) {r : EStateM.Result Stop Machine β} :
    Ends (fun fuel => x fuel >>= f fuel) m r ↔ Ends (fun fuel => f fuel a) m' r := by
  rw [hx.ends_bind_iff hf]
  constructor
  · rintro (⟨b, m'', hb, hr⟩ | ⟨e, m'', he, _⟩)
    · cases hx.ends_unique hb h
      exact hr
    · cases hx.ends_unique he h
  · exact fun hr => .inl ⟨a, m', h, hr⟩

end Steady

/-! ## Evaluation and execution -/

/-- The mirror in which a run may want for fuel. -/
def Mirror.fuel : Mirror := ⟨fun _ => True, (· = .exhausted), False⟩

namespace Mirror

/-- A run with fuel is paired with one that has one unit more, which excuses the first
if its own runs out. -/
theorem paired_fuel (host : Host) (fuel : Nat) :
    Mirror.fuel.pairing.Paired (.ofFuel host fuel) (.ofFuel host (fuel + 1)) :=
  (suits_self host (fun _ _ _ => trivial) (fun _ _ _ => trivial)).paired_succ rfl fuel

/-- Runs that follow each other with growing fuel are steady. -/
theorem steady_of_follows {x : Nat → Run α} {A : Counters → α → α → Prop}
    (h : ∀ fuel c, Mirror.fuel.pairing.Follows c A (x fuel) (x (fuel + 1)))
    (hA : ∀ c a b, A c a b → a = b) : Steady x := by
  intro fuel m hfinished
  obtain ⟨e, m', hr, he⟩ | ⟨heq, _⟩ := lockstep (h fuel m.counters) trivial hA
  · rw [show e = .exhausted from he] at hr
    exact absurd hr (hfinished m')
  · exact heq.symm

/-- Values that stand for each other in a mirror are equal. -/
theorem eq_of_value {S : Mirror} {c : Counters} {v v' : Value} (h : S.pairing.value c v v') :
    v = v' := value_iff.mp h

/-- Flows that stand for each other in a mirror are equal. -/
theorem eq_of_flow {S : Mirror} {c : Counters} {f f' : Flow} (h : S.pairing.flow c f f') :
    f = f' := by
  cases h with
  | normal => rfl
  | returned _ hv => rw [eq_of_value hv]

/-- Every statement fits where returns are not confined by the text. -/
theorem stmt_refl {S : Mirror} (h : ¬ S.confined) (c : Counters) (s : Stmt) :
    S.pairing.stmt c s s := ⟨rfl, fun hc => absurd hc h⟩

/-- Code stands for itself where nothing confines it. -/
theorem stmts_refl {S : Mirror} (h : ¬ S.confined) (c : Counters) (stmts : List Stmt) :
    List.Forall₂ (S.pairing.stmt c) stmts stmts :=
  List.forall₂_same.mpr fun s _ => stmt_refl h c s

end Mirror

open Mirror in
/-- More fuel keeps the value of an expression. -/
theorem steady_evaluate (host : Host) (e : Expr) (scope : FrameId) :
    Steady fun fuel => evaluate host fuel e scope :=
  steady_of_follows (fun fuel _ => (paired_fuel host fuel).eval rfl rfl) fun _ _ _ => eq_of_value

open Mirror in
/-- More fuel keeps the outcome of a statement. -/
theorem steady_execute (host : Host) (s : Stmt) (scope : FrameId) :
    Steady fun fuel => execute host fuel s scope :=
  steady_of_follows (fun fuel c => (paired_fuel host fuel).exec (stmt_refl id c s) rfl)
    fun _ _ _ => eq_of_flow

open Mirror in
/-- More fuel keeps the outcome of a block. -/
theorem steady_block (host : Host) (pos : Position) (stmts : List Stmt) (scope : FrameId) :
    Steady fun fuel => (Recursion.ofFuel host fuel).block host pos stmts scope := by
  have hsuits : Mirror.fuel.Suits host host :=
    suits_self host (fun _ _ _ => trivial) fun _ _ _ => trivial
  -- the pairing does not tell sites apart, so any block serves
  have hpos : Mirror.fuel.pairing.place (.keyword .ifKw) pos pos := rfl
  exact steady_of_follows (fun fuel c => (paired_fuel host fuel).block hsuits.lawful hpos rfl
    (stmts_refl id c.inBlock stmts)) fun _ _ _ => eq_of_flow

end Abacus
