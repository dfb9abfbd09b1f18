import Abacus.Proofs.Eval.Law
import Abacus.Proofs.Eval.Parametric
import Abacus.Proofs.Tree.Returns

/-!
# Abacus.Proofs.Eval.Mirror

Two runs on the same machine.  A `Mirror` compares runs that start from equal
machines and are to give equal results; the world of its pairing is the pair of
counters of the machine, which a block and a call change and restore.  It may
excuse ways to stop, and it may ask that no value is given back outside a call.

`Mirror.lockstep` is what comes of it for two runs that follow each other: equal
results and counters as they were, unless the first run stops in an excused way.
-/

namespace Abacus

/-! ## Counters -/

/-- How many blocks and calls are open, and how many of them are calls. -/
structure Counters where
  depth : Nat
  calls : Nat
deriving DecidableEq, Repr

namespace Counters

/-- The counters inside a block. -/
def inBlock (c : Counters) : Counters := ⟨c.depth + 1, c.calls⟩

/-- The counters inside a call. -/
def inCall (c : Counters) : Counters := ⟨c.depth + 1, c.calls + 1⟩

end Counters

/-- The counters of a machine. -/
def Machine.counters (m : Machine) : Counters := ⟨m.depth, m.calls⟩

/-- The fault of a value given back outside a call. -/
def Stop.IsStrayReturn : Stop → Prop
  | .failed (.runtime .returnOutsideFunction _) => True
  | _ => False

/-- The fault of nesting too deeply. -/
def Stop.IsRecursionLimit : Stop → Prop
  | .failed (.runtime (.recursionLimit _) _) => True
  | _ => False

/-! ## Mirrors -/

/- A mirror compares runs from equal machines, so of a pairing only three things are left to
choose: what holds of the counters, which stops are excused, and whether statements that give
a value back have to be inside a call.  The section ends in `Suits.lawful`; the lemmas before
it check the primitives one by one, and `follows_self` settles those that do not look at the
limit. -/

/-- A way to compare runs that start from equal machines. -/
structure Mirror where
  /-- What holds of the counters throughout. -/
  keeps : Counters → Prop
  /-- The stops of the first run that end the comparison. -/
  excused : Stop → Prop
  /-- Whether every return outside a call is ruled out by the text. -/
  confined : Prop

namespace Mirror

variable (S : Mirror)

/-- Whether a statement may be executed with the given counters. -/
def fits (c : Counters) (s : Stmt) : Prop := S.confined → c.calls ≠ 0 ∨ s.givesBack = false

/-- The pairing of equal machines with known counters. -/
def pairing : Pairing where
  World := Counters
  later := Eq
  inBlock := Counters.inBlock
  inCall := Counters.inCall
  machine c m m' := m = m' ∧ m.counters = c ∧ S.keeps c
  scope _ := Eq
  identity _ := Eq
  code := Eq
  place _ := Eq
  expr _ := Eq
  stmt c s s' := s = s' ∧ S.fits c s
  mayReturn c := c.calls ≠ 0
  stop e e' := e = e' ∧ (S.confined → ¬ e.IsStrayReturn)
  excusedLeft := S.excused
  excusedRight _ := False
  later_refl _ := rfl
  later_trans := Eq.trans
  scope_mono := fun _ h => h
  identity_mono := fun _ h => h
  expr_mono := fun _ h => h
  stmt_mono := by
    rintro w _ s s' rfl h
    exact h
  mayReturn_mono := by
    rintro w _ rfl h
    exact h

/-- Two hosts that differ at most in their limits, the first of which is at most
the second; it is excused to reach it if the limits differ. -/
structure Suits (host host' : Host) : Prop where
  registry : host.registry = host'.registry
  foreign : host.foreign = host'.foreign
  limit_le : host.maxDepth ≤ host'.maxDepth
  limit_eq : host.maxDepth = host'.maxDepth ∨ ∀ e : Stop, e.IsRecursionLimit → S.excused e
  keeps_inBlock : ∀ c, S.keeps c → c.depth < host.maxDepth → S.keeps c.inBlock
  keeps_inCall : ∀ c, S.keeps c → c.depth < host.maxDepth → S.keeps c.inCall

variable {S} {host host' : Host} {α : Type}

/-- In a mirror values stand for themselves only. -/
theorem value_iff {c : Counters} {v v' : Value} : S.pairing.value c v v' ↔ v = v' :=
  Value.alike_same_iff

/-- A run that keeps the counters and stops for no stray return follows
itself. -/
theorem follows_self {c : Counters} {x : Run α} {A : Counters → α → α → Prop}
    (hx : ∀ m, (x.final m).counters = m.counters) (hA : ∀ a, A c a a)
    (hstop : ∀ m e m', x m = .error e m' → ¬ e.IsStrayReturn) : S.pairing.Follows c A x x := by
  rintro m _ ⟨rfl, hc, hkeeps⟩
  have hfinal := hx m
  unfold Run.final at hfinal
  cases hr : x m with
  | ok a m' =>
      rw [hr] at hfinal
      exact .ok rfl ⟨rfl, hfinal.trans hc, hkeeps⟩ (hA a)
  | error e m' =>
      rw [hr] at hfinal
      exact .error rfl ⟨rfl, hfinal.trans hc, hkeeps⟩ ⟨rfl, fun _ => hstop m e m' hr⟩

/-- Writing is its own mirror image. -/
theorem follows_write (c : Counters) (text : String) :
    S.pairing.Follows c S.pairing.any (Run.write text) (Run.write text) := by
  apply follows_self
  · intro m
    unfold Run.final Run.write
    cases m.sink.write text.toUTF8 with
    | mk sink failure => cases failure <;> rfl
  · exact fun _ => trivial
  · intro m e m' hr
    unfold Run.write at hr
    cases hw : m.sink.write text.toUTF8 with
    | mk sink failure =>
        rw [hw] at hr
        cases failure with
        | none => contradiction
        | some failure =>
            cases hr
            exact id

/-- Flushing is its own mirror image. -/
theorem follows_flush (c : Counters) :
    S.pairing.Follows c S.pairing.any Run.flush Run.flush := by
  apply follows_self
  · intro m
    unfold Run.final Run.flush
    cases m.sink.flushError? <;> rfl
  · exact fun _ => trivial
  · intro m e m' hr
    unfold Run.flush at hr
    cases hf : m.sink.flushError? with
    | none =>
        rw [hf] at hr
        contradiction
    | some failure =>
        rw [hf] at hr
        cases hr
        exact id

/-- A run inside a block that cannot be opened stops at the limit, on both sides
or excused. -/
theorem Suits.agrees_limit (h : S.Suits host host') {A : Counters → α → α → Prop} {m : Machine}
    (hkeeps : S.keeps m.counters) (pos : Position) (hlimit : host.maxDepth ≤ m.depth)
    {r : EStateM.Result Stop Machine α}
    (hr : host'.maxDepth ≤ m.depth →
      r = .error (.failed (.runtime (.recursionLimit host'.maxDepth) pos)) m) :
    S.pairing.Agrees m.counters A
      (.error (.failed (.runtime (.recursionLimit host.maxDepth) pos)) m) r := by
  obtain heq | hexcused := h.limit_eq
  · rw [hr (heq ▸ hlimit), heq]
    exact .error rfl ⟨rfl, rfl, hkeeps⟩ ⟨rfl, fun _ => id⟩
  · exact .left (hexcused _ trivial)

/-- A level of depth, if the mirror image of its run is one level deeper. -/
theorem Suits.follows_deeper (h : S.Suits host host') {c : Counters} {x x' : Run Flow}
    (pos : Position) (hx : S.pairing.Follows c.inBlock S.pairing.flow x x') :
    S.pairing.Follows c S.pairing.flow (Run.deeper host.maxDepth pos x)
      (Run.deeper host'.maxDepth pos x') := by
  rintro m _ ⟨rfl, rfl, hkeeps⟩
  obtain hlt | hle := Nat.lt_or_ge m.depth host.maxDepth
  · rw [Run.deeper_of_lt hlt, Run.deeper_of_lt (Nat.lt_of_lt_of_le hlt h.limit_le)]
    have hinner := hx m.enterBlock _ ⟨rfl, rfl, h.keeps_inBlock _ hkeeps hlt⟩
    refine hinner.around ?_
    rintro _ m₁ _ rfl ⟨rfl, hm₁, _⟩
    refine ⟨m.counters, rfl, ⟨rfl, ?_, hkeeps⟩, ?_⟩
    · simp_all [Machine.leaveBlock, Machine.counters, Counters.inBlock]
    · rintro f f' hf
      cases hf with
      | normal => exact .normal
      | returned hr hv => exact .returned hr hv
  · rw [Run.deeper_of_le hle]
    exact h.agrees_limit hkeeps pos hle fun hle' => Run.deeper_of_le hle' pos x'

/-- A call with its level of depth, if the mirror image of its run is inside a call. -/
theorem Suits.follows_insideCall (h : S.Suits host host') {c : Counters} {x x' : Run Flow}
    (pos : Position) (hx : S.pairing.Follows c.inCall S.pairing.flow x x') :
    S.pairing.Follows c (fun c f f' => S.pairing.value c f.value f'.value)
      (Run.insideCall (Run.deeper host.maxDepth pos x))
      (Run.insideCall (Run.deeper host'.maxDepth pos x')) := by
  rintro m _ ⟨rfl, rfl, hkeeps⟩
  obtain hlt | hle := Nat.lt_or_ge m.depth host.maxDepth
  · rw [Run.insideCall_deeper_of_lt hlt,
      Run.insideCall_deeper_of_lt (Nat.lt_of_lt_of_le hlt h.limit_le)]
    have hinner := hx m.enterCall _ ⟨rfl, rfl, h.keeps_inCall _ hkeeps hlt⟩
    refine hinner.around ?_
    rintro _ m₁ _ rfl ⟨rfl, hm₁, _⟩
    refine ⟨m.counters, rfl, ⟨rfl, ?_, hkeeps⟩, ?_⟩
    · simp_all [Machine.leaveCall, Machine.counters, Counters.inCall]
    · rintro f f' hf
      cases hf with
      | normal => exact .none
      | returned hr hv => exact hv
  · rw [Run.insideCall_deeper_of_le hle]
    exact h.agrees_limit hkeeps pos hle fun hle' => Run.insideCall_deeper_of_le hle' pos x'

/-- A statement that fits is made of parts that fit. -/
theorem stmt_congruent {c : Counters} {s : Stmt} (h : S.fits c s) :
    s.Congruent (fun _ => Eq) Eq (List.Forall₂ (S.pairing.stmt c.inBlock)) Eq s := by
  refine .refl (fun _ _ => rfl) (fun _ => rfl) (fun _ => rfl) fun b hb => ?_
  refine List.forall₂_same.mpr fun t ht => ⟨rfl, fun hconfined => ?_⟩
  obtain hcalls | hgives := h hconfined
  · exact .inl hcalls
  · exact .inr (Stmt.givesBack_of_mem_blocks hgives hb t ht)

/-- The primitive runs of two hosts that suit a mirror respect its pairing. -/
theorem Suits.lawful (h : S.Suits host host') : S.pairing.Lawful host host' where
  faithful _ := Likeness.faithful_same
  later_inBlock hw := congrArg Counters.inBlock hw
  scope_inBlock hs := hs
  scope_inCall hs := hs
  expr_congruent := by
    rintro c e _ rfl
    exact .refl (fun _ _ => rfl) (fun _ => rfl) e
  stmt_congruent := by
    rintro c s _ ⟨rfl, hfits⟩
    exact stmt_congruent hfits
  code_inCall := by
    rintro c b _ rfl
    exact List.forall₂_same.mpr fun t _ => ⟨rfl, fun _ => .inl (Nat.succ_ne_zero c.calls)⟩
  get? := by
    rintro c m _ s _ ⟨rfl, _, _⟩ rfl name
    exact Value.rel_alike_same _
  registry c name := by
    rw [h.registry]
    exact Value.rel_alike_same _
  foreign := by
    intro c args args' name hargs
    have heq : args = args' := List.forall₂_eq_eq_eq ▸ hargs.imp fun _ _ => value_iff.mp
    rw [h.foreign, heq]
    exact .refl _
  newChild := by
    rintro c s _ rfl
    exact follows_self (fun _ => rfl) (fun _ => rfl) (fun _ _ _ hr => by contradiction)
  define := by
    intro c s s' v v' name hs hv
    obtain rfl : s = s' := hs
    obtain rfl := value_iff.mp hv
    exact follows_self (fun _ => rfl) (fun _ => trivial) (fun _ _ _ hr => by contradiction)
  close := by
    rintro c s _ b _ name params rfl rfl
    exact follows_self (fun _ => rfl) (fun f => Likeness.closures_same_iff.mpr rfl)
      (fun _ _ _ hr => by contradiction)
  write := follows_write
  flush := follows_flush
  deeper := by
    rintro c site p _ x x' rfl hx
    exact h.follows_deeper p hx
  insideCall := by
    rintro c site p _ x x' rfl hx
    exact h.follows_insideCall p hx
  returns := by
    rintro _ m _ v _ p _ ⟨heq, hfits⟩ ⟨rfl, rfl, _⟩
    cases heq
    by_cases hcalls : m.calls = 0
    · refine .inl ⟨hcalls, hcalls, rfl, fun hconfined => ?_⟩
      obtain hne | hgives := hfits hconfined
      · exact absurd hcalls hne
      · contradiction
    · exact .inr ⟨hcalls, hcalls, hcalls⟩
  fault := by
    rintro site f p _ hf rfl
    refine ⟨rfl, fun _ hstray => ?_⟩
    cases hf <;> exact hstray
  io _ := ⟨rfl, fun _ => id⟩

/-! ## Lockstep -/

/-- **Lockstep**: two runs that follow each other in a mirror give the same
result, with the counters as they were and no stray return if these are ruled
out; unless the first run stops in an excused way. -/
theorem lockstep {x y : Run α} {A : Counters → α → α → Prop} {m : Machine}
    (hxy : S.pairing.Follows m.counters A x y) (hkeeps : S.keeps m.counters)
    (hA : ∀ c a b, A c a b → a = b) :
    (∃ e m', x m = .error e m' ∧ S.excused e) ∨
    (x m = y m ∧ (x.final m).counters = m.counters ∧
      (∀ a m', x m = .ok a m' → A m.counters a a) ∧
      ∀ e m', x m = .error e m' → S.confined → ¬ e.IsStrayReturn) := by
  have h := hxy m m ⟨rfl, rfl, hkeeps⟩
  unfold Run.final
  generalize x m = r, y m = r' at h ⊢
  cases h with
  | ok hw hm hab =>
      obtain ⟨rfl, hm, _⟩ := hm
      obtain rfl := hA _ _ _ hab
      subst hw
      refine .inr ⟨rfl, hm, ?_, fun _ _ hr => by contradiction⟩
      rintro _ _ ⟨⟩
      exact hab
  | error hw hm he =>
      obtain ⟨rfl, hm, _⟩ := hm
      obtain ⟨rfl, hstray⟩ := he
      subst hw
      refine .inr ⟨rfl, hm, fun _ _ hr => by contradiction, ?_⟩
      rintro _ _ ⟨⟩
      exact hstray
  | left he => exact .inl ⟨_, _, rfl, he⟩
  | right he => exact he.elim

end Mirror

end Abacus
