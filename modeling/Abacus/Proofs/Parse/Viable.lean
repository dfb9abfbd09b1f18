import Mathlib.Data.Set.Insert
import Abacus.Proofs.Parse.Complete
import Abacus.Proofs.Token.Pattern

/-!
# Abacus.Proofs.Parse.Viable

How far a parser looks, and how what it has read can go on.  A parser is compared with
a family of parsers, the same rule with every amount of fuel; `Yields` says what a parser
gives unless its fuel runs out.

`Steady S p q` says that `p` looks no further than the token it stops at.  Where it gives
a value, so do the parsers of `q` whatever follows, if the token after the value is one of
`S`; where it meets a fault, so do they in front of the same token.  Two tokens are looked
at before an assignment, but the second of them matters there for a limit only.  And what
was read before a fault can go on: there are tokens that the parsers of `q` read after it,
in front of whatever `S` allows (`late`).

`Feasible n F S q` says that there are tokens for the whole of a rule, the first of them in
`F`.  A parser that is steady is `Viable` if it is feasible wherever it meets a fault
before it takes a token, and `Ready` if it is so at every nesting below a bound.  One rule
after another is steady if the second one is ready: what the first rule lacks is put in,
and then a sample of the second one.
-/

namespace Abacus

/-- A token as the scanner makes it, short of the end of input: a number is spelled as
one. -/
structure Token.Proper (t : Token) : Prop where
  ne_endOfInput : t.kind ≠ .endOfInput
  spelled : t.kind = .number → Scan.Matches .number t.lexeme.toList

namespace Parse

open Stateful

variable {α β : Type}

/-! ## Tokens that are put in -/

/-- Some token of the given kind. -/
def sample (kind : Kind) : Token := ⟨kind, "1", .first⟩

/-- A sample is a token that the scanner makes. -/
theorem proper_sample {kind : Kind} (h : kind ≠ .endOfInput) : (sample kind).Proper :=
  ⟨h, fun _ => .whole (by simp [sample]) (by simp [sample])⟩

/-- Tokens that the scanner may make. -/
def Proper (ts : List Token) : Prop := ∀ t ∈ ts, t.Proper

theorem Proper.append {ts us : List Token} (hts : Proper ts) (hus : Proper us) :
    Proper (ts ++ us) := fun t ht => (List.mem_append.mp ht).elim (hts t) (hus t)

/-- Samples may stand in front of tokens that the scanner makes. -/
theorem Proper.cons_sample {kind : Kind} {us : List Token} (h : kind ≠ .endOfInput)
    (hus : Proper us) : Proper (sample kind :: us) := by
  intro t ht
  obtain rfl | ht := List.mem_cons.mp ht
  · exact proper_sample h
  · exact hus t ht

theorem proper_nil : Proper [] := by simp [Proper]

/-! ## Outcomes up to fuel -/

/-- The outcome of a parser. -/
abbrev Outcome (α : Type) := EStateM.Result ParseStop Cursor α

/-- The outcome is the given one, unless the fuel ran out. -/
def Yields (x r : Outcome α) : Prop := x = r ∨ ∃ c, x = .error .exhausted c

namespace Yields

variable {p : Parser α} {f : α → Parser β} {c c₁ : Cursor}

theorem refl (x : Outcome α) : Yields x x := .inl rfl

theorem exhausted (r : Outcome α) (c : Cursor) : Yields (.error .exhausted c) r := .inr ⟨c, rfl⟩

/-- A parser that gives a value goes on with the next one. -/
theorem bind {a : α} {r : Outcome β} (hp : Yields (p c) (.ok a c₁)) (hf : Yields (f a c₁) r) :
    Yields ((p >>= f) c) r := by
  obtain hp | ⟨c', hp⟩ := hp
  · rw [bind_of_ok f hp]
    exact hf
  · exact .inr ⟨c', bind_of_error f hp⟩

/-- A parser that meets a fault is not followed by the next one. -/
theorem bind_error {e : ParseStop} (hp : Yields (p c) (.error e c₁)) :
    Yields ((p >>= f) c) (.error e c₁) := by
  obtain hp | ⟨c', hp⟩ := hp
  · exact .inl (bind_of_error f hp)
  · exact .inr ⟨c', bind_of_error f hp⟩

/-- Below the limit a level of nesting is counted and given back. -/
theorem nested {what : Construct} {ts us : List Token} {n : Nat} {a : α} (hn : n < nestingLimit)
    (hp : Yields (p ⟨ts, n + 1⟩) (.ok a ⟨us, n + 1⟩)) :
    Yields (Parse.nested what p ⟨ts, n⟩) (.ok a ⟨us, n⟩) := by
  obtain hp | ⟨c', hp⟩ := hp
  · have hnested := nested_of_ok (c := ⟨ts, n⟩) what hn hp
    exact .inl hnested
  · exact .inr ⟨c', nested_of_error what hn hp⟩

/-- A fault inside keeps the level counted. -/
theorem nested_error {what : Construct} {ts : List Token} {n : Nat} {e : ParseStop}
    (hn : n < nestingLimit) (hp : Yields (p ⟨ts, n + 1⟩) (.error e c₁)) :
    Yields (Parse.nested what p ⟨ts, n⟩) (.error e c₁) := by
  obtain hp | ⟨c', hp⟩ := hp
  · exact .inl (nested_of_error what hn hp)
  · exact .inr ⟨c', nested_of_error what hn hp⟩

end Yields

/-! ## The notions -/

/-- There are tokens, the first of them in `F`, that are read at the nesting `n` with any
fuel, whatever follows that starts with one of `S`. -/
def Feasible (n : Nat) (F S : Set Kind) (q : Nat → Parser α) : Prop :=
  ∃ us a, Proper us ∧ ∀ tail, next tail ∈ S →
    next (us ++ tail) ∈ F ∧ ∀ i, Yields (q i ⟨us ++ tail, n⟩) (.ok a ⟨tail, n⟩)

/-- A fault that other tokens would have avoided: it is no limit, and not about the text
of a token that was taken. -/
def Avoidable (e : GrammarError) : Prop :=
  e.expected.isLimit = false ∧ e.expected ≠ .numericLiteral

/-- The tokens that are left are the last ones, and only a parser that stops may leave
constructs open. -/
structure Falls (p : Parser α) : Prop where
  ok_rest : ∀ {c c' : Cursor} {a : α}, p c = .ok a c' →
    c'.rest <:+ c.rest ∧ c'.nesting = c.nesting
  error_rest : ∀ {c c' : Cursor} {e : ParseStop}, p c = .error e c' →
    c'.rest <:+ c.rest ∧ c.nesting ≤ c'.nesting

/-- What `p` does with the tokens `ts` and those that follow, if it stops before or right
after the last of `ts`, is done with any fuel; and what was taken before a fault can go
on. -/
structure Along (S : Set Kind) (p : Parser α) (q : Nat → Parser α) (ts : List Token) : Prop where
  ok : ∀ {us r r' : List Token} {n : Nat} {a : α}, p ⟨ts ++ r, n⟩ = .ok a ⟨us ++ r, n⟩ →
    (us = [] → next r' ∈ S) → ∀ i, Yields (q i ⟨ts ++ r', n⟩) (.ok a ⟨us ++ r', n⟩)
  fault : ∀ {us r r' : List Token} {n m : Nat} {e : GrammarError}, us ≠ [] →
    p ⟨ts ++ r, n⟩ = .error (.fault e) ⟨us ++ r, m⟩ →
    (e.expected.isLimit = true → next r' = next r) →
    ∀ i, Yields (q i ⟨ts ++ r', n⟩) (.error (.fault e) ⟨us ++ r', m⟩)
  late : ∀ {r : List Token} {n m : Nat} {e : GrammarError}, ts ≠ [] → Avoidable e →
    m < nestingLimit → p ⟨ts ++ r, n⟩ = .error (.fault e) ⟨r, m⟩ →
    ∃ us a, Proper us ∧ ∀ tail, next tail ∈ S →
      ∀ i, Yields (q i ⟨ts ++ (us ++ tail), n⟩) (.ok a ⟨tail, n⟩)

/-- The parser looks no further than the token it stops at, whatever it has taken
before. -/
structure Steady (S : Set Kind) (p : Parser α) (q : Nat → Parser α) : Prop extends Falls p where
  along : ∀ ts, Along S p q ts

/-- A steady parser that is feasible where it meets a fault before it takes a token. -/
structure Viable (F S : Set Kind) (p : Parser α) (q : Nat → Parser α) : Prop
    extends Steady S p q where
  idle : ∀ {r : List Token} {n m : Nat} {e : GrammarError}, Avoidable e → m < nestingLimit →
    p ⟨r, n⟩ = .error (.fault e) ⟨r, m⟩ → Feasible n F S q

/-- A steady parser that is feasible at every nesting below `b`. -/
structure Ready (b : Nat) (F S : Set Kind) (p : Parser α) (q : Nat → Parser α) : Prop
    extends Steady S p q where
  feasible : ∀ n < b, Feasible n F S q

variable {F S T : Set Kind} {p : Parser α} {q : Nat → Parser α}
variable {f : α → Parser β} {g : Nat → α → Parser β} {n b : Nat}

/-- A value given without taking a token is given in front of whatever may follow. -/
theorem Steady.ok_idle (h : Steady S p q) {r r' : List Token} {a : α}
    (hp : p ⟨r, n⟩ = .ok a ⟨r, n⟩) (hr' : next r' ∈ S) (i : Nat) :
    Yields (q i ⟨r', n⟩) (.ok a ⟨r', n⟩) :=
  @Along.ok α S p q [] (h.along []) [] r r' n a hp (fun _ => hr') i

/-- What is ready below the limit is viable: a fault met before it takes a token leaves
the nesting as it is. -/
theorem Ready.viable (h : Ready b F S p q) (hb : nestingLimit ≤ b) : Viable F S p q := by
  refine ⟨h.toSteady, fun {r n m e} _ hm hp => h.feasible n ?_⟩
  have hnesting : n ≤ m := (h.error_rest hp).2
  omega

/-- What was read before a fault can go on, also if that is nothing. -/
theorem Viable.completes (h : Viable F S p q) {ts r : List Token} {n m : Nat} {e : GrammarError}
    (he : Avoidable e) (hm : m < nestingLimit) (hp : p ⟨ts ++ r, n⟩ = .error (.fault e) ⟨r, m⟩) :
    ∃ us a, Proper us ∧ ∀ tail, next tail ∈ S →
      (ts = [] → next (us ++ tail) ∈ F) ∧
        ∀ i, Yields (q i ⟨ts ++ (us ++ tail), n⟩) (.ok a ⟨tail, n⟩) := by
  cases ts with
  | nil =>
      obtain ⟨us, a, hus, hfeasible⟩ := h.idle he hm hp
      exact ⟨us, a, hus, fun tail htail => (hfeasible tail htail).imp_left fun hF _ => hF⟩
  | cons t ts =>
      obtain ⟨us, a, hus, hlate⟩ := (h.along (t :: ts)).late (List.cons_ne_nil t ts) he hm hp
      exact ⟨us, a, hus, fun tail htail => ⟨fun h => absurd h (List.cons_ne_nil t ts),
        hlate tail htail⟩⟩

/-! ## What is left -/

namespace Falls

theorem pure (a : α) : Falls (Pure.pure a : Parser α) where
  ok_rest h := by
    cases h
    exact ⟨List.suffix_rfl, rfl⟩
  error_rest h := by contradiction

/-- A parser that stops where it stands. -/
theorem of_error {stop : Cursor → ParseStop} (h : ∀ c, p c = .error (stop c) c) : Falls p where
  ok_rest hp := by
    rw [h] at hp
    contradiction
  error_rest hp := by
    rw [h] at hp
    cases hp
    exact ⟨List.suffix_rfl, Nat.le_refl _⟩

/-- One parser after another. -/
theorem bind (hp : Falls p) (hf : ∀ a, Falls (f a)) : Falls (p >>= f) where
  ok_rest h := by
    obtain ⟨a, c₁, ha, h⟩ := bind_eq_ok h
    obtain ⟨hrest, hnesting⟩ := hp.ok_rest ha
    obtain ⟨hrest', hnesting'⟩ := (hf a).ok_rest h
    exact ⟨hrest'.trans hrest, hnesting'.trans hnesting⟩
  error_rest h := by
    obtain h | ⟨a, c₁, ha, h⟩ := bind_eq_error h
    · exact hp.error_rest h
    · obtain ⟨hrest, hnesting⟩ := hp.ok_rest ha
      obtain ⟨hrest', hnesting'⟩ := (hf a).error_rest h
      exact ⟨hrest'.trans hrest, hnesting ▸ hnesting'⟩

/-- What is left cannot be longer than what there was. -/
theorem eq_nil_of_suffix {us r : List Token} (h : us ++ r <:+ r) : us = [] := by
  have hlength := h.length_le
  simp only [List.length_append] at hlength
  exact List.eq_nil_of_length_eq_zero (by omega)

/-- Where the second rule leaves tokens, the first one left them too. -/
theorem exists_of_suffix {c : Cursor} {r : List Token} {n : Nat} (us : List Token)
    (h : us ++ r <:+ c.rest) (hn : c.nesting = n) : ∃ vs, c = ⟨(vs ++ us) ++ r, n⟩ := by
  obtain ⟨vs, hvs⟩ := h
  exact ⟨vs, by rw [List.append_assoc, hvs, ← hn]⟩

end Falls

/-! ## Wider and narrower sets -/

/-- More may stand in front, and less may follow. -/
theorem Feasible.mono {F' S' : Set Kind} (h : Feasible n F S q) (hF : F ⊆ F') (hS : S' ⊆ S) :
    Feasible n F' S' q := by
  obtain ⟨us, a, hus, hfeasible⟩ := h
  exact ⟨us, a, hus, fun tail htail => (hfeasible tail (hS htail)).imp_left fun h => hF h⟩

/-- Less may follow. -/
theorem Along.mono {S' : Set Kind} {ts : List Token} (h : Along S p q ts) (hS : S' ⊆ S) :
    Along S' p q ts where
  ok hp hr' := h.ok hp fun hus => hS (hr' hus)
  fault := h.fault
  late hts he hm hp := by
    obtain ⟨us, a, hus, hlate⟩ := h.late hts he hm hp
    exact ⟨us, a, hus, fun tail htail => hlate tail (hS htail)⟩

theorem Steady.mono {S' : Set Kind} (h : Steady S p q) (hS : S' ⊆ S) : Steady S' p q :=
  ⟨h.toFalls, fun ts => (h.along ts).mono hS⟩

/-- More may stand in front, and less may follow. -/
theorem Ready.mono {F' S' : Set Kind} (h : Ready b F S p q) (hF : F ⊆ F') (hS : S' ⊆ S) :
    Ready b F' S' p q :=
  ⟨h.toSteady.mono hS, fun n hn => (h.feasible n hn).mono hF hS⟩

/-! ## Other parsers and less fuel -/

/-- Parsers that do the same at a cursor leave the same tokens there. -/
theorem Falls.congr (h : ∀ c, ∃ p', Falls p' ∧ p c = p' c) : Falls p where
  ok_rest {c c' a} hp := by
    obtain ⟨p', hp', hc⟩ := h c
    exact hp'.ok_rest (hc ▸ hp)
  error_rest {c c' e} hp := by
    obtain ⟨p', hp', hc⟩ := h c
    exact hp'.error_rest (hc ▸ hp)

/-- In front of the tokens `ts` both sides are other parsers, or there is no fuel. -/
theorem Along.congr {p' : Parser α} {q' : Nat → Parser α} {ts : List Token}
    (h' : Along S p' q' ts) (hp : ∀ r n, p ⟨ts ++ r, n⟩ = p' ⟨ts ++ r, n⟩)
    (hq : ∀ i r n, q i ⟨ts ++ r, n⟩ = q' i ⟨ts ++ r, n⟩) : Along S p q ts where
  ok h hr' := by
    simp only [hp] at h
    simp only [hq]
    exact h'.ok h hr'
  fault hus h hlimit := by
    simp only [hp] at h
    simp only [hq]
    exact h'.fault hus h hlimit
  late hts he hm h := by
    simp only [hp] at h
    simp only [hq]
    exact h'.late hts he hm h

/-- A family that is out of fuel here and there. -/
def Starved (q q' : Nat → Parser α) : Prop := ∀ i, q i = q' i ∨ q i = Parse.exhausted

/-- Running out of fuel here and there is no other outcome. -/
theorem Starved.yields {q' : Nat → Parser α} (hq : Starved q q') {c : Cursor} {r : Outcome α}
    (h : ∀ i, Yields (q' i c) r) (i : Nat) : Yields (q i c) r := by
  obtain hi | hi := hq i
  · rw [hi]
    exact h i
  · rw [hi]
    exact .exhausted r c

/-- Fuel that runs out costs no feasibility. -/
theorem Feasible.starved {q' : Nat → Parser α} (h : Feasible n F S q') (hq : Starved q q') :
    Feasible n F S q := by
  obtain ⟨us, a, hus, hfeasible⟩ := h
  exact ⟨us, a, hus, fun tail htail => (hfeasible tail htail).imp_right hq.yields⟩

/-- Fuel that runs out costs no steadiness. -/
theorem Steady.starved {q' : Nat → Parser α} (h : Steady S p q') (hq : Starved q q') :
    Steady S p q where
  toFalls := h.toFalls
  along ts :=
    { ok := fun hp hr' => hq.yields ((h.along ts).ok hp hr')
      fault := fun hus hp hlimit => hq.yields ((h.along ts).fault hus hp hlimit)
      late := fun hts he hm hp => by
        obtain ⟨us, a, hus, hlate⟩ := (h.along ts).late hts he hm hp
        exact ⟨us, a, hus, fun tail htail => hq.yields (hlate tail htail)⟩ }

/-- Fuel that runs out costs no viability. -/
theorem Viable.starved {q' : Nat → Parser α} (h : Viable F S p q') (hq : Starved q q') :
    Viable F S p q :=
  ⟨h.toSteady.starved hq, fun he hm hp => (h.idle he hm hp).starved hq⟩

/-- A rule that calls itself has no fuel at first, and one step less from then on. -/
theorem starved_of_zero (step : Nat → Nat → Parser α) (h : ∀ i, step i 0 = Parse.exhausted)
    (fuel : Nat → Nat) :
    Starved (fun i => step i (fuel i)) fun i => step i (fuel i - 1 + 1) := by
  intro i
  show step i (fuel i) = step i (fuel i - 1 + 1) ∨ step i (fuel i) = _
  cases fuel i with
  | zero => exact .inr (h i)
  | succ m => exact .inl rfl

/-! ## Parsers that take nothing -/

/-- Where a parser that takes nothing stands, the tokens before it are those that were. -/
theorem eq_of_cursor_eq {ts us r : List Token} {n m : Nat}
    (h : (⟨ts ++ r, n⟩ : Cursor) = ⟨us ++ r, m⟩) : ts = us ∧ n = m := by
  injection h with hrest hnesting
  exact ⟨List.append_cancel_right hrest, hnesting⟩

theorem Feasible.pure (hS : S ⊆ F) (a : α) : Feasible n F S fun _ => Pure.pure a :=
  ⟨[], a, proper_nil, fun _ htail => ⟨hS htail, fun _ => .refl _⟩⟩

/-- What is given at once is given with any fuel. -/
theorem Along.pure (a : α) (ts : List Token) :
    Along S (Pure.pure a : Parser α) (fun _ => Pure.pure a) ts where
  ok h _ _ := by
    injection h with ha hc
    obtain ⟨rfl, _⟩ := eq_of_cursor_eq hc
    exact .inl (by rw [← ha]; rfl)
  fault _ h := by contradiction
  late _ _ _ h := by contradiction

theorem Steady.pure (a : α) : Steady S (Pure.pure a) fun _ => Pure.pure a :=
  ⟨.pure a, .pure a⟩

/-- A value given at once needs no tokens; what follows it stands in front. -/
theorem Ready.pure (hS : S ⊆ F) (a : α) : Ready b F S (Pure.pure a) fun _ => Pure.pure a :=
  ⟨.pure a, fun _ _ => .pure hS a⟩

/-- A parser that stops where it stands, with a fault that depends on the next token
only. -/
theorem Along.of_error {stop : Token → GrammarError}
    (hp : ∀ c, p c = .error (.fault (stop c.current)) c)
    (hq : ∀ i c, q i c = .error (.fault (stop c.current)) c) (ts : List Token) :
    Along S p q ts where
  ok h _ := by
    rw [hp] at h
    contradiction
  fault {us r r' n m e} hus h _ i := by
    rw [hp] at h
    injection h with he hc
    obtain ⟨rfl, rfl⟩ := eq_of_cursor_eq hc
    obtain ⟨t, ts, rfl⟩ := List.exists_cons_of_ne_nil hus
    injection he with he
    exact .inl (by rw [hq, ← he]; rfl)
  late {r n m e} hts _ _ h := by
    rw [hp] at h
    injection h with _ hc
    injection hc with hrest _
    exact absurd (List.append_left_eq_self.mp hrest) hts

/-- A parser that always stops where it stands looks at one token at most. -/
theorem Steady.of_error {stop : Token → GrammarError}
    (hp : ∀ c, p c = .error (.fault (stop c.current)) c)
    (hq : ∀ i c, q i c = .error (.fault (stop c.current)) c) : Steady S p q :=
  ⟨.of_error hp, .of_error hp hq⟩

theorem Steady.fail (expected : Expected) :
    Steady S (Parse.fail expected : Parser α) fun _ => Parse.fail expected :=
  .of_error (fun _ => rfl) fun _ _ => rfl

/-- A fault that is not to be avoided. -/
theorem Viable.of_error (stop : Token → GrammarError) (hstop : ∀ t, ¬ Avoidable (stop t))
    (hp : ∀ c, p c = .error (.fault (stop c.current)) c)
    (hq : ∀ i c, q i c = .error (.fault (stop c.current)) c) : Viable F S p q := by
  refine ⟨.of_error hp hq, fun he _ h => ?_⟩
  rw [hp] at h
  cases h
  exact absurd he (hstop _)

/-- Without fuel there is nothing to compare. -/
theorem Steady.exhausted : Steady S (Parse.exhausted : Parser α) q where
  toFalls := .of_error fun _ => rfl
  along _ :=
    { ok := fun h _ => by contradiction
      fault := fun _ h => by cases h
      late := fun _ _ _ h => by cases h }

/-- A parser without fuel stops with no fault to be blamed on a token. -/
theorem Viable.exhausted : Viable F S (Parse.exhausted : Parser α) q :=
  ⟨.exhausted, fun _ _ h => by cases h⟩

/-! ## One rule after another -/

/-- The tokens for one rule, then those for the next. -/
theorem Feasible.bind (hq : Feasible n F T q) (hg : ∀ a, Feasible n T S fun i => g i a) :
    Feasible n F S fun i => q i >>= g i := by
  obtain ⟨us, a, hus, hq⟩ := hq
  obtain ⟨vs, b, hvs, hg⟩ := hg a
  refine ⟨us ++ vs, b, hus.append hvs, fun tail htail => ?_⟩
  obtain ⟨hT, hg⟩ := hg tail htail
  rw [List.append_assoc]
  exact ⟨(hq _ hT).1, fun i => ((hq _ hT).2 i).bind (hg i)⟩

/-- One rule after another along given tokens. If the first one stops within them, so
does the second start there; a fault of the first one is followed by what it lacks, and
by a sample of the second one. -/
theorem Along.bind {ts : List Token} (h : Along T p q ts) (hp : Falls p)
    (hf : ∀ a, Ready b T S (f a) fun i => g i a) (hb : nestingLimit ≤ b) (hS : S ⊆ T) :
    Along S (p >>= f) (fun i => q i >>= g i) ts where
  ok hok hr' i := by
    obtain ⟨a, c₁, ha, hok⟩ := bind_eq_ok hok
    obtain ⟨vs, rfl⟩ := Falls.exists_of_suffix _ ((hf a).ok_rest hok).1 (hp.ok_rest ha).2
    have hvs : vs ++ _ = [] → next _ ∈ T := fun hnil => hS (hr' (List.append_eq_nil_iff.mp hnil).2)
    exact (h.ok ha hvs i).bind (((hf a).along _).ok hok hr' i)
  fault {us r r' n m e} hus hfault hlimit i := by
    obtain hfault | ⟨a, c₁, ha, hfault⟩ := bind_eq_error hfault
    · exact (h.fault hus hfault hlimit i).bind_error
    · obtain ⟨vs, rfl⟩ := Falls.exists_of_suffix _ ((hf a).error_rest hfault).1 (hp.ok_rest ha).2
      have hne : vs ++ us ≠ [] := List.append_ne_nil_of_right_ne_nil vs hus
      exact (h.ok ha (fun hnil => absurd hnil hne) i).bind
        (((hf a).along _).fault hus hfault hlimit i)
  late {r n m e} hts he hm hfault := by
    obtain hfault | ⟨a, c₁, ha, hfault⟩ := bind_eq_error hfault
    · -- the first rule is completed, and the second one put in
      have hn : n < b := Nat.lt_of_le_of_lt (hp.error_rest hfault).2 (Nat.lt_of_lt_of_le hm hb)
      obtain ⟨us, a, hus, hlate⟩ := h.late hts he hm hfault
      obtain ⟨vs, b, hvs, hfeasible⟩ := (hf a).feasible n hn
      refine ⟨us ++ vs, b, hus.append hvs, fun tail htail i => ?_⟩
      obtain ⟨hT, hfeasible⟩ := hfeasible tail htail
      rw [List.append_assoc us]
      exact (hlate _ hT i).bind (hfeasible i)
    · have hsuffix := ((hf a).error_rest hfault).1
      obtain ⟨vs, rfl⟩ := Falls.exists_of_suffix [] hsuffix (hp.ok_rest ha).2
      obtain ⟨us, b, hus, hlate⟩ := ((hf a).viable hb).completes he hm hfault
      refine ⟨us, b, hus, fun tail htail i => ?_⟩
      obtain ⟨hT, hlate⟩ := hlate tail htail
      exact (h.ok ha hT i).bind (hlate i)

/-- One rule after another is steady if the second one is ready. -/
theorem Steady.bind (hp : Steady T p q) (hf : ∀ a, Ready b T S (f a) fun i => g i a)
    (hb : nestingLimit ≤ b) (hS : S ⊆ T) : Steady S (p >>= f) fun i => q i >>= g i :=
  ⟨hp.toFalls.bind fun a => (hf a).toFalls, fun ts => (hp.along ts).bind hp.toFalls hf hb hS⟩

/-- One rule after another is viable if the first one is and the second one is ready. -/
theorem Viable.bind (hp : Viable F T p q) (hf : ∀ a, Ready b T S (f a) fun i => g i a)
    (hb : nestingLimit ≤ b) (hS : S ⊆ T) (hF : T ⊆ F) :
    Viable F S (p >>= f) fun i => q i >>= g i := by
  refine ⟨hp.toSteady.bind hf hb hS, fun {r n m e} he hm h => ?_⟩
  obtain h | ⟨a, c₁, ha, h⟩ := bind_eq_error h
  · have hn : n < b := Nat.lt_of_le_of_lt (hp.error_rest h).2 (Nat.lt_of_lt_of_le hm hb)
    exact (hp.idle he hm h).bind fun a => (hf a).feasible n hn
  · -- neither of the two takes a token, so the first one gives its value anywhere
    have hsuffix := ((hf a).error_rest h).1
    obtain ⟨vs, rfl⟩ := Falls.exists_of_suffix [] hsuffix (hp.ok_rest ha).2
    obtain rfl : vs = [] := Falls.eq_nil_of_suffix (by simpa using (hp.ok_rest ha).1)
    obtain ⟨us, b, hus, hfeasible⟩ := ((hf a).viable hb).idle he hm h
    refine ⟨us, b, hus, fun tail htail => ?_⟩
    obtain ⟨hT, hfeasible⟩ := hfeasible tail htail
    refine ⟨hF hT, fun i => ?_⟩
    exact (hp.ok_idle ha hT i).bind (hfeasible i)

/-- One rule after another is ready if both are. -/
theorem Ready.bind (hp : Ready b F T p q) (hf : ∀ a, Ready b T S (f a) fun i => g i a)
    (hb : nestingLimit ≤ b) (hS : S ⊆ T) : Ready b F S (p >>= f) fun i => q i >>= g i :=
  ⟨hp.toSteady.bind hf hb hS, fun n hn => (hp.feasible n hn).bind fun a => (hf a).feasible n hn⟩

/-- A value that is only wrapped up. -/
theorem Steady.wrap (g : α → β) (hp : Steady T p q) (hS : S ⊆ T) :
    Steady S (p >>= fun a => Pure.pure (g a)) fun i => q i >>= fun a => Pure.pure (g a) :=
  hp.bind (fun a => .pure hS (g a)) (le_refl nestingLimit) hS

/-- A value that is only wrapped up. -/
theorem Viable.wrap (g : α → β) (hp : Viable F T p q) (hS : S ⊆ T) (hF : T ⊆ F) :
    Viable F S (p >>= fun a => Pure.pure (g a)) fun i => q i >>= fun a => Pure.pure (g a) :=
  hp.bind (fun a => .pure hS (g a)) (le_refl nestingLimit) hS hF

theorem Ready.wrap (g : α → β) (hp : Ready b F T p q) (hS : S ⊆ T) :
    Ready b F S (p >>= fun a => Pure.pure (g a)) fun i => q i >>= fun a => Pure.pure (g a) :=
  ⟨hp.toSteady.wrap g hS, fun n hn => (hp.feasible n hn).bind fun a => .pure hS (g a)⟩

/-! ## Nesting -/

/-- A rule that is counted and read was within the limit. -/
theorem nested_eq_ok {what : Construct} {ts : List Token} {a : α} {c' : Cursor}
    (h : nested what p ⟨ts, n⟩ = .ok a c') :
    n < nestingLimit ∧ ∃ c₁, p ⟨ts, n + 1⟩ = .ok a c₁ ∧ c' = ⟨c₁.rest, c₁.nesting - 1⟩ := by
  by_cases hn : n < nestingLimit
  · cases hp : p ⟨ts, n + 1⟩ with
    | ok b c₁ =>
        rw [nested_of_ok what hn hp] at h
        cases h
        exact ⟨hn, c₁, rfl, rfl⟩
    | error e c₁ =>
        rw [nested_of_error what hn hp] at h
        contradiction
  · rw [nested_of_le what (Nat.not_lt.mp hn)] at h
    contradiction

/-- A rule that is counted and fails did so inside, or is at the limit itself. -/
theorem nested_eq_error {what : Construct} {ts : List Token} {e : ParseStop} {c' : Cursor}
    (h : nested what p ⟨ts, n⟩ = .error e c') :
    n < nestingLimit ∧ p ⟨ts, n + 1⟩ = .error e c' ∨
      nestingLimit ≤ n ∧ c' = ⟨ts, n⟩ ∧
        e = .fault (.atToken (.shallower what) (⟨ts, n⟩ : Cursor).current) := by
  by_cases hn : n < nestingLimit
  · cases hp : p ⟨ts, n + 1⟩ with
    | ok b c₁ =>
        rw [nested_of_ok what hn hp] at h
        contradiction
    | error e c₁ =>
        rw [nested_of_error what hn hp] at h
        cases h
        exact .inl ⟨hn, rfl⟩
  · have hn := Nat.not_lt.mp hn
    rw [nested_of_le what hn] at h
    cases h
    exact .inr ⟨hn, rfl, rfl⟩

/-- One level deeper there must be room for the sample. -/
theorem Feasible.nested {what : Construct} (h : Feasible (n + 1) F S q) (hn : n < nestingLimit) :
    Feasible n F S fun i => Parse.nested what (q i) := by
  obtain ⟨us, a, hus, hfeasible⟩ := h
  exact ⟨us, a, hus, fun tail htail => (hfeasible tail htail).imp_right fun h i => (h i).nested hn⟩

/-- A level that is counted and given back leaves the nesting as it was. -/
theorem Falls.nested {what : Construct} (h : Falls p) : Falls (Parse.nested what p) where
  ok_rest {c c' a} hp := by
    obtain ⟨_, c₁, hinner, rfl⟩ := nested_eq_ok hp
    obtain ⟨hrest, hnesting⟩ := h.ok_rest hinner
    exact ⟨hrest, by rw [hnesting]; rfl⟩
  error_rest {c c' e} hp := by
    obtain ⟨_, hinner⟩ | ⟨_, rfl, _⟩ := nested_eq_error hp
    · obtain ⟨hrest, hnesting⟩ := h.error_rest hinner
      exact ⟨hrest, Nat.le_of_succ_le hnesting⟩
    · exact ⟨List.suffix_rfl, Nat.le_refl _⟩

/-- A value given inside one more level is given at that level. -/
theorem Falls.of_nested (h : Falls p) {what : Construct} {ts us : List Token} {a : α}
    (hp : Parse.nested what p ⟨ts, n⟩ = .ok a ⟨us, n⟩) :
    n < nestingLimit ∧ p ⟨ts, n + 1⟩ = .ok a ⟨us, n + 1⟩ := by
  obtain ⟨hn, ⟨rest, k⟩, hinner, hc⟩ := nested_eq_ok hp
  obtain rfl : k = n + 1 := (h.ok_rest hinner).2
  cases hc
  exact ⟨hn, hinner⟩

/-- A counted rule along given tokens; at the limit, the fault is about the next token
alone. -/
theorem Along.nested {what : Construct} {ts : List Token} (h : Along S p q ts) (hp : Falls p) :
    Along S (Parse.nested what p) (fun i => Parse.nested what (q i)) ts where
  ok hok hr' i := by
    obtain ⟨hn, hok⟩ := hp.of_nested hok
    exact (h.ok hok hr' i).nested hn
  fault {us r r' n m e} hus hfault hlimit i := by
    obtain ⟨hn, hfault⟩ | ⟨hn, hc, he⟩ := nested_eq_error hfault
    · exact (h.fault hus hfault hlimit i).nested_error hn
    · obtain ⟨rfl, rfl⟩ := eq_of_cursor_eq hc
      obtain ⟨t, us, rfl⟩ := List.exists_cons_of_ne_nil hus
      exact .inl (by rw [nested_of_le what hn, he]; rfl)
  late {r n m e} hts he hm hfault := by
    obtain ⟨hn, hfault⟩ | ⟨_, hc, _⟩ := nested_eq_error hfault
    · obtain ⟨us, a, hus, hlate⟩ := h.late hts he hm hfault
      exact ⟨us, a, hus, fun tail htail i => (hlate tail htail i).nested hn⟩
    · injection hc with hrest _
      exact absurd (List.append_left_eq_self.mp hrest.symm) hts

/-- Counting nesting keeps a rule steady. -/
theorem Steady.nested {what : Construct} (h : Steady S p q) :
    Steady S (Parse.nested what p) fun i => Parse.nested what (q i) :=
  ⟨h.toFalls.nested, fun ts => (h.along ts).nested h.toFalls⟩

/-- Counting nesting keeps a rule viable. -/
theorem Viable.nested (what : Construct) (h : Viable F S p q) :
    Viable F S (Parse.nested what p) fun i => Parse.nested what (q i) := by
  refine ⟨h.toSteady.nested, fun {r n m e} he hm hp => ?_⟩
  obtain ⟨hn, hp⟩ | ⟨hn, hc, _⟩ := nested_eq_error hp
  · exact (h.idle he hm hp).nested hn
  · cases hc
    exact absurd hm (Nat.not_lt.mpr hn)

/-- Counting nesting keeps a rule ready, one level less deep. -/
theorem Ready.nested {what : Construct} (h : Ready (b + 1) F S p q) (hb : b ≤ nestingLimit) :
    Ready b F S (Parse.nested what p) fun i => Parse.nested what (q i) :=
  ⟨h.toSteady.nested, fun n hn =>
    (h.feasible (n + 1) (Nat.succ_lt_succ hn)).nested (Nat.lt_of_lt_of_le hn hb)⟩

end Parse

end Abacus
