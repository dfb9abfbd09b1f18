import Abacus.Proofs.Parse.Viable

/-!
# Abacus.Proofs.Parse.Lookahead

Rules that decide by the next token.  A rule takes the token and goes on (`Steps.taken`),
or it leaves the token to another rule (`Steps.left`); it is steady if both go on as they
should and if whatever may follow the rule is left to the other one, which then takes
nothing.  Steps that take a token if it has the right kind, or must take one, are of this
form.
-/

namespace Abacus

namespace Parse

open Stateful

variable {α β : Type} {F F' S T : Set Kind} {p : Parser α} {q : Nat → Parser α}
variable {f : α → Parser β} {n b : Nat}

/-! ## Steps that look at the next token -/

/-- A parser that takes a token if it gives a value. -/
def Strict (p : Parser α) : Prop := ∀ c a c', p c = .ok a c' → c'.rest.length < c.rest.length

/-- One parser after another takes a token if the first one does. -/
theorem Strict.bind (hp : Strict p) (hf : ∀ a, Falls (f a)) : Strict (p >>= f) := by
  intro c b c' h
  obtain ⟨a, c₁, ha, h⟩ := bind_eq_ok h
  exact Nat.lt_of_le_of_lt ((hf a).ok_rest h).1.length_le (hp c a c₁ ha)

/-- One parser after another takes a token if the second one does. -/
theorem Falls.bind_strict (hp : Falls p) (hf : ∀ a, Strict (f a)) : Strict (p >>= f) := by
  intro c b c' h
  obtain ⟨a, c₁, ha, h⟩ := bind_eq_ok h
  exact Nat.lt_of_lt_of_le (hf a c₁ b c' h) (hp.ok_rest ha).1.length_le

/-- Nothing is taken: only a value that is given here counts. -/
theorem Along.nil (hp : Falls p)
    (h : ∀ {r r' n a}, p ⟨r, n⟩ = .ok a ⟨r, n⟩ → next r' ∈ S →
      ∀ i, Yields (q i ⟨r', n⟩) (.ok a ⟨r', n⟩)) : Along S p q [] where
  ok hok hr' := by
    obtain rfl := Falls.eq_nil_of_suffix (hp.ok_rest hok).1
    exact h hok (hr' rfl)
  fault hus hfault _ := absurd (Falls.eq_nil_of_suffix (hp.error_rest hfault).1) hus
  late hts _ _ _ := absurd rfl hts

section choose

variable {p' : Parser α} {q' : Nat → Parser α}

/-- The first of the tokens is taken. -/
theorem Along.cons {t : Token} {ts : List Token} (h' : Viable F' S p' q')
    (hp : ∀ ts n, p ⟨t :: ts, n⟩ = p' ⟨ts, n⟩) (hq : ∀ i ts n, q i ⟨t :: ts, n⟩ = q' i ⟨ts, n⟩) :
    Along S p q (t :: ts) where
  ok h hr' := by
    simp only [List.cons_append, hp] at h
    simp only [List.cons_append, hq]
    exact (h'.along ts).ok h hr'
  fault hus h hlimit := by
    simp only [List.cons_append, hp] at h
    simp only [List.cons_append, hq]
    exact (h'.along ts).fault hus h hlimit
  late _ he hm h := by
    simp only [List.cons_append, hp] at h
    simp only [List.cons_append, hq]
    obtain ⟨us, a, hus, hlate⟩ := h'.completes he hm h
    exact ⟨us, a, hus, fun tail htail => (hlate tail htail).2⟩

/-- What is done with the token `t`: it is taken and a viable parser goes on, or it is left
to `p'` and `q'`. -/
inductive Steps (S : Set Kind) (p : Parser α) (q : Nat → Parser α) (p' : Parser α)
    (q' : Nat → Parser α) (t : Token) : Prop
  | taken {F : Set Kind} (k : Parser α) (l : Nat → Parser α) (h : Viable F S k l)
      (hp : ∀ ts n, p ⟨t :: ts, n⟩ = k ⟨ts, n⟩) (hq : ∀ i ts n, q i ⟨t :: ts, n⟩ = l i ⟨ts, n⟩)
  | left (hp : ∀ ts n, p ⟨t :: ts, n⟩ = p' ⟨t :: ts, n⟩)
      (hq : ∀ i ts n, q i ⟨t :: ts, n⟩ = q' i ⟨t :: ts, n⟩)

/-- A rule that decides by the next token leaves a suffix if either way of going on does. -/
theorem Falls.choose (h' : Falls p') (ht : ∀ t, Steps S p q p' q' t)
    (hnil : ∀ n, p ⟨[], n⟩ = p' ⟨[], n⟩) : Falls p := by
  refine .congr ?_
  rintro ⟨_ | ⟨t, ts⟩, n⟩
  · exact ⟨p', h', hnil n⟩
  · cases ht t with
    | left hp _ => exact ⟨p', h', hp ts n⟩
    | taken k l h hp _ =>
        refine ⟨fun c => k ⟨c.rest.tail, c.nesting⟩, ⟨fun hok => ?_, fun herror => ?_⟩, hp ts n⟩
        · exact (h.ok_rest hok).imp_left fun hrest => hrest.trans (List.tail_suffix _)
        · exact (h.error_rest herror).imp_left fun hrest => hrest.trans (List.tail_suffix _)

/-- A value that is given without taking a token is one of the other parser. -/
theorem Steps.ok_of_idle (ht : ∀ t, Steps S p q p' q' t) (hnil : ∀ n, p ⟨[], n⟩ = p' ⟨[], n⟩)
    {r : List Token} {a : α} (h : p ⟨r, n⟩ = .ok a ⟨r, n⟩) : p' ⟨r, n⟩ = .ok a ⟨r, n⟩ := by
  cases r with
  | nil => exact hnil n ▸ h
  | cons t ts =>
      cases ht t with
      | left hp _ => exact hp ts n ▸ h
      | taken k l hk hp _ =>
          rw [hp] at h
          have hlength := (hk.ok_rest h).1.length_le
          exact absurd hlength (Nat.not_succ_le_self ts.length)

/-- A parser that decides by the next token whether to take it.  Whatever may follow is
left to the other parser, unless that one takes a token in any case. -/
theorem Steady.choose (h' : Steady S p' q') (ht : ∀ t, Steps S p q p' q' t)
    (hnil : ∀ n, p ⟨[], n⟩ = p' ⟨[], n⟩)
    (hstop : Strict p' ∨ ∀ i, ∀ c : Cursor, c.current.kind ∈ S → q i c = q' i c) :
    Steady S p q := by
  have hfalls := h'.toFalls.choose ht hnil
  refine ⟨hfalls, fun ts => ?_⟩
  cases ts with
  | nil =>
      refine .nil hfalls fun {r r' n a} h hr' i => ?_
      have hidle := Steps.ok_of_idle ht hnil h
      obtain hstrict | hstop := hstop
      · exact absurd (hstrict _ _ _ hidle) (Nat.lt_irrefl _)
      · rw [hstop i ⟨r', n⟩ hr']
        exact h'.ok_idle hidle hr' i
  | cons t ts =>
      cases ht t with
      | taken k l h hp hq => exact .cons h hp hq
      | left hp hq =>
          exact (h'.along (t :: ts)).congr (fun r => hp (ts ++ r)) fun i r => hq i (ts ++ r)

/-- Where the other parser is feasible, so is this one if the first token is left to it. -/
theorem Ready.choose (h' : Ready b F S p' q') (h : Steady S p q)
    (hF : ∀ i, ∀ c : Cursor, c.current.kind ∈ F → q i c = q' i c) : Ready b F S p q := by
  refine ⟨h, fun n hn => ?_⟩
  obtain ⟨us, a, hus, hfeasible⟩ := h'.feasible n hn
  refine ⟨us, a, hus, fun tail htail => (hfeasible tail htail).imp_right fun hyields i => ?_⟩
  rw [hF i ⟨us ++ tail, n⟩ (hfeasible tail htail).1]
  exact hyields i

/-- A sample token is put in front of what may come after it. -/
theorem Feasible.cons (kind : Kind) (hkind : kind ≠ .endOfInput) (hF : kind ∈ F)
    (h' : Feasible n T S q')
    (hq : ∀ i ts, q i ⟨sample kind :: ts, n⟩ = q' i ⟨ts, n⟩) : Feasible n F S q := by
  obtain ⟨us, a, hus, hfeasible⟩ := h'
  refine ⟨sample kind :: us, a, hus.cons_sample hkind, fun tail htail => ⟨hF, fun i => ?_⟩⟩
  rw [List.cons_append, hq]
  exact (hfeasible tail htail).2 i

end choose

/-! ## Steps that stop by the next token -/

/-- Give the value `a` where `stop` says, and go on with `p` elsewhere. -/
def haltAt (stop : Cursor → Bool) (a : α) (p : Parser α) : Parser α :=
  fun c => if stop c then .ok a c else p c

section halt

variable {stop : Cursor → Bool} (hstop : ∀ c, stop c = true ↔ c.current.kind ∈ T) (a : α)

include hstop

/-- At a token that stops the rule its value is given. -/
theorem haltAt_of_mem {c : Cursor} (hc : c.current.kind ∈ T) : haltAt stop a p c = .ok a c :=
  if_pos ((hstop c).mpr hc)

/-- At a token that does not stop it the rule goes on. -/
theorem haltAt_of_notMem {c : Cursor} (hc : c.current.kind ∉ T) : haltAt stop a p c = p c :=
  if_neg (mt (hstop c).mp hc)

/-- What may follow the rule stops it, so nothing has to be put in. -/
theorem Feasible.halt (hS : S ⊆ T) : Feasible n S S fun i => haltAt stop a (q i) :=
  ⟨[], a, proper_nil, fun tail htail =>
    ⟨htail, fun _ => .inl (haltAt_of_mem (c := ⟨tail, n⟩) hstop a (hS htail))⟩⟩

/-- Whatever may follow is where the parser halts. -/
theorem Steady.halt (hS : S ⊆ T) (h : Steady S p q) (hstrict : Strict p) :
    Steady S (haltAt stop a p) fun i => haltAt stop a (q i) := by
  have hfalls : Falls (haltAt stop a p) := .congr fun c => by
    by_cases hc : c.current.kind ∈ T
    · exact ⟨_, .pure a, haltAt_of_mem hstop a hc⟩
    · exact ⟨p, h.toFalls, haltAt_of_notMem hstop a hc⟩
  refine ⟨hfalls, fun ts => ?_⟩
  cases ts with
  | nil =>
      refine .nil hfalls fun {r r' n v} hp hr' i => ?_
      by_cases hc : (⟨r, n⟩ : Cursor).current.kind ∈ T
      · rw [haltAt_of_mem hstop a hc] at hp
        cases hp
        exact .inl (haltAt_of_mem (c := ⟨r', n⟩) hstop a (hS hr'))
      · rw [haltAt_of_notMem hstop a hc] at hp
        exact absurd (hstrict _ _ _ hp) (Nat.lt_irrefl _)
  | cons t ts =>
      by_cases ht : t.kind ∈ T
      · have hin : ∀ (p : Parser α) r n, haltAt stop a p ⟨t :: (ts ++ r), n⟩ =
            .ok a ⟨t :: (ts ++ r), n⟩ := fun _ _ _ => haltAt_of_mem hstop a ht
        exact (Along.pure a (t :: ts)).congr (hin p) fun i => hin (q i)
      · have hout : ∀ (p : Parser α) r n, haltAt stop a p ⟨t :: (ts ++ r), n⟩ =
            p ⟨t :: (ts ++ r), n⟩ := fun _ _ _ => haltAt_of_notMem hstop a ht
        exact (h.along (t :: ts)).congr (hout p) fun i => hout (q i)

/-- A rule that stops by the next token is ready if what it goes on with is steady and
takes a token. -/
theorem Ready.halt (hS : S ⊆ T) (h : Steady S p q) (hstrict : Strict p) :
    Ready b S S (haltAt stop a p) fun i => haltAt stop a (q i) :=
  ⟨.halt hstop a hS h hstrict, fun _ _ => .halt hstop a hS⟩

end halt

/-! ## Steps that take a token -/

theorem current_cons (t : Token) (ts : List Token) (n : Nat) :
    (⟨t :: ts, n⟩ : Cursor).current = t := rfl

theorem peek_bind_apply (k : Token → Parser α) (c : Cursor) : (peek >>= k) c = k c.current c := rfl

theorem sees_bind_apply (kind : Kind) (k : Bool → Parser α) (c : Cursor) :
    (sees kind >>= k) c = k (c.sees kind) c := rfl

/-- A token that is taken after it was looked at. -/
theorem take_cons {t : Token} {ts : List Token} (k : PUnit → Parser α) (ht : t.kind ≠ .endOfInput) :
    (discard advance >>= k) ⟨t :: ts, n⟩ = k ⟨⟩ ⟨ts, n⟩ := by
  rw [discard_bind, bind_of_ok _ (advance_apply _), Cursor.forward_cons ht]

theorem ne_of_mem {kind k : Kind} (hkind : kind ∉ S) (hk : k ∈ S) : k ≠ kind :=
  fun h => hkind (h ▸ hk)

section accept

variable {kind : Kind} {k : Bool → Parser α} {l : Nat → Bool → Parser α}

/-- A token of the kind is taken. -/
theorem accept_cons {t : Token} {ts : List Token} (hkind : kind ≠ .endOfInput)
    (ht : t.kind = kind) : (accept kind >>= k) ⟨t :: ts, n⟩ = k true ⟨ts, n⟩ := by
  rw [bind_of_ok k (accept_of_sees (Cursor.sees_cons ht hkind)),
    Cursor.forward_cons (ht ▸ hkind)]

/-- A token of another kind is left. -/
theorem accept_of_ne {c : Cursor} (hc : c.current.kind ≠ kind) :
    (accept kind >>= k) c = k false c :=
  bind_of_ok k (accept_of_not_sees (Cursor.sees_of_ne hc))

/-- A token that may stand here, and does not follow. -/
theorem Steady.accept_bind (hkind : kind ≠ .endOfInput) (hS : kind ∉ S)
    (htaken : Viable F' S (k true) fun i => l i true)
    (hleft : Steady S (k false) fun i => l i false) :
    Steady S (accept kind >>= k) fun i => accept kind >>= l i := by
  refine hleft.choose (fun t => ?_) (fun n => accept_of_ne hkind.symm)
    (.inr fun i c hc => accept_of_ne (ne_of_mem hS hc))
  by_cases ht : t.kind = kind
  · exact .taken _ _ htaken (fun _ _ => accept_cons hkind ht) fun _ _ _ => accept_cons hkind ht
  · exact .left (fun _ _ => accept_of_ne ht) fun _ _ _ => accept_of_ne ht

/-- A step that takes a token of a kind is ready if what follows the token is viable,
and what follows without it is ready. -/
theorem Ready.accept_bind (hkind : kind ≠ .endOfInput) (hS : kind ∉ S) (hF : kind ∉ F)
    (htaken : Viable F' S (k true) fun i => l i true)
    (hleft : Ready b F S (k false) fun i => l i false) :
    Ready b F S (accept kind >>= k) fun i => accept kind >>= l i :=
  hleft.choose (.accept_bind hkind hS htaken hleft.toSteady)
    fun _ _ hc => accept_of_ne (ne_of_mem hF hc)

end accept

section expect

variable {kind : Kind} {expected : Expected} {k : Token → Parser α} {l : Nat → Token → Parser α}

/-- The wanted token is taken. -/
theorem expect_cons {t : Token} {ts : List Token} (hkind : kind ≠ .endOfInput)
    (ht : t.kind = kind) : (expect kind expected >>= k) ⟨t :: ts, n⟩ = k t ⟨ts, n⟩ := by
  rw [bind_of_ok k (expect_of_sees expected (Cursor.sees_cons ht hkind)),
    Cursor.forward_cons (ht ▸ hkind)]
  rfl

/-- A token other than the wanted one is a fault. -/
theorem expect_of_ne {c : Cursor} (hc : c.current.kind ≠ kind) :
    (expect kind expected >>= k) c = (fail expected : Parser α) c :=
  bind_of_error k (expect_of_not_sees expected (Cursor.sees_of_ne hc))

/-- A token that must stand here. -/
theorem Ready.expect_bind (hkind : kind ≠ .endOfInput) (hF : kind ∈ F) (hb : nestingLimit ≤ b)
    (h : ∀ t, Ready b Set.univ S (k t) fun i => l i t) :
    Ready b F S (expect kind expected >>= k) fun i => expect kind expected >>= l i := by
  refine ⟨(Steady.fail expected).choose (fun t => ?_) (fun n => expect_of_ne hkind.symm)
    (.inl fun c a c' hc => by contradiction),
    fun n hn => .cons kind hkind hF ((h _).feasible n hn) fun _ _ => expect_cons hkind rfl⟩
  by_cases ht : t.kind = kind
  · exact .taken _ _ ((h t).viable hb) (fun _ _ => expect_cons hkind ht)
      fun _ _ _ => expect_cons hkind ht
  · exact .left (fun _ _ => expect_of_ne ht) fun _ _ _ => expect_of_ne ht

/-- A token that must stand here, and is not used. -/
theorem Ready.skip_bind {k : PUnit → Parser α} {l : Nat → PUnit → Parser α}
    (hkind : kind ≠ .endOfInput) (hF : kind ∈ F) (hb : nestingLimit ≤ b)
    (h : Ready b Set.univ S (k ⟨⟩) fun i => l i ⟨⟩) :
    Ready b F S (discard (expect kind expected) >>= k)
      fun i => discard (expect kind expected) >>= l i := by
  simp only [discard_bind]
  exact .expect_bind hkind hF hb fun _ => h

/-- A rule with a token that it must take is strict. -/
theorem Strict.skip_bind {k : PUnit → Parser α} (hk : Falls (k ⟨⟩)) :
    Strict (discard (expect kind expected) >>= k) := by
  intro c a c' h
  rw [discard_bind] at h
  obtain ⟨t, c₁, ht, h⟩ := bind_eq_ok h
  have hrest := (hk.ok_rest h).1.length_le
  cases hsees : c.sees kind with
  | true =>
      rw [expect_of_sees expected hsees] at ht
      cases ht
      exact Nat.lt_of_le_of_lt hrest (Cursor.length_forward_lt (Cursor.atEnd_of_sees hsees))
  | false =>
      rw [expect_of_not_sees expected hsees] at ht
      contradiction

end expect

end Parse

end Abacus
