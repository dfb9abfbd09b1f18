import Abacus.Proofs.Parse.Primitive

/-!
# Abacus.Proofs.Parse.Reads

What a parser has read when it gives a value.  `Reads c p D` says that, started
at the cursor `c`, the parser `p` takes tokens off the front, none of them an
end of input, leaves the nesting as it found it, and that `D` holds of the value
it gives and the tokens it took.

There is one lemma for each primitive step, stated for the step followed by a
continuation: the continuation starts at the cursor that the step leaves, and
the tokens taken so far are put in front of what it reads.  A grammar rule is
then opened step by step, in the order in which it is written.
-/

namespace Abacus

namespace Parse

open Stateful

variable {α β : Type}

/-- Whenever `p` gives a value at the cursor `c`, it has taken tokens short of
the end of input, kept the nesting, and `D` holds of the value and the tokens. -/
def Reads (c : Cursor) (p : Parser α) (D : α → List Token → Prop) : Prop :=
  ∀ a c', p c = .ok a c' →
    ∃ ts, c.rest = ts ++ c'.rest ∧ c'.nesting = c.nesting ∧
      (∀ t ∈ ts, t.kind ≠ .endOfInput) ∧ D a ts

namespace Reads

variable {c : Cursor} {p : Parser α} {f : α → Parser β}
variable {D : α → List Token → Prop} {E : β → List Token → Prop}

/-- Less may be said of what was read. -/
theorem mono {D' : α → List Token → Prop} (h : Reads c p D) (hD : ∀ a ts, D a ts → D' a ts) :
    Reads c p D' := by
  intro a c' hp
  obtain ⟨ts, hrest, hnesting, hends, hd⟩ := h a c' hp
  exact ⟨ts, hrest, hnesting, hends, hD a ts hd⟩

theorem pure {a : α} (h : D a []) : Reads c (Pure.pure a) D := by
  intro b c' hp
  cases hp
  exact ⟨[], rfl, rfl, by simp, h⟩

/-- A parser that fails reads anything. -/
theorem of_error {e : ParseStop} {c' : Cursor} (h : p c = .error e c') : Reads c p D := by
  intro a c'' hp
  rw [h] at hp
  contradiction

/-- A parser that stops has read nothing that matters here. -/
theorem exhausted : Reads c (Parse.exhausted : Parser α) D := of_error rfl

theorem throw (e : ParseStop) : Reads c (throw e : Parser α) D := of_error rfl

theorem fail (expected : Expected) : Reads c (Parse.fail expected : Parser α) D := of_error rfl

/-- One parser after another reads the tokens of both. -/
theorem bind (hp : Reads c p D)
    (hf : ∀ a ts c', c.rest = ts ++ c'.rest → c'.nesting = c.nesting → D a ts →
      Reads c' (f a) fun b us => E b (ts ++ us)) : Reads c (p >>= f) E := by
  intro b c'' h
  obtain ⟨a, c', hpa, hfb⟩ := bind_eq_ok h
  obtain ⟨ts, hrest, hnesting, hends, hd⟩ := hp a c' hpa
  obtain ⟨us, hrest', hnesting', hends', he⟩ := hf a ts c' hrest hnesting hd b c'' hfb
  refine ⟨ts ++ us, ?_, ?_, ?_, he⟩
  · rw [hrest, hrest', List.append_assoc]
  · rw [hnesting', hnesting]
  · intro t ht
    obtain ht | ht := List.mem_append.mp ht
    · exact hends t ht
    · exact hends' t ht

/-- A value that is thrown away makes no difference. -/
theorem discard_bind {f : PUnit → Parser β} (h : Reads c (p >>= fun _ => f PUnit.unit) E) :
    Reads c (Functor.discard p >>= f) E := by
  rw [Stateful.discard_bind]
  exact h

/-! ## Steps that look -/

/-- A look at the next token takes nothing. -/
theorem peek_bind {f : Token → Parser β} (h : Reads c (f c.current) E) :
    Reads c (peek >>= f) E := h

theorem get_bind {f : Cursor → Parser β} (h : Reads c (f c) E) : Reads c (get >>= f) E := h

theorem atEnd_bind {f : Bool → Parser β} (h : Reads c (f c.atEnd) E) :
    Reads c (atEnd >>= f) E := h

theorem sees_bind {kind : Kind} {f : Bool → Parser β} (h : Reads c (f (c.sees kind)) E) :
    Reads c (sees kind >>= f) E := h

/-- A look at the second token takes nothing; both outcomes are allowed for. -/
theorem assignFollows_bind {f : Bool → Parser β} (h : ∀ b, Reads c (f b) E) :
    Reads c (assignFollows >>= f) E := h _

/-- A choice, each branch under its condition. -/
theorem ite {b : Prop} [Decidable b] {p q : Parser α} (hp : b → Reads c p D)
    (hq : ¬ b → Reads c q D) : Reads c (if b then p else q) D := by
  split
  · next hb => exact hp hb
  · next hb => exact hq hb

/-! ## Steps that take a token -/

/-- A token that is taken, short of the end, is put in front of what follows. -/
theorem advance_bind {f : Token → Parser β} (hc : c.atEnd = false)
    (h : Reads c.forward (f c.current) fun b us => E b (c.current :: us)) :
    Reads c (advance >>= f) E := by
  intro b c' hb
  obtain ⟨us, hrest, hnesting, hends, he⟩ := h b c' hb
  refine ⟨c.current :: us, ?_, ?_, ?_, he⟩
  · rw [Cursor.rest_eq_cons hc, hrest, List.cons_append]
  · rw [hnesting, Cursor.nesting_forward]
  · intro t ht
    obtain rfl | ht := List.mem_cons.mp ht
    · exact Cursor.current_kind_ne hc
    · exact hends t ht

/-- A token of the wanted kind is put in front of what follows. -/
theorem expect_bind {kind : Kind} {expected : Expected} {f : Token → Parser β}
    (h : c.current.kind = kind →
      Reads c.forward (f c.current) fun b us => E b (c.current :: us)) :
    Reads c (expect kind expected >>= f) E := by
  intro b c' hb
  cases hsees : c.sees kind with
  | true =>
      rw [bind_of_ok f (expect_of_sees expected hsees)] at hb
      have hkind := Cursor.current_kind_of_sees hsees
      exact advance_bind (Cursor.atEnd_of_sees hsees) (h hkind) b c' hb
  | false =>
      rw [bind_of_error f (expect_of_not_sees expected hsees)] at hb
      contradiction

/-- A token of the wanted kind, when nothing follows. -/
theorem expect {kind : Kind} {expected : Expected} :
    Reads c (Parse.expect kind expected) fun t ts => ts = [t] ∧ t.kind = kind := by
  rw [← bind_pure (Parse.expect kind expected)]
  exact expect_bind fun hkind => pure ⟨rfl, hkind⟩

/-- A token that is taken if it has the kind. -/
theorem accept_bind {kind : Kind} {f : Bool → Parser β}
    (htaken : c.current.kind = kind →
      Reads c.forward (f true) fun b us => E b (c.current :: us))
    (hleft : Reads c (f false) E) : Reads c (accept kind >>= f) E := by
  intro b c' hb
  cases hsees : c.sees kind with
  | true =>
      rw [bind_of_ok f (accept_of_sees hsees)] at hb
      exact advance_bind (f := fun _ => f true) (Cursor.atEnd_of_sees hsees)
        (htaken (Cursor.current_kind_of_sees hsees)) b c' hb
  | false =>
      rw [bind_of_ok f (accept_of_not_sees hsees)] at hb
      exact hleft b c' hb

/-! ## Nesting -/

/-- Inside one more level of nesting a parser reads what it reads there. -/
theorem nested {what : Construct}
    (h : c.nesting < nestingLimit → Reads { c with nesting := c.nesting + 1 } p D) :
    Reads c (Parse.nested what p) D := by
  intro a c' hp
  by_cases hlimit : c.nesting < nestingLimit
  · cases hpc : p { c with nesting := c.nesting + 1 } with
    | ok b c₁ =>
        rw [nested_of_ok what hlimit hpc] at hp
        cases hp
        obtain ⟨ts, hrest, hnesting, hends, hd⟩ := h hlimit a c₁ hpc
        refine ⟨ts, hrest, ?_, hends, hd⟩
        show c₁.nesting - 1 = c.nesting
        rw [hnesting]
        rfl
    | error e c₁ =>
        rw [nested_of_error what hlimit hpc] at hp
        contradiction
  · rw [nested_of_le what (Nat.not_lt.mp hlimit)] at hp
    contradiction

/-! ## Repetition -/

/-- Items with commas between them, at most as many as there may be.  All of them
are read at the same nesting. -/
theorem separated {tooMany : Expected} {item : Parser α} {S : List α → List Token → Prop} {m : Nat}
    (hitem : ∀ c : Cursor, c.nesting = m → Reads c item D) (hlast : ∀ a ts, D a ts → S [a] ts)
    (hnext : ∀ a ts t as us, D a ts → t.kind = .comma → S as us → S (a :: as) (ts ++ t :: us))
    (n : Nat) (c : Cursor) (hc : c.nesting = m) :
    Reads c (Parse.separated tooMany item n) fun as ts => S as ts ∧ as.length ≤ n := by
  induction n generalizing c with
  | zero => exact fail tooMany
  | succ n ih =>
      refine (hitem c hc).bind fun a ts c' _ hc' ha => accept_bind (fun hcomma => ?_) ?_
      · have hforward : c'.forward.nesting = m := by rw [Cursor.nesting_forward, hc', hc]
        refine (ih c'.forward hforward).bind fun as us _ _ _ has => pure ?_
        rw [List.append_nil]
        exact ⟨hnext a ts _ as us ha hcomma has.1, Nat.succ_le_succ has.2⟩
      · refine pure ?_
        rw [List.append_nil]
        exact ⟨hlast a ts ha, Nat.succ_le_succ (Nat.zero_le n)⟩

/-- Semicolons in any number are skipped. -/
theorem skipSeparators (n : Nat) (c : Cursor) :
    Reads c (Parse.skipSeparators n) fun _ ts => ∀ t ∈ ts, t.kind = .semicolon := by
  induction n generalizing c with
  | zero => exact exhausted
  | succ n ih =>
      refine accept_bind (fun ht => ?_) (pure (by simp))
      refine (ih c.forward).mono fun _ ts hts t hmem => ?_
      obtain rfl | hmem := List.mem_cons.mp hmem
      · exact ht
      · exact hts t hmem

/-- Statements with semicolons before, between and after them, all read at the
same nesting. -/
theorem statementsUntil {stop : Cursor → Bool} {fuel m : Nat} {statement : Parser Stmt}
    {D : Stmt → List Token → Prop} {S : List Stmt → List Token → Prop}
    (hstatement : ∀ c : Cursor, c.nesting = m → Reads c statement D) (hnothing : S [] [])
    (hseparators : ∀ stmts ts us, (∀ t ∈ ts, t.kind = .semicolon) → S stmts us →
      S stmts (ts ++ us))
    (hnext : ∀ s ts rest us, D s ts → S rest us → S (s :: rest) (ts ++ us)) (n : Nat) (c : Cursor)
    (hc : c.nesting = m) : Reads c (Parse.statementsUntil stop fuel statement n) S := by
  induction n generalizing c with
  | zero => exact exhausted
  | succ n ih =>
      refine (skipSeparators fuel c).bind fun _ ts c₁ _ hc₁ hts => get_bind ?_
      refine ite (fun _ => pure (hseparators [] ts [] hts hnothing)) fun _ => ?_
      refine (hstatement c₁ (by rw [hc₁, hc])).bind fun s us c₂ _ hc₂ hs => ?_
      refine (ih c₂ (by rw [hc₂, hc₁, hc])).bind fun rest vs _ _ _ hrest => pure ?_
      rw [List.append_nil]
      exact hseparators _ ts _ hts (hnext s us rest vs hs hrest)

end Reads

end Parse

end Abacus
