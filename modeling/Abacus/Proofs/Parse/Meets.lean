import Abacus.Proofs.Parse.Primitive

/-!
# Abacus.Proofs.Parse.Meets

What a parser does with tokens that it can read.  `Meets budget c p Q` says that
at the cursor `c` the parser `p` gives a value for which `Q` holds, or stops at
the nesting limit, and the latter only if the budget reaches the limit; it stops
for no other cause.  `Consumes` is the case where the value and the tokens left
are known.

As for `Reads`, there is one lemma for each primitive step followed by a
continuation.  Here the cursor is given by its tokens, so a rule is run on them
one token after the other.
-/

namespace Abacus

namespace Parse

open Stateful

variable {α β : Type}

/-- A value with `Q`, or a stop at the nesting limit if the budget allows it. -/
def Meets (budget : Nat) (c : Cursor) (p : Parser α) (Q : α → Cursor → Prop) : Prop :=
  match p c with
  | .ok a c' => Q a c'
  | .error e _ => nestingLimit ≤ budget ∧ ∃ what t, e = .fault (.atToken (.shallower what) t)

/-- The parser reads exactly the tokens `ts` as `a`, with `rest` after them. -/
def Consumes (budget nesting : Nat) (p : Parser α) (ts rest : List Token) (a : α) : Prop :=
  Meets budget ⟨ts ++ rest, nesting⟩ p fun b c => b = a ∧ c = ⟨rest, nesting⟩

namespace Meets

variable {budget n : Nat} {c : Cursor} {p : Parser α} {f : α → Parser β}
variable {Q : α → Cursor → Prop} {R : β → Cursor → Prop}

/-- A run whose result is known. -/
theorem of_ok {a : α} {c' : Cursor} (h : p c = .ok a c') (hQ : Q a c') : Meets budget c p Q := by
  unfold Meets
  rw [h]
  exact hQ

theorem pure {a : α} (h : Q a c) : Meets budget c (Pure.pure a) Q := of_ok rfl h

/-- Less may be asked of the value. -/
theorem mono {Q' : α → Cursor → Prop} (h : Meets budget c p Q) (hQ : ∀ a c', Q a c' → Q' a c') :
    Meets budget c p Q' := by
  unfold Meets at h ⊢
  cases hp : p c with
  | ok a c' =>
      rw [hp] at h
      exact hQ a c' h
  | error e c' =>
      rw [hp] at h
      exact h

/-- One parser after another: the second starts where the first one ends. -/
theorem bind (h : Meets budget c p Q) (hf : ∀ a c', Q a c' → Meets budget c' (f a) R) :
    Meets budget c (p >>= f) R := by
  unfold Meets at h
  cases hp : p c with
  | ok a c' =>
      rw [hp] at h
      unfold Meets
      rw [bind_of_ok f hp]
      exact hf a c' h
  | error e c' =>
      rw [hp] at h
      unfold Meets
      rw [bind_of_error f hp]
      exact h

/-- One parser after another, if the result of the first is known. -/
theorem bind_ok {a : α} {c' : Cursor} (h : p c = .ok a c') (hf : Meets budget c' (f a) R) :
    Meets budget c (p >>= f) R := by
  unfold Meets
  rw [bind_of_ok f h]
  exact hf

/-- One parser after another, if the tokens that the first one reads are known. -/
theorem bind_consumes {ts rest : List Token} {a : α} (h : Consumes budget n p ts rest a)
    (hf : Meets budget ⟨rest, n⟩ (f a) R) : Meets budget ⟨ts ++ rest, n⟩ (p >>= f) R := by
  refine h.bind fun b c' hb => ?_
  obtain ⟨rfl, rfl⟩ := hb
  exact hf

/-- A value that is thrown away makes no difference. -/
theorem discard_bind {f : PUnit → Parser β} (h : Meets budget c (p >>= fun _ => f PUnit.unit) R) :
    Meets budget c (Functor.discard p >>= f) R := by
  rw [Stateful.discard_bind]
  exact h

/-! ## Steps that look -/

/-- A look at the next token, which takes none. -/
theorem peek_bind {f : Token → Parser β} (h : Meets budget c (f c.current) R) :
    Meets budget c (peek >>= f) R := bind_ok rfl h

theorem atEnd_bind {f : Bool → Parser β} (h : Meets budget c (f c.atEnd) R) :
    Meets budget c (atEnd >>= f) R := bind_ok rfl h

theorem sees_bind {kind : Kind} {f : Bool → Parser β} (h : Meets budget c (f (c.sees kind)) R) :
    Meets budget c (sees kind >>= f) R := bind_ok rfl h

/-- A choice whose condition is known to hold. -/
theorem ite_pos {b : Prop} [Decidable b] {q : Parser α} (hb : b) (h : Meets budget c p Q) :
    Meets budget c (if b then p else q) Q := by
  rw [if_pos hb]
  exact h

/-- A choice whose condition is known to fail. -/
theorem ite_neg {b : Prop} [Decidable b] {q : Parser α} (hb : ¬ b) (h : Meets budget c q Q) :
    Meets budget c (if b then p else q) Q := by
  rw [if_neg hb]
  exact h

theorem get_bind {f : Cursor → Parser β} (h : Meets budget c (f c) R) :
    Meets budget c (get >>= f) R := bind_ok rfl h

/-! ## Steps on a known token -/

section token

variable {t : Token} {ts : List Token}

/-- A token that is taken, whatever its kind. -/
theorem advance_bind {f : Token → Parser β} (ht : t.kind ≠ .endOfInput)
    (h : Meets budget ⟨ts, n⟩ (f t) R) : Meets budget ⟨t :: ts, n⟩ (advance >>= f) R := by
  have hadvance : advance ⟨t :: ts, n⟩ = .ok t ⟨ts, n⟩ := by
    rw [advance_apply, Cursor.forward_cons ht]
    rfl
  exact bind_ok hadvance h

/-- A token of the wanted kind. -/
theorem expect_bind {kind : Kind} {expected : Expected} {f : Token → Parser β}
    (ht : t.kind = kind) (hkind : kind ≠ .endOfInput) (h : Meets budget ⟨ts, n⟩ (f t) R) :
    Meets budget ⟨t :: ts, n⟩ (expect kind expected >>= f) R := by
  have hexpect : expect kind expected ⟨t :: ts, n⟩ = .ok t ⟨ts, n⟩ := by
    rw [expect_of_sees expected (Cursor.sees_cons ht hkind), Cursor.forward_cons (ht ▸ hkind)]
    rfl
  exact bind_ok hexpect h

/-- A token of a kind that is taken if it is there, and it is. -/
theorem accept_bind {kind : Kind} {f : Bool → Parser β} (ht : t.kind = kind)
    (hkind : kind ≠ .endOfInput) (h : Meets budget ⟨ts, n⟩ (f true) R) :
    Meets budget ⟨t :: ts, n⟩ (accept kind >>= f) R := by
  have haccept : accept kind ⟨t :: ts, n⟩ = .ok true ⟨ts, n⟩ := by
    rw [accept_of_sees (Cursor.sees_cons ht hkind), Cursor.forward_cons (ht ▸ hkind)]
  exact bind_ok haccept h

end token

/-- A token of a kind that is taken if it is there, and it is not. -/
theorem refuse_bind {kind : Kind} {f : Bool → Parser β} (hc : c.sees kind = false)
    (h : Meets budget c (f false) R) : Meets budget c (accept kind >>= f) R :=
  bind_ok (accept_of_not_sees hc) h

/-- Where no semicolon stands, none is skipped. -/
theorem skip_bind {fuel : Nat} {f : PUnit → Parser β} (hfuel : 0 < fuel)
    (hc : c.current.kind ≠ .semicolon) (h : Meets budget c (f ⟨⟩) R) :
    Meets budget c (skipSeparators fuel >>= f) R := by
  obtain ⟨fuel, rfl⟩ := Nat.exists_eq_add_one_of_ne_zero (show fuel ≠ 0 by omega)
  have hskip : skipSeparators (fuel + 1) c = .ok ⟨⟩ c := by
    rw [skipSeparators, bind_of_ok _ (accept_of_not_sees (Cursor.sees_of_ne hc))]
    rfl
  exact bind_ok hskip h

/-! ## Nesting -/

/-- One level deeper, if the nesting is within the budget. -/
theorem nested {what : Construct} (hc : c.nesting ≤ budget)
    (h : Meets budget ⟨c.rest, c.nesting + 1⟩ p fun a c' => Q a ⟨c'.rest, c'.nesting - 1⟩) :
    Meets budget c (Parse.nested what p) Q := by
  unfold Meets
  by_cases hlimit : c.nesting < nestingLimit
  · unfold Meets at h
    cases hp : p ⟨c.rest, c.nesting + 1⟩ with
    | ok a c' =>
        rw [hp] at h
        rw [nested_of_ok what hlimit hp]
        exact h
    | error e c' =>
        rw [hp] at h
        rw [nested_of_error what hlimit hp]
        exact h
  · have hle : nestingLimit ≤ c.nesting := Nat.not_lt.mp hlimit
    rw [nested_of_le what hle]
    exact ⟨Nat.le_trans hle hc, what, _, rfl⟩

/-- Counting a level of nesting: within the budget the rule reads the same tokens, and
otherwise it may stop at the limit. -/
theorem nested_consumes {what : Construct} {ts rest : List Token} {a : α} (hn : n ≤ budget)
    (h : Consumes budget (n + 1) p ts rest a) :
    Consumes budget n (Parse.nested what p) ts rest a := by
  refine nested hn (h.mono fun b c' hb => ?_)
  obtain ⟨rfl, rfl⟩ := hb
  exact ⟨rfl, rfl⟩

end Meets

end Parse

end Abacus
