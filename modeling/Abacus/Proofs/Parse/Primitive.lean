import Abacus.Parse.Program
import Abacus.Proofs.Stateful

/-!
# Abacus.Proofs.Parse.Primitive

The primitive steps of parsers as equations: what each of them gives and where
it leaves the cursor.  Proofs about grammar rules use these equations and do not
open the steps.  Blocks and programs read their statements in the same loop,
`statementsUntil`, with another test for the end.
-/

namespace Abacus

namespace Cursor

/-- Short of the end of input, the cursor stands before its current token. -/
theorem rest_eq_cons {c : Cursor} (h : c.atEnd = false) : c.rest = c.current :: c.forward.rest := by
  unfold forward
  rw [if_neg (by simp [h])]
  unfold atEnd current at h
  unfold current
  cases hrest : c.rest with
  | nil => simp [hrest, Token.finish] at h
  | cons t ts => rfl

@[simp] theorem nesting_forward (c : Cursor) : c.forward.nesting = c.nesting := by
  unfold forward
  split <;> rfl

/-- Short of the end a token is no end of input. -/
theorem current_kind_ne {c : Cursor} (h : c.atEnd = false) : c.current.kind ≠ .endOfInput := by
  simpa [atEnd] using h

/-- A cursor that sees something is not at the end. -/
theorem atEnd_of_sees {c : Cursor} {kind : Kind} (h : c.sees kind = true) : c.atEnd = false := by
  unfold sees at h
  simp only [Bool.and_eq_true, Bool.not_eq_true'] at h
  exact h.1

theorem current_kind_of_sees {c : Cursor} {kind : Kind} (h : c.sees kind = true) :
    c.current.kind = kind := by
  unfold sees at h
  simp only [Bool.and_eq_true, decide_eq_true_eq] at h
  exact h.2

/-- A cursor that stands before a token of some kind is not at the end. -/
theorem atEnd_of_current_kind {c : Cursor} {kind : Kind} (h : c.current.kind = kind)
    (hkind : kind ≠ .endOfInput) : c.atEnd = false := by
  simp [atEnd, h, hkind]

/-- Taking the first token leaves the others; an end of input stays. -/
theorem forward_cons {t : Token} {ts : List Token} {n : Nat} (ht : t.kind ≠ .endOfInput) :
    (⟨t :: ts, n⟩ : Cursor).forward = ⟨ts, n⟩ := by
  have hatEnd : (⟨t :: ts, n⟩ : Cursor).atEnd = false := atEnd_of_current_kind rfl ht
  rw [forward, hatEnd, if_neg Bool.false_ne_true]
  rfl

/-- A kind is seen at a token that has it. -/
theorem sees_cons {t : Token} {ts : List Token} {n : Nat} {kind : Kind} (ht : t.kind = kind)
    (hkind : kind ≠ .endOfInput) : (⟨t :: ts, n⟩ : Cursor).sees kind = true := by
  subst ht
  simp [sees, atEnd, current, hkind]

/-- What a cursor stands before has one kind only. -/
theorem sees_of_ne {c : Cursor} {kind : Kind} (h : c.current.kind ≠ kind) :
    c.sees kind = false := by
  simp [sees, h]

end Cursor

namespace Parse

open Stateful

variable {α : Type}

theorem advance_apply (c : Cursor) : advance c = .ok c.current c.forward := rfl

/-- A kind that is seen is taken. -/
theorem accept_of_sees {c : Cursor} {kind : Kind} (h : c.sees kind = true) :
    accept kind c = .ok true c.forward := by
  have hsees : sees kind c = .ok true c := by rw [← h]; rfl
  rw [accept, bind_of_ok _ hsees]
  rfl

/-- A kind that is not seen is left. -/
theorem accept_of_not_sees {c : Cursor} {kind : Kind} (h : c.sees kind = false) :
    accept kind c = .ok false c := by
  have hsees : sees kind c = .ok false c := by rw [← h]; rfl
  rw [accept, bind_of_ok _ hsees]
  rfl

/-- A wanted token that is seen is taken. -/
theorem expect_of_sees {c : Cursor} {kind : Kind} (expected : Expected) (h : c.sees kind = true) :
    expect kind expected c = .ok c.current c.forward := by
  have hsees : sees kind c = .ok true c := by rw [← h]; rfl
  rw [expect, bind_of_ok _ hsees]
  rfl

/-- A wanted token that is not seen is missed at the next one. -/
theorem expect_of_not_sees {c : Cursor} {kind : Kind} (expected : Expected)
    (h : c.sees kind = false) :
    expect kind expected c = .error (.fault (.atToken expected c.current)) c := by
  have hsees : sees kind c = .ok false c := by rw [← h]; rfl
  rw [expect, bind_of_ok _ hsees]
  rfl

/-- Below the limit a level of nesting is counted. -/
theorem enter_of_lt {c : Cursor} (what : Construct) (h : c.nesting < nestingLimit) :
    enter what c = .ok () { c with nesting := c.nesting + 1 } := by
  have hget : (get : Parser Cursor) c = .ok c c := rfl
  rw [enter, bind_of_ok _ hget, if_pos h]
  rfl

/-- At the limit it is refused, at the next token. -/
theorem enter_of_le {c : Cursor} (what : Construct) (h : nestingLimit ≤ c.nesting) :
    enter what c = .error (.fault (.atToken (.shallower what) c.current)) c := by
  have hget : (get : Parser Cursor) c = .ok c c := rfl
  rw [enter, bind_of_ok _ hget, if_neg (Nat.not_lt.mpr h)]
  rfl

/-- A construct that can be read one level deeper gives the level back. -/
theorem nested_of_ok {c c' : Cursor} {p : Parser α} {a : α} (what : Construct)
    (h : c.nesting < nestingLimit) (hp : p { c with nesting := c.nesting + 1 } = .ok a c') :
    nested what p c = .ok a { c' with nesting := c'.nesting - 1 } := by
  rw [nested, bind_of_ok _ (enter_of_lt what h), bind_of_ok _ hp]
  rfl

/-- A fault inside a level leaves it counted. -/
theorem nested_of_error {c c' : Cursor} {p : Parser α} {e : ParseStop} (what : Construct)
    (h : c.nesting < nestingLimit) (hp : p { c with nesting := c.nesting + 1 } = .error e c') :
    nested what p c = .error e c' := by
  rw [nested, bind_of_ok _ (enter_of_lt what h), bind_of_error _ hp]

/-- At the limit nothing inside is read. -/
theorem nested_of_le {c : Cursor} {p : Parser α} (what : Construct)
    (h : nestingLimit ≤ c.nesting) :
    nested what p c = .error (.fault (.atToken (.shallower what) c.current)) c := by
  rw [nested, bind_of_error _ (enter_of_le what h)]

/-! ## The loop over statements -/

/-- Read statements until the cursor is where `stop` says: what blocks and
programs have in common. -/
def statementsUntil (stop : Cursor → Bool) (fuel : Nat) (statement : Parser Stmt) :
    Nat → Parser (List Stmt)
  | 0 => exhausted
  | m + 1 => do
    skipSeparators fuel
    if stop (← get) then return []
    else
      let s ← statement
      let rest ← statementsUntil stop fuel statement m
      return s :: rest

/-- A program is read up to the end of input. -/
theorem program_eq (fuel : Nat) (statement : Parser Stmt) (m : Nat) :
    program fuel statement m = statementsUntil Cursor.atEnd fuel statement m := by
  induction m with
  | zero => rfl
  | succ m ih =>
      rw [program, statementsUntil, ih]
      rfl

/-- The statements of a block are read up to a closing brace or the end of input. -/
theorem statements_eq (fuel : Nat) (statement : Parser Stmt) (m : Nat) :
    statements fuel statement m =
      statementsUntil (fun c => c.sees .rightBrace || c.atEnd) fuel statement m := by
  induction m with
  | zero => rfl
  | succ m ih =>
      rw [statements, statementsUntil, ih]
      rfl

/-- A sequence whose last token is the end of input. -/
theorem terminated_concat {ts : List Token} {eoi : Token} (h : eoi.kind = .endOfInput) :
    terminated (ts ++ [eoi]) = true := by
  simp [terminated, h]

end Parse

/-! ## Source texts -/

/-- Once a source is scanned, its parse is that of the tokens. -/
theorem parseSource_of_tokenize {source : String} {tokens : List Token}
    (h : tokenize source = .ok tokens) :
    parseSource source = (parseTokens tokens).mapError .grammar := by
  rw [parseSource, h]
  dsimp only
  cases parseTokens tokens <;> rfl

/-- An accepted source has tokens, and they are accepted. -/
theorem parseSource_eq_ok {source : String} {program : List Stmt}
    (h : parseSource source = .ok program) :
    ∃ tokens, tokenize source = .ok tokens ∧ parseTokens tokens = .ok program := by
  cases htokens : tokenize source with
  | error e =>
      rw [parseSource, htokens] at h
      contradiction
  | ok tokens =>
      rw [parseSource_of_tokenize htokens] at h
      cases hparse : parseTokens tokens with
      | ok program' =>
          rw [hparse] at h
          cases h
          exact ⟨tokens, rfl, hparse⟩
      | error e =>
          rw [hparse] at h
          contradiction

/-- A source with a grammar fault has tokens, and they have the fault. -/
theorem parseSource_eq_error {source : String} {e : GrammarError}
    (h : parseSource source = .error (.grammar e)) :
    ∃ tokens, tokenize source = .ok tokens ∧ parseTokens tokens = .error e := by
  cases htokens : tokenize source with
  | error e' =>
      rw [parseSource, htokens] at h
      cases h
  | ok tokens =>
      rw [parseSource_of_tokenize htokens] at h
      cases hparse : parseTokens tokens with
      | ok program =>
          rw [hparse] at h
          contradiction
      | error e' =>
          rw [hparse] at h
          cases h
          exact ⟨tokens, rfl, hparse⟩

/-- A source with a lexical fault has no tokens for it. -/
theorem tokenize_of_parseSource_eq_error {source : String} {e : LexicalError}
    (h : parseSource source = .error (.lexical e)) : tokenize source = .error e := by
  cases htokens : tokenize source with
  | error e' =>
      rw [parseSource, htokens] at h
      cases h
      rfl
  | ok tokens =>
      rw [parseSource_of_tokenize htokens] at h
      cases hparse : parseTokens tokens with
      | ok program =>
          rw [hparse] at h
          contradiction
      | error e' =>
          rw [hparse] at h
          cases h

end Abacus
