import Abacus.Proofs.Parse.Braces
import Abacus.Proofs.Parse.Sound

/-!
# Abacus.Proofs.Parse.Faults

What a parser has read when it stops.  `Blames e ts next` says what is known of a
fault `e` met after the tokens `ts`, before the token `next`: it is named after
`next`, or after a number token of `ts` that spells no number; no brace was closed
that was not opened; and a closing brace is missed only where one is open.

`Faults before c p` says that this holds whenever `p` stops at the cursor `c`, if
the tokens `before` were read in front of it.  What a parser has read when it does
not stop is known from `Reads`; only the inside of a block is read with a brace open.
-/

namespace Abacus

/-- The fault that a stopped parser is reported with; without fuel, it is that of a
missing expression. -/
def ParseStop.errorAt (c : Cursor) : ParseStop → GrammarError
  | .fault e => e
  | .exhausted => .atToken .expression c.current

namespace Parse

open Stateful Grammar

variable {α β : Type}

/-- What is known of a fault that is met after `ts` and before `next`. -/
structure Blames (e : GrammarError) (ts : List Token) (next : Token) : Prop where
  named : (e.expected ≠ .numericLiteral ∧ e = .atToken e.expected next) ∨
    ∃ t ∈ ts, t.kind = .number ∧ Number.read? t.lexeme = none ∧ e = .atToken .numericLiteral t
  balanced : 0 ≤ balance ts
  missed : e.expected = .closeBlock → next.kind = .endOfInput ∧ 0 < balance ts

/-- Whenever `p` stops at `c` after the tokens `before`, it has taken tokens short of
the end of input, and the fault is blamed on what it met. -/
def Faults (before : List Token) (c : Cursor) (p : Parser α) : Prop :=
  0 ≤ balance before → ∀ stop c', p c = .error stop c' →
    ∃ ts, c.rest = ts ++ c'.rest ∧ (∀ t ∈ ts, t.kind ≠ .endOfInput) ∧
      Blames (stop.errorAt c') (before ++ ts) c'.current

/-- What may be wanted at a token, whatever was read before it. -/
def Plain (expected : Expected) : Prop := expected ≠ .numericLiteral ∧ expected ≠ .closeBlock

namespace Faults

variable {before : List Token} {c : Cursor} {p : Parser α} {f : α → Parser β}

/-- A parser that does not stop. -/
theorem of_ok {a : α} {c' : Cursor} (h : p c = .ok a c') : Faults before c p := by
  intro _ stop c'' hp
  rw [h] at hp
  contradiction

theorem pure (a : α) : Faults before c (Pure.pure a) := of_ok rfl

/-- A parser that stops where it stands. -/
theorem of_error {stop : ParseStop}
    (h : p c = .error stop c)
    (hblames : 0 ≤ balance before → Blames (stop.errorAt c) before c.current) :
    Faults before c p := by
  intro hbefore stop' c' hp
  rw [h] at hp
  cases hp
  exact ⟨[], rfl, by simp, by simpa using hblames hbefore⟩

/-- A plain fault at the next token is one that may be met wherever no brace was closed
too much. -/
theorem blames_plain {expected : Expected} {next : Token} (hexpected : Plain expected)
    (hbefore : 0 ≤ balance before) : Blames (.atToken expected next) before next :=
  ⟨.inl ⟨hexpected.1, rfl⟩, hbefore, fun h => absurd h hexpected.2⟩

/-- A rule that fails on its own account. -/
theorem fail {expected : Expected} (hexpected : Plain expected) :
    Faults before c (Parse.fail expected : Parser α) :=
  of_error rfl (blames_plain hexpected)

/-- Without fuel, a missing expression is reported. -/
theorem exhausted : Faults before c (Parse.exhausted : Parser α) :=
  of_error rfl (blames_plain ⟨by simp, by simp⟩)

/-- One parser after another, where the first one reads what is balanced. -/
theorem bind {D : α → List Token → Prop} (hp : Faults before c p) (hreads : Reads c p D)
    (hD : ∀ a ts, D a ts → balance ts = 0)
    (hf : ∀ a ts c', p c = .ok a c' → D a ts → Faults (before ++ ts) c' (f a)) :
    Faults before c (p >>= f) := by
  intro hbefore stop c'' h
  obtain hstop | ⟨a, c', ha, hstop⟩ := bind_eq_error h
  · exact hp hbefore stop c'' hstop
  · obtain ⟨ts, hrest, _, hends, hd⟩ := hreads a c' ha
    have hbefore' : 0 ≤ balance (before ++ ts) := by simp [hD a ts hd, hbefore]
    obtain ⟨us, hrest', hends', hblames⟩ := hf a ts c' ha hd hbefore' stop c'' hstop
    refine ⟨ts ++ us, ?_, ?_, ?_⟩
    · rw [hrest, hrest', List.append_assoc]
    · intro t ht
      obtain ht | ht := List.mem_append.mp ht
      · exact hends t ht
      · exact hends' t ht
    · rwa [List.append_assoc] at hblames

/-- A value that is only wrapped up. -/
theorem wrap (g : α → β) (hp : Faults before c p) :
    Faults before c (p >>= fun a => Pure.pure (g a)) := by
  intro hbefore stop c' hstop
  obtain hstop | ⟨a, c₁, _, hstop⟩ := bind_eq_error hstop
  · exact hp hbefore stop c' hstop
  · contradiction

/-- A value that is thrown away makes no difference. -/
theorem discard_bind {f : PUnit → Parser β} (h : Faults before c (p >>= fun _ => f PUnit.unit)) :
    Faults before c (Functor.discard p >>= f) := by
  rw [Stateful.discard_bind]
  exact h

/-! ## Steps that look -/

theorem peek_bind {f : Token → Parser β} (h : Faults before c (f c.current)) :
    Faults before c (peek >>= f) := h

/-- A step that looks at the cursor. -/
theorem get_bind {f : Cursor → Parser β} (h : Faults before c (f c)) :
    Faults before c (get >>= f) := h

theorem atEnd_bind {f : Bool → Parser β} (h : Faults before c (f c.atEnd)) :
    Faults before c (atEnd >>= f) := h

theorem sees_bind {kind : Kind} {f : Bool → Parser β} (h : Faults before c (f (c.sees kind))) :
    Faults before c (sees kind >>= f) := h

theorem assignFollows_bind {f : Bool → Parser β} (h : ∀ b, Faults before c (f b)) :
    Faults before c (assignFollows >>= f) := h _

/-- A choice, each branch under its condition. -/
theorem ite {b : Prop} [Decidable b] {p q : Parser α} (hp : b → Faults before c p)
    (hq : ¬ b → Faults before c q) : Faults before c (if b then p else q) := by
  split
  · next hb => exact hp hb
  · next hb => exact hq hb

/-! ## Steps that take a token -/

/-- A token that is taken, if it closes no brace, is added to what was read. -/
theorem advance_bind {f : Token → Parser β} (hc : c.atEnd = false)
    (hweight : 0 ≤ c.current.weight)
    (h : Faults (before ++ [c.current]) c.forward (f c.current)) :
    Faults before c (advance >>= f) := by
  intro hbefore stop c' hstop
  have hbefore' : 0 ≤ balance (before ++ [c.current]) := by
    simp only [balance_append, balance_cons, balance_nil]
    omega
  obtain ⟨us, hrest, hends, hblames⟩ := h hbefore' stop c' hstop
  refine ⟨c.current :: us, ?_, ?_, ?_⟩
  · rw [Cursor.rest_eq_cons hc, hrest, List.cons_append]
  · intro t ht
    obtain rfl | ht := List.mem_cons.mp ht
    · exact Cursor.current_kind_ne hc
    · exact hends t ht
  · simpa using hblames

/-- Only a closing brace has a negative weight. -/
theorem weight_nonneg {t : Token} {kind : Kind} (h : t.kind = kind) (hkind : kind ≠ .rightBrace) :
    0 ≤ t.weight := by
  unfold Token.weight Kind.weight
  split
  · simp
  · next ht => exact absurd (h.symm.trans ht) hkind
  · simp

/-- Taking a token that was looked at. -/
theorem take_bind {kind : Kind} {f : PUnit → Parser β} (hc : c.current.kind = kind)
    (hend : kind ≠ .endOfInput) (hbrace : kind ≠ .rightBrace)
    (h : Faults (before ++ [c.current]) c.forward (f PUnit.unit)) :
    Faults before c (Functor.discard advance >>= f) :=
  discard_bind (advance_bind (Cursor.atEnd_of_current_kind hc hend) (weight_nonneg hc hbrace) h)

/-- A token of a wanted kind; if it is of another kind, it is the one blamed. -/
theorem expect_bind {kind : Kind} {expected : Expected} {f : Token → Parser β}
    (hkind : kind ≠ .rightBrace) (hexpected : Plain expected)
    (h : c.current.kind = kind → Faults (before ++ [c.current]) c.forward (f c.current)) :
    Faults before c (expect kind expected >>= f) := by
  intro hbefore stop c' hstop
  cases hsees : c.sees kind with
  | true =>
      rw [bind_of_ok f (expect_of_sees expected hsees)] at hstop
      have hcurrent := Cursor.current_kind_of_sees hsees
      exact advance_bind (Cursor.atEnd_of_sees hsees) (weight_nonneg hcurrent hkind) (h hcurrent)
        hbefore stop c' hstop
  | false =>
      have hfault := expect_of_not_sees expected hsees
      exact of_error (bind_of_error f hfault) (blames_plain hexpected) hbefore stop c' hstop

/-- A token of a wanted kind, when nothing follows. -/
theorem expect {kind : Kind} {expected : Expected} (hkind : kind ≠ .rightBrace)
    (hexpected : Plain expected) : Faults before c (Parse.expect kind expected) := by
  rw [← bind_pure (Parse.expect kind expected)]
  exact expect_bind hkind hexpected fun _ => pure _

/-- A token of a kind that is taken if it is there. -/
theorem accept_bind {kind : Kind} {f : Bool → Parser β} (hkind : kind ≠ .rightBrace)
    (htaken : c.current.kind = kind → Faults (before ++ [c.current]) c.forward (f true))
    (hleft : Faults before c (f false)) : Faults before c (accept kind >>= f) := by
  intro hbefore stop c' hstop
  cases hsees : c.sees kind with
  | true =>
      rw [bind_of_ok f (accept_of_sees hsees)] at hstop
      have hcurrent := Cursor.current_kind_of_sees hsees
      exact advance_bind (f := fun _ => f true) (Cursor.atEnd_of_sees hsees)
        (weight_nonneg hcurrent hkind) (htaken hcurrent) hbefore stop c' hstop
  | false =>
      rw [bind_of_ok f (accept_of_not_sees hsees)] at hstop
      exact hleft hbefore stop c' hstop

/-! ## Nesting and repetition -/

/-- Counting a level of nesting: the limit, too, is blamed on the next token. -/
theorem nested {what : Construct} (h : Faults before { c with nesting := c.nesting + 1 } p) :
    Faults before c (Parse.nested what p) := by
  intro hbefore stop c' hstop
  by_cases hlimit : c.nesting < nestingLimit
  · cases hpc : p { c with nesting := c.nesting + 1 } with
    | ok a c₁ =>
        rw [nested_of_ok what hlimit hpc] at hstop
        contradiction
    | error e c₁ =>
        rw [nested_of_error what hlimit hpc] at hstop
        cases hstop
        exact h hbefore stop c' hpc
  · have hfault := nested_of_le (p := p) what (Nat.not_lt.mp hlimit)
    exact of_error hfault (blames_plain ⟨by simp, by simp⟩) hbefore stop c' hstop

/-- A list of items between commas, by induction on the fuel. -/
theorem separated {tooMany : Expected} {item : Parser α} {D : α → List Token → Prop}
    (htooMany : Plain tooMany) (hitem : ∀ before c, Faults before c item)
    (hreads : ∀ c, Reads c item D) (hD : ∀ a ts, D a ts → balance ts = 0) (n : Nat)
    (before : List Token) (c : Cursor) : Faults before c (Parse.separated tooMany item n) := by
  induction n generalizing before c with
  | zero => exact fail htooMany
  | succ n ih =>
      refine (hitem before c).bind (hreads c) hD fun _ _ _ _ _ => ?_
      exact accept_bind (by simp) (fun _ => (ih _ _).wrap _) (pure _)

/-- Semicolons between statements. -/
theorem skipSeparators (n : Nat) (before : List Token) (c : Cursor) :
    Faults before c (Parse.skipSeparators n) := by
  induction n generalizing before c with
  | zero => exact exhausted
  | succ n ih => exact accept_bind (by simp) (fun _ => ih _ _) (pure _)

end Faults

/-! ## Expressions -/

/- Expressions have no braces in them, so whatever they read is balanced and a fault in them
is blamed on the next token, a number token without a value apart (`faults_primary`).  The
rules are in the order of the grammar, from operators to unary expressions. -/

section Expressions

variable {expr operand : Parser Expr}

/-- The parser of a phrase of the grammar, which is blamed for nothing else. -/
structure Orderly (p : Parser Expr) (phrase : Expr → Phrase) : Prop where
  reads : ∀ c, Reads c p fun e ts => Derives (phrase e) ts
  faults : ∀ before c, Faults before c p

/-- A phrase, followed by a rule that goes on after its tokens. -/
theorem Orderly.bind {p : Parser Expr} {phrase : Expr → Phrase} (h : Orderly p phrase)
    {f : Expr → Parser β} {before : List Token} {c : Cursor}
    (hf : ∀ e ts c', Faults (before ++ ts) c' (f e)) : Faults before c (p >>= f) :=
  (h.faults before c).bind (h.reads c) (fun _ _ he => he.balance_eq) fun e ts c' _ _ => hf e ts c'

/-- The operators of one level; each operand is a phrase of the tighter levels. -/
theorem faults_operators {level : Level} {tighter : List Level}
    (hoperand : Orderly operand (.chain tighter)) (n : Nat) (left : Expr) (before : List Token)
    (c : Cursor) : Faults before c (operators level operand n left) := by
  induction n generalizing left before c with
  | zero => exact Faults.exhausted
  | succ n ih =>
      refine Faults.peek_bind ?_
      cases hop : level.operator? c.current.kind with
      | none => exact Faults.pure _
      | some op =>
          have hconnects := operator?_eq_some_iff.mp hop
          have hc := Cursor.atEnd_of_current_kind rfl hconnects.ne_endOfInput
          have hweight : 0 ≤ c.current.weight := Int.le_of_eq hconnects.weight_eq.symm
          refine Faults.discard_bind (Faults.advance_bind hc hweight (Faults.nested ?_))
          exact hoperand.bind fun _ _ c' => ih _ _ c'

/-- All levels, by induction on their list. -/
theorem orderly_climb {fuel : Nat} (hoperand : Orderly operand .unary) (levels : List Level) :
    Orderly (climb fuel operand levels) (.chain levels) := by
  refine ⟨reads_climb hoperand.reads levels, fun before c => ?_⟩
  induction levels generalizing before c with
  | nil => exact hoperand.faults before c
  | cons level tighter ih =>
      have htighter : Orderly (climb fuel operand tighter) (.chain tighter) :=
        ⟨reads_climb hoperand.reads tighter, ih⟩
      exact htighter.bind fun left ts c' => faults_operators htighter fuel left _ c'

/-- An expression with its guard against deep nesting. -/
theorem orderly_expression {fuel : Nat} (hoperand : Orderly operand .unary) :
    Orderly (expression fuel operand) .expression :=
  ⟨reads_expression hoperand.reads,
    fun before _ => Faults.nested ((orderly_climb hoperand Level.all).faults before _)⟩

/-- The arguments of a call, up to the closing parenthesis. -/
theorem faults_arguments (hexpr : Orderly expr .expression) (before : List Token) (c : Cursor) :
    Faults before c (arguments expr) := by
  have hclose : ∀ (args : List Expr) before c, Faults before c
      (discard (expect .rightParen .closeArguments) >>= fun _ => Pure.pure args) :=
    fun args before c => Faults.discard_bind
      (Faults.expect_bind (by simp) ⟨by simp, by simp⟩ fun _ => Faults.pure args)
  refine Faults.sees_bind (Faults.ite (fun _ => hclose [] before c) fun _ => ?_)
  refine Faults.bind (D := fun es ts => Derives (.arguments es) ts ∧ es.length ≤ listLimit)
    (Faults.separated ⟨by simp, by simp⟩ hexpr.faults hexpr.reads (fun _ _ h => h.balance_eq) _ _ _)
    (reads_arguments hexpr.reads listLimit c) (fun _ _ h => h.1.balance_eq)
    fun args _ c' _ _ => hclose args _ c'

/-- The differential that an integral may end in. -/
theorem faults_differential (var : String) (before : List Token) (c : Cursor) :
    Faults before c (differential var) := by
  refine Faults.sees_bind (Faults.ite (fun _ => ?_) fun _ => Faults.pure _)
  refine Faults.peek_bind (Faults.ite (fun _ => ?_) fun _ => Faults.pure _)
  rw [Stateful.discard_eq]
  exact Faults.wrap _ (Faults.of_ok (advance_apply c))

/-- An aggregate, from its symbol on. -/
theorem faults_aggregate {unary : Parser Expr} (hexpr : Orderly expr .expression)
    (hunary : Orderly unary .unary) {kind : Aggregate} {before : List Token} {c : Cursor}
    (hsymbol : Denotes c.current.kind kind) (hc : c.atEnd = false) :
    Faults before c (aggregate expr unary kind) := by
  have hweight : 0 ≤ c.current.weight := Int.le_of_eq hsymbol.weight_eq.symm
  refine Faults.advance_bind hc hweight ?_
  refine Faults.discard_bind (Faults.expect_bind (by simp) ⟨by simp, by simp⟩ fun _ => ?_)
  refine Faults.expect_bind (by simp) ⟨by simp, by simp⟩ fun _ => ?_
  refine Faults.discard_bind (Faults.expect_bind (by simp) ⟨by simp, by simp⟩ fun _ => ?_)
  refine hexpr.bind fun _ _ _ => ?_
  refine Faults.discard_bind (Faults.expect_bind (by simp) ⟨by simp, by simp⟩ fun _ => ?_)
  refine hexpr.bind fun _ _ _ => ?_
  refine Faults.discard_bind (Faults.expect_bind (by simp) ⟨by simp, by simp⟩ fun _ => ?_)
  refine hunary.bind fun body _ c' => ?_
  exact Faults.ite (fun _ => (faults_differential _ _ c').wrap _) fun _ => Faults.pure _

/-- A primary expression; only here is a number token read, which may be one that spells
no number. -/
theorem faults_primary {unary : Parser Expr} (hexpr : Orderly expr .expression)
    (hunary : Orderly unary .unary) (before : List Token) (c : Cursor) :
    Faults before c (primary expr unary) := by
  refine Faults.peek_bind ?_
  split
  · next ht =>
      refine Faults.take_bind ht (by simp) (by simp) ?_
      split
      · exact Faults.pure _
      · next hread =>
          refine Faults.of_error rfl fun hbefore => ⟨.inr ?_, hbefore, by rintro ⟨⟩⟩
          exact ⟨c.current, by simp, ht, hread, rfl⟩
  · next s ht =>
      exact Faults.take_bind ht (by simp) (by simp) (Faults.pure _)
  · next ht =>
      exact Faults.take_bind ht (by simp) (by simp) (Faults.pure _)
  · next ht =>
      exact Faults.take_bind ht (by simp) (by simp) (Faults.pure _)
  · next ht =>
      refine Faults.take_bind ht (by simp) (by simp) ?_
      refine Faults.accept_bind (by simp) (fun _ => ?_) (Faults.pure _)
      exact (faults_arguments hexpr _ _).wrap _
  · next hl =>
      refine Faults.take_bind hl (by simp) (by simp) ?_
      refine hexpr.bind fun e _ _ => ?_
      exact Faults.discard_bind
        (Faults.expect_bind (by simp) ⟨by simp, by simp⟩ fun _ => Faults.pure e)
  · next o ho =>
      split
      · next kind hkind =>
          have hsymbol : Denotes c.current.kind kind := by
            rw [ho]
            exact aggregate_ofOperator?_eq_some_iff.mp hkind
          exact faults_aggregate hexpr hunary hsymbol (Cursor.atEnd_of_current_kind ho (by simp))
      · exact Faults.fail ⟨by simp, by simp⟩
  · exact Faults.fail ⟨by simp, by simp⟩

/-- Signs, negations and primary expressions, by induction on the fuel. -/
theorem orderly_unary (n : Nat) : Orderly (unary n) .unary := by
  refine ⟨reads_unary n, fun before c => ?_⟩
  induction n generalizing before c with
  | zero => exact Faults.exhausted
  | succ n ih =>
      have hunary : Orderly (unary n) .unary := ⟨reads_unary n, ih⟩
      refine Faults.peek_bind ?_
      split
      · next op hop =>
          have hprecedes := unaryOp?_eq_some_iff.mp hop
          have hc := Cursor.atEnd_of_current_kind rfl hprecedes.ne_endOfInput
          have hweight : 0 ≤ c.current.weight := Int.le_of_eq hprecedes.weight_eq.symm
          refine Faults.discard_bind (Faults.advance_bind hc hweight ?_)
          exact (Faults.nested (ih _ _)).wrap _
      · exact faults_primary (orderly_expression hunary) hunary before c

end Expressions

/-! ## Statements -/

/- Only here is a brace open while tokens are read: inside of a block the balance of what was
read is one more than outside, so `faults_sequence` has to be stated with the tokens read
before. -/

section Statements

/-- Statements up to a stop, by induction on the fuel. -/
theorem faults_sequence {stop : Cursor → Bool} {fuel : Nat} {statement : Parser Stmt}
    (hreads : ∀ c, Reads c statement fun s ts => Forms (.statement s) ts)
    (hstatement : ∀ before c, Faults before c statement) (n : Nat) (before : List Token)
    (c : Cursor) : Faults before c (statementsUntil stop fuel statement n) := by
  induction n generalizing before c with
  | zero => exact Faults.exhausted
  | succ n ih =>
      refine (Faults.skipSeparators fuel before c).bind (Reads.skipSeparators fuel c)
        (fun _ ts hts => balance_eq_zero hts (by simp) (by simp)) fun _ ts c₁ _ _ => ?_
      refine Faults.get_bind (Faults.ite (fun _ => Faults.pure _) fun _ => ?_)
      refine (hstatement _ c₁).bind (hreads c₁) (fun _ _ h => h.balance_eq) fun s us c₂ _ _ => ?_
      exact (ih _ c₂).wrap _

/-- After statements a closing brace is missed only at the end of input. -/
theorem faults_close (body : List Stmt) {before : List Token} (hopen : 0 < balance before)
    {c : Cursor} (hstop : (c.sees .rightBrace || c.atEnd) = true) : Faults before c
      (discard (expect .rightBrace .closeBlock) >>= fun _ => Pure.pure body) := by
  cases hsees : c.sees .rightBrace with
  | true =>
      have hread := bind_of_ok (fun _ => (Pure.pure body : Parser (List Stmt)))
        (expect_of_sees .closeBlock hsees)
      exact Faults.discard_bind (Faults.of_ok hread)
  | false =>
      have hfault := bind_of_error (fun _ => (Pure.pure body : Parser (List Stmt)))
        (expect_of_not_sees .closeBlock hsees)
      have hend : c.current.kind = .endOfInput := by
        rw [hsees, Bool.false_or] at hstop
        simpa [Cursor.atEnd] using hstop
      refine Faults.discard_bind (Faults.of_error hfault fun hbefore => ?_)
      exact ⟨.inl ⟨by rintro ⟨⟩, rfl⟩, hbefore, fun _ => ⟨hend, hopen⟩⟩

/-- A block. Its statements are read with a brace open, so that a missing brace is told
from one too many. -/
theorem faults_block {fuel : Nat} {statement : Parser Stmt}
    (hreads : ∀ c, Reads c statement fun s ts => Forms (.statement s) ts)
    (hstatement : ∀ before c, Faults before c statement) (before : List Token) (c : Cursor) :
    Faults before c (block fuel statement) := by
  intro hbefore
  refine Faults.discard_bind (Faults.expect_bind (by simp) ⟨by simp, by simp⟩ fun hl => ?_) hbefore
  refine Faults.nested ?_
  rw [statements_eq]
  refine (faults_sequence hreads hstatement fuel _ _).bind (reads_sequence hreads fuel _)
    (fun _ _ h => h.balance_eq) fun body ts c' hread hbody => ?_
  have hopen : 0 < balance (before ++ [c.current] ++ ts) := by
    simp [Token.weight, Kind.weight, hl, hbody.balance_eq]
    omega
  exact faults_close body hopen (stop_of_statementsUntil hread)

variable {expr : Parser Expr} {blocks : Parser (List Stmt)}

/-- The parser of blocks, which is blamed for nothing else. -/
structure OrderlyBlocks (blocks : Parser (List Stmt)) : Prop where
  reads : ∀ c, Reads c blocks fun body ts => Forms (.block body) ts
  faults : ∀ before c, Faults before c blocks

/-- A block, followed by a rule that goes on after its tokens. -/
theorem OrderlyBlocks.bind (h : OrderlyBlocks blocks) {f : List Stmt → Parser β}
    {before : List Token} {c : Cursor} (hf : ∀ body ts c', Faults (before ++ ts) c' (f body)) :
    Faults before c (blocks >>= f) :=
  (h.faults before c).bind (h.reads c) (fun _ _ hbody => hbody.balance_eq)
    fun body ts c' _ _ => hf body ts c'

/-- The parameters of a function. -/
theorem faults_parameters (n : Nat) (before : List Token) (c : Cursor) :
    Faults before c (separated .fewerParameters (expect .identifier .parameterName) n) := by
  refine Faults.separated ⟨by simp, by simp⟩ (fun _ _ => ?_) (fun _ => Reads.expect) ?_ n before c
  · exact Faults.expect (by simp) ⟨by simp, by simp⟩
  · rintro t ts ⟨rfl, ht⟩
    simp [Token.weight, Kind.weight, ht]

/-- A function definition, after its keyword. -/
theorem faults_definition (hblocks : OrderlyBlocks blocks) (pos : Position) (before : List Token)
    (c : Cursor) : Faults before c (definition blocks pos) := by
  refine Faults.expect_bind (by simp) ⟨by simp, by simp⟩ fun _ => ?_
  refine Faults.discard_bind (Faults.expect_bind (by simp) ⟨by simp, by simp⟩ fun _ => ?_)
  refine Faults.sees_bind (Faults.ite (fun _ => ?_) fun _ => ?_)
  · refine Faults.discard_bind (Faults.expect_bind (by simp) ⟨by simp, by simp⟩ fun _ => ?_)
    exact (hblocks.faults _ _).wrap _
  · refine (faults_parameters listLimit _ _).bind (reads_parameters listLimit _)
      (fun _ _ h => h.1.balance_eq) fun params _ c' _ _ => ?_
    refine Faults.discard_bind (Faults.expect_bind (by simp) ⟨by simp, by simp⟩ fun _ => ?_)
    exact (hblocks.faults _ _).wrap _

/-- An if statement, by induction on the number of branches. -/
theorem faults_conditional (hexpr : Orderly expr .expression) (hblocks : OrderlyBlocks blocks)
    (n : Nat) (pos : Position) (before : List Token) (c : Cursor) :
    Faults before c (conditional expr blocks n pos) := by
  induction n generalizing pos before c with
  | zero => exact Faults.exhausted
  | succ n ih =>
      refine hexpr.bind fun _ _ _ => hblocks.bind fun _ _ _ => ?_
      refine Faults.accept_bind (by simp) (fun _ => Faults.peek_bind ?_) (Faults.pure _)
      refine Faults.accept_bind (by simp) (fun _ => ?_) ?_
      · exact (Faults.nested (ih _ _ _)).wrap _
      · exact (hblocks.faults _ _).wrap _

/-- A while or for loop, after its keyword. -/
theorem faults_iteration (hexpr : Orderly expr .expression) (hblocks : OrderlyBlocks blocks)
    (pos : Position) (before : List Token) (c : Cursor) :
    Faults before c (iteration expr blocks pos) := by
  refine Faults.expect_bind (by simp) ⟨by simp, by simp⟩ fun _ => ?_
  refine Faults.discard_bind (Faults.expect_bind (by simp) ⟨by simp, by simp⟩ fun _ => ?_)
  exact hexpr.bind fun _ _ _ => (hblocks.faults _ _).wrap _

/-- A return statement, with or without a value. -/
theorem faults_giveBack (hexpr : Orderly expr .expression) (pos : Position) (before : List Token)
    (c : Cursor) : Faults before c (giveBack expr pos) := by
  refine Faults.sees_bind (Faults.sees_bind (Faults.atEnd_bind ?_))
  exact Faults.ite (fun _ => Faults.pure _) fun _ => (hexpr.faults _ _).wrap _

/-- An assignment, whose name was looked at. -/
theorem faults_assignment (hexpr : Orderly expr .expression) {before : List Token} {c : Cursor}
    (hname : c.current.kind = .identifier) : Faults before c (assignment expr) := by
  refine Faults.advance_bind (Cursor.atEnd_of_current_kind hname (by simp))
    (Faults.weight_nonneg hname (by simp)) ?_
  refine Faults.discard_bind (Faults.expect_bind (by simp) ⟨by simp, by simp⟩ fun _ => ?_)
  exact (hexpr.faults _ _).wrap _

/-- The body of a statement: a case for each keyword. -/
theorem faults_statementBody (hexpr : Orderly expr .expression) (hblocks : OrderlyBlocks blocks)
    (fuel : Nat) (before : List Token) (c : Cursor) :
    Faults before c (statementBody fuel expr blocks) := by
  refine Faults.peek_bind ?_
  split
  · next hf => exact Faults.take_bind hf (by simp) (by simp) (faults_definition hblocks _ _ _)
  · next hi =>
      exact Faults.take_bind hi (by simp) (by simp) (faults_conditional hexpr hblocks _ _ _ _)
  · next hw =>
      refine Faults.take_bind hw (by simp) (by simp) ?_
      exact hexpr.bind fun _ _ _ => (hblocks.faults _ _).wrap _
  · next hf =>
      exact Faults.take_bind hf (by simp) (by simp) (faults_iteration hexpr hblocks _ _ _)
  · next hr => exact Faults.take_bind hr (by simp) (by simp) (faults_giveBack hexpr _ _ _)
  · next hname =>
      refine Faults.assignFollows_bind fun b => Faults.ite (fun _ => ?_) fun _ => ?_
      · exact faults_assignment hexpr hname
      · exact (hexpr.faults _ _).wrap _
  · exact (hexpr.faults _ _).wrap _

/-- A statement with its separators, by induction on the fuel. -/
theorem faults_statement {fuel : Nat} (hexpr : Orderly expr .expression) (n : Nat)
    (before : List Token) (c : Cursor) : Faults before c (statement fuel expr n) := by
  induction n generalizing before c with
  | zero => exact Faults.exhausted
  | succ n ih =>
      have hreads : ∀ c, Reads c (statement fuel expr n) fun s ts => Forms (.statement s) ts :=
        reads_statement hexpr.reads n
      have hblocks : OrderlyBlocks (block fuel (statement fuel expr n)) :=
        ⟨reads_block hreads, faults_block hreads ih⟩
      refine (faults_statementBody hexpr hblocks fuel before c).bind
        (reads_statementBody hexpr.reads hblocks.reads fuel c) (fun _ _ h => h.balance_eq)
        fun s ts c' _ _ => ?_
      exact Faults.discard_bind
        (Faults.accept_bind (by simp) (fun _ => Faults.pure _) (Faults.pure _))

end Statements

/-! ## Programs -/

/-- The whole program, before which nothing was read. -/
theorem faults_wholeProgram (fuel : Nat) (c : Cursor) : Faults [] c (wholeProgram fuel) := by
  have hexpr : Orderly (expression fuel (unary fuel)) .expression :=
    orderly_expression (orderly_unary fuel)
  rw [wholeProgram, program_eq]
  exact faults_sequence (reads_statement hexpr.reads fuel) (faults_statement hexpr fuel) fuel [] c

/-- What the parser reports is what its run stopped with. -/
theorem parseTokens_eq_error {tokens : List Token} {e : GrammarError}
    (hterminated : terminated tokens = true) (h : parseTokens tokens = .error e) :
    ∃ stop c, run tokens = .error stop c ∧ e = stop.errorAt c := by
  rw [parseTokens, if_pos hterminated] at h
  split at h
  · contradiction
  · next e' c hrun =>
      cases h
      exact ⟨_, c, hrun, rfl⟩
  · next c hrun =>
      cases h
      exact ⟨_, c, hrun, rfl⟩

/-- A token sequence that is not accepted has a token before which the fault is met,
after tokens short of the end of input. -/
theorem blames_of_parseTokens {body : List Token} {eoi : Token} {e : GrammarError}
    (heoi : eoi.kind = .endOfInput) (h : parseTokens (body ++ [eoi]) = .error e) :
    ∃ ts next rest, body ++ [eoi] = ts ++ next :: rest ∧ (∀ t ∈ ts, t.kind ≠ .endOfInput) ∧
      Blames e ts next := by
  have hterminated : terminated (body ++ [eoi]) = true := terminated_concat heoi
  obtain ⟨stop, c, hrun, rfl⟩ := parseTokens_eq_error hterminated h
  obtain ⟨ts, hsplit, hends, hblames⟩ :=
    faults_wholeProgram _ _ (Int.le_refl 0) stop c hrun
  cases hrest : c.rest with
  | nil =>
      rw [hrest, List.append_nil] at hsplit
      exact absurd heoi (hends eoi (hsplit ▸ List.mem_append_right body List.mem_cons_self))
  | cons next rest =>
      have hcurrent : c.current = next := by rw [Cursor.current, hrest]; rfl
      rw [hrest] at hsplit
      rw [hcurrent] at hblames
      exact ⟨ts, next, rest, hsplit, hends, hblames⟩

end Parse

end Abacus
