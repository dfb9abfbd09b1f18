import Abacus.Proofs.Parse.Primitive
import Abacus.Proofs.Token.Spacing
import Abacus.Proofs.Tree.Relocate

/-!
# Abacus.Proofs.Parse.Coupling

Two parsers side by side.  A `Coupling` says how the tokens of two sequences
correspond: one by one they differ only in their places, each seen through a map of its
side, up to the first end of input of the first sequence.  The second has its end of
input there too, or it is *cut*: a semicolon stands there, and more may follow.

`Abreast k V p p'` says that at corresponding cursors, at most `k` tokens before the
end, the two parsers come to corresponding outcomes: values related by `V` at cursors
that correspond again, or faults that differ in their places only.  In a sequence that
is cut nothing is said after a fault of the first.  There is one lemma for each
primitive step; a step that takes a token brings the cursors closer to the end.
-/

namespace Abacus

/-! ## Other places -/

/-- The fault at another place. -/
def GrammarError.relocate (f : Position → Position) (e : GrammarError) : GrammarError :=
  { e with pos := f e.pos }

/-! ## Couplings -/

/-- Two ways for a token sequence to end, and the maps through which places are
compared. -/
structure Coupling where
  left : Position → Position
  right : Position → Position
  /-- The end of input of the first sequence. -/
  ending : Token
  /-- What stands after it. -/
  beyond : List Token
  /-- What the second sequence has in its place. -/
  ending' : Token
  beyond' : List Token
  kind_ending : ending.kind = .endOfInput
  closes : ending.relocate left = ending'.relocate right ∨ ending'.kind = .semicolon

namespace Coupling

variable (A : Coupling) {α β γ δ : Type}

/-- The second sequence goes on where the first one ends. -/
def Cut : Prop := A.ending'.kind = .semicolon

/-- Two tokens that differ in their places only. -/
def tokens (t t' : Token) : Prop := t.relocate A.left = t'.relocate A.right

/-- Two expressions that differ in their places only. -/
def exprs (e e' : Expr) : Prop := e.relocate A.left = e'.relocate A.right

/-- Two statements that differ in their places only. -/
def stmts (s s' : Stmt) : Prop := s.relocate A.left = s'.relocate A.right

/-- Two lists of statements that differ in their places only. -/
def bodies (b b' : List Stmt) : Prop :=
  b.map (Stmt.relocate A.left) = b'.map (Stmt.relocate A.right)

/-- Two sequences that correspond, with the given number of tokens before the end. -/
inductive Ahead : Nat → List Token → List Token → Prop
  | finish : Ahead 0 (A.ending :: A.beyond) (A.ending' :: A.beyond')
  | token {k : Nat} {t t' : Token} {ts ts' : List Token} (ht : A.tokens t t')
      (hkind : t.kind ≠ .endOfInput) (h : Ahead k ts ts') : Ahead (k + 1) (t :: ts) (t' :: ts')

/-- Two cursors before sequences that correspond, inside of as many constructs. -/
structure Beside (k : Nat) (c c' : Cursor) : Prop where
  rest : A.Ahead k c.rest c'.rest
  nesting : c.nesting = c'.nesting

/-- Two outcomes that correspond. -/
inductive Agrees (k : Nat) (V : α → β → Prop) : EStateM.Result ParseStop Cursor α →
    EStateM.Result ParseStop Cursor β → Prop
  | ok {i : Nat} {a : α} {b : β} {c c' : Cursor} (hi : i ≤ k) (hc : A.Beside i c c') (h : V a b) :
      Agrees k V (.ok a c) (.ok b c')
  | fault {e e' : GrammarError} {c c' : Cursor} (h : e.relocate A.left = e'.relocate A.right) :
      Agrees k V (.error (.fault e) c) (.error (.fault e') c')
  | cut {e : ParseStop} {c : Cursor} {r : EStateM.Result ParseStop Cursor β} (h : A.Cut) :
      Agrees k V (.error e c) r

/-- At cursors at most `k` tokens before the end the parsers come to corresponding
outcomes. -/
def Abreast (k : Nat) (V : α → β → Prop) (p : Parser α) (p' : Parser β) : Prop :=
  ∀ j ≤ k, ∀ c c', A.Beside j c c' → A.Agrees j V (p c) (p' c')

/-- So they do at cursors that are not at the end. -/
def Inside (k : Nat) (V : α → β → Prop) (p : Parser α) (p' : Parser β) : Prop :=
  ∀ j < k, ∀ c c', A.Beside (j + 1) c c' → A.Agrees (j + 1) V (p c) (p' c')

variable {A} {k j : Nat} {c c' : Cursor} {V : α → β → Prop} {W : γ → δ → Prop}

/-- Tokens correspond if they have the same kind and text, at places that correspond. -/
theorem tokens_iff {t t' : Token} :
    A.tokens t t' ↔ t.kind = t'.kind ∧ t.lexeme = t'.lexeme ∧ A.left t.pos = A.right t'.pos := by
  simp [tokens, Token.relocate]

/-- A token that corresponds has the same kind and text, at a place of its own. -/
theorem tokens_mk {kind : Kind} {lexeme : String} {pos pos' : Position}
    (h : A.left pos = A.right pos') : A.tokens ⟨kind, lexeme, pos⟩ ⟨kind, lexeme, pos'⟩ :=
  tokens_iff.mpr ⟨rfl, rfl, h⟩

/-- A fault at corresponding tokens is the same fault. -/
theorem relocate_atToken {t t' : Token} (h : A.tokens t t') (expected : Expected) :
    (GrammarError.atToken expected t).relocate A.left =
      (GrammarError.atToken expected t').relocate A.right := by
  obtain ⟨hkind, hlexeme, hpos⟩ := tokens_iff.mp h
  simp [GrammarError.atToken, GrammarError.relocate, Token.describe, hkind, hlexeme, hpos]

/-- What the second sequence has at the end of the first ends it too, or cuts it. -/
theorem kind_ending' : A.ending'.kind = .endOfInput ∨ A.ending'.kind = .semicolon :=
  A.closes.imp (fun h => (tokens_iff.mp h).1 ▸ A.kind_ending) id

/-- Sequences whose ends correspond are not cut. -/
theorem not_cut_of_tokens (h : A.tokens A.ending A.ending') : ¬ A.Cut := by
  intro hcut
  have hkind : A.ending'.kind = .endOfInput := (tokens_iff.mp h).1 ▸ A.kind_ending
  rw [Cut, hkind] at hcut
  contradiction

/-! ## Cursors -/

/-- How long two sequences are that have as many tokens before the end. -/
theorem Ahead.length {ts ts' : List Token} (h : A.Ahead k ts ts') :
    ts.length = k + 1 + A.beyond.length ∧ ts'.length = k + 1 + A.beyond'.length := by
  induction h with
  | finish => simp [Nat.add_comm]
  | token _ _ _ ih =>
      simp only [List.length_cons]
      omega

/-- Tokens that correspond one by one, up to the end of the first sequence. -/
theorem ahead_of_map {ts ts' : List Token}
    (h : ts.map (Token.relocate A.left) = ts'.map (Token.relocate A.right))
    (hts : ∀ t ∈ ts, t.kind ≠ .endOfInput) :
    A.Ahead ts.length (ts ++ A.ending :: A.beyond) (ts' ++ A.ending' :: A.beyond') := by
  induction ts generalizing ts' with
  | nil =>
      obtain rfl : ts' = [] := by simpa using h.symm
      exact .finish
  | cons t ts ih =>
      cases ts' with
      | nil => contradiction
      | cons t' ts' =>
          obtain ⟨ht, htail⟩ := List.cons.inj h
          exact .token ht (hts t List.mem_cons_self)
            (ih htail fun u hu => hts u (List.mem_cons_of_mem t hu))

namespace Beside

/-- At the end the cursors stand before the two endings. -/
theorem current_zero (h : A.Beside 0 c c') :
    c.current = A.ending ∧ c'.current = A.ending' := by
  obtain ⟨rest, n⟩ := c
  obtain ⟨rest', n'⟩ := c'
  cases h.rest
  exact ⟨rfl, rfl⟩

theorem atEnd_zero (h : A.Beside 0 c c') : c.atEnd = true := by
  rw [Cursor.atEnd, h.current_zero.1, A.kind_ending]
  rfl

/-- Before the end they stand before tokens that correspond. -/
theorem current_succ (h : A.Beside (k + 1) c c') :
    A.tokens c.current c'.current ∧ c.current.kind ≠ .endOfInput := by
  obtain ⟨rest, n⟩ := c
  obtain ⟨rest', n'⟩ := c'
  cases h.rest with
  | token ht hkind _ => exact ⟨ht, hkind⟩

/-- Neither cursor is at the end before the end. -/
theorem atEnd_succ (h : A.Beside (k + 1) c c') : c.atEnd = false ∧ c'.atEnd = false := by
  obtain ⟨ht, hkind⟩ := h.current_succ
  simp [Cursor.atEnd, hkind, ← (tokens_iff.mp ht).1]

/-- Taking a token on both sides brings the cursors closer to the end. -/
theorem forward (h : A.Beside (k + 1) c c') : A.Beside k c.forward c'.forward := by
  obtain ⟨hc, hc'⟩ := h.atEnd_succ
  obtain ⟨rest, n⟩ := c
  obtain ⟨rest', n'⟩ := c'
  rw [Cursor.forward, Cursor.forward, hc, hc', if_neg Bool.false_ne_true, if_neg Bool.false_ne_true]
  cases h with
  | mk hrest hnesting =>
      cases hrest with
      | token _ _ hts => exact ⟨hts, hnesting⟩

/-- Before the end a kind is seen on both sides or on neither. -/
theorem sees_succ (h : A.Beside (k + 1) c c') (kind : Kind) : c.sees kind = c'.sees kind := by
  rw [Cursor.sees, Cursor.sees, h.atEnd_succ.1, h.atEnd_succ.2,
    (tokens_iff.mp h.current_succ.1).1]

/-- At the end nothing is seen but a semicolon. -/
theorem sees_zero (h : A.Beside 0 c c') {kind : Kind} (hkind : kind ≠ .semicolon) :
    c.sees kind = false ∧ c'.sees kind = false := by
  refine ⟨by rw [Cursor.sees, h.atEnd_zero]; rfl, ?_⟩
  rw [Cursor.sees, Cursor.atEnd, h.current_zero.2]
  obtain hend | hend := A.kind_ending'
  · simp [hend]
  · simp [hend, hkind.symm]

/-- A semicolon closes a return as the end of input does. -/
theorem returns_eq (h : A.Beside k c c') :
    (c.sees .rightBrace || c.sees .semicolon || c.atEnd) =
      (c'.sees .rightBrace || c'.sees .semicolon || c'.atEnd) := by
  cases k with
  | succ k => rw [h.sees_succ, h.sees_succ, h.atEnd_succ.1, h.atEnd_succ.2]
  | zero =>
      have hends : (c'.sees .semicolon || c'.atEnd) = true := by
        rw [Cursor.sees, Cursor.atEnd, h.current_zero.2]
        obtain hend | hend := A.kind_ending'
        · simp [hend]
        · simp [hend]
      rw [h.atEnd_zero, Bool.or_true, Bool.or_assoc, hends, Bool.or_true]

theorem sees_semicolon_of_tokens (h : A.Beside 0 c c') (hends : A.tokens A.ending A.ending') :
    c'.sees .semicolon = false := by
  rw [Cursor.sees, Cursor.atEnd, h.current_zero.2, ← (tokens_iff.mp hends).1, A.kind_ending]
  rfl

/-- Past the cut stands what the second sequence goes on with. -/
theorem forward_of_cut (h : A.Beside 0 c c') (hcut : A.Cut) :
    c'.sees .semicolon = true ∧ c'.forward = ⟨A.beyond', c.nesting⟩ := by
  obtain ⟨rest, n⟩ := c
  obtain ⟨rest', n'⟩ := c'
  obtain rfl : n = n' := h.nesting
  cases h.rest
  exact ⟨Cursor.sees_cons hcut (by simp), Cursor.forward_cons (by simp [show _ = _ from hcut])⟩

/-- The nesting may be changed on both sides. -/
theorem renest (h : A.Beside k c c') (f : Nat → Nat) :
    A.Beside k { c with nesting := f c.nesting } { c' with nesting := f c'.nesting } :=
  ⟨h.rest, congrArg f h.nesting⟩

/-- What is wanted at a token that corresponds is wanted at the other. -/
theorem agrees_fault (h : A.Beside k c c') (expected : Expected) {d d' : Cursor} :
    A.Agrees k V (.error (.fault (.atToken expected c.current)) d)
      (.error (.fault (.atToken expected c'.current)) d') := by
  cases k with
  | zero =>
      obtain ⟨hc, hc'⟩ := h.current_zero
      rw [hc, hc']
      obtain hends | hcut := A.closes
      · exact .fault (relocate_atToken hends expected)
      · exact .cut hcut
  | succ k => exact .fault (relocate_atToken h.current_succ.1 expected)

end Beside

/-! ## One parser after another -/

/-- An outcome that corresponds closer to the end does so farther from it. -/
theorem Agrees.mono {r : EStateM.Result ParseStop Cursor α} {r' : EStateM.Result ParseStop Cursor β}
    (h : A.Agrees j V r r') (hj : j ≤ k) : A.Agrees k V r r' := by
  cases h with
  | ok hi hc h => exact .ok (Nat.le_trans hi hj) hc h
  | fault h => exact .fault h
  | cut h => exact .cut h

namespace Abreast

variable {p : Parser α} {p' : Parser β} {f : α → Parser γ} {f' : β → Parser δ}

/-- Parsers that are abreast far from the end are so closer to it. -/
theorem mono (h : A.Abreast k V p p') (hj : j ≤ k) : A.Abreast j V p p' :=
  fun i hi c c' hc => h i (Nat.le_trans hi hj) c c' hc

/-- Parsers that are abreast are so before the end. -/
theorem inside (h : A.Abreast k V p p') : A.Inside k V p p' :=
  fun j hj c c' hc => h (j + 1) hj c c' hc

theorem pure {a : α} {b : β} (h : V a b) : A.Abreast k V (Pure.pure a) (Pure.pure b) :=
  fun j _ _ _ hc => .ok (Nat.le_refl j) hc h

/-- A rule that fails on its own account blames the next token on both sides. -/
theorem fail (expected : Expected) :
    A.Abreast k V (Parse.fail expected : Parser α) (Parse.fail expected : Parser β) :=
  fun _ _ _ _ hc => hc.agrees_fault expected

/-- One parser after another; the second starts no farther from the end. -/
theorem bind (hp : A.Abreast k V p p') (hf : ∀ a b, V a b → A.Abreast k W (f a) (f' b)) :
    A.Abreast k W (p >>= f) (p' >>= f') := by
  intro j hj c c' hc
  have h := hp j hj c c' hc
  generalize hr : p c = r, hr' : p' c' = r' at h
  cases h with
  | ok hi hc₁ hab =>
      rw [Stateful.bind_of_ok f hr, Stateful.bind_of_ok f' hr']
      exact (hf _ _ hab _ (Nat.le_trans hi hj) _ _ hc₁).mono hi
  | fault he =>
      rw [Stateful.bind_of_error f hr, Stateful.bind_of_error f' hr']
      exact .fault he
  | cut hcut =>
      rw [Stateful.bind_of_error f hr]
      exact .cut hcut

/-- A value that is the same on both sides. -/
theorem bind_eq {x x' : Parser α} {f f' : α → Parser γ} {W : γ → γ → Prop}
    (hx : A.Abreast k Eq x x') (hf : ∀ a, A.Abreast k W (f a) (f' a)) :
    A.Abreast k W (x >>= f) (x' >>= f') := by
  refine hx.bind fun a a' h => ?_
  rw [h]
  exact hf a'

/-- A choice whose condition both sides share. -/
theorem ite {b : Prop} [Decidable b] {q : Parser α} {q' : Parser β} (hp : A.Abreast k V p p')
    (hq : A.Abreast k V q q') : A.Abreast k V (if b then p else q) (if b then p' else q') := by
  split
  · exact hp
  · exact hq

end Abreast

/-! ## Steps that look -/

namespace Inside

theorem ite {p q : Parser α} {p' q' : Parser β} {b : Prop} [Decidable b]
    (hp : A.Inside k V p p') (hq : A.Inside k V q q') :
    A.Inside k V (if b then p else q) (if b then p' else q') := by
  split
  · exact hp
  · exact hq

/-- A look at the next token, which has the same kind and text on both sides. -/
theorem peek_bind {K : Token → Parser α} {K' : Token → Parser β}
    (h : ∀ kind lexeme pos pos', A.left pos = A.right pos' →
      A.Inside k V (K ⟨kind, lexeme, pos⟩) (K' ⟨kind, lexeme, pos'⟩)) :
    A.Inside k V (Parse.peek >>= K) (Parse.peek >>= K') := by
  intro j hj c c' hc
  have ht := hc.current_succ.1
  show A.Agrees (j + 1) V (K c.current c) (K' c'.current c')
  generalize c.current = t, c'.current = t' at ht ⊢
  obtain ⟨kind, lexeme, pos⟩ := t
  obtain ⟨kind', lexeme', pos'⟩ := t'
  obtain ⟨rfl, rfl, hpos⟩ := tokens_iff.mp ht
  exact h kind lexeme pos pos' hpos j hj c c' hc

/-- A look at the second token: an equals sign is seen there on both sides or on neither. -/
theorem assignFollows_bind {K : Bool → Parser α} {K' : Bool → Parser β}
    (h : ∀ b, A.Inside k V (K b) (K' b)) :
    A.Inside k V (Parse.assignFollows >>= K) (Parse.assignFollows >>= K') := by
  intro j hj c c' hc
  have hnext : (c.rest.tail.head?.any fun t => t.kind = .operator .assign) =
      c'.rest.tail.head?.any fun t => t.kind = .operator .assign := by
    obtain ⟨rest, n⟩ := c
    obtain ⟨rest', n'⟩ := c'
    cases hc.rest with
    | token _ _ hts =>
        cases hts with
        | finish =>
            obtain hend | hend := A.kind_ending'
            · simp [A.kind_ending, hend]
            · simp [A.kind_ending, hend]
        | token ht _ _ => simp [(tokens_iff.mp ht).1]
  show A.Agrees (j + 1) V (K (c.rest.tail.head?.any fun t => t.kind = .operator .assign) c)
    (K' (c'.rest.tail.head?.any fun t => t.kind = .operator .assign) c')
  rw [hnext]
  exact h _ j hj c c' hc

/-! ## Steps that take a token -/

/-- A token that is taken on both sides. -/
theorem advance_bind {K : Token → Parser α} {K' : Token → Parser β}
    (h : ∀ j < k, ∀ t t', A.tokens t t' → A.Abreast j V (K t) (K' t')) :
    A.Inside k V (Parse.advance >>= K) (Parse.advance >>= K') := by
  intro j hj c c' hc
  have hagrees := h j hj _ _ hc.current_succ.1 j (Nat.le_refl j) _ _ hc.forward
  exact hagrees.mono (Nat.le_succ j)

/-- A token that is taken on both sides and not used. -/
theorem take_bind {K : PUnit → Parser α} {K' : PUnit → Parser β}
    (h : ∀ j < k, A.Abreast j V (K ()) (K' ())) :
    A.Inside k V (Functor.discard Parse.advance >>= K) (Functor.discard Parse.advance >>= K') := by
  rw [Stateful.discard_bind, Stateful.discard_bind]
  exact advance_bind fun j hj _ _ _ => h j hj

end Inside

namespace Abreast

/-- What is done with the next token, or with the two that end the sequences. -/
theorem peek_bind {K : Token → Parser α} {K' : Token → Parser β}
    (h : ∀ kind lexeme pos pos', A.left pos = A.right pos' →
      A.Inside k V (K ⟨kind, lexeme, pos⟩) (K' ⟨kind, lexeme, pos'⟩))
    (hend : ∀ lexeme pos kind' lexeme' pos', kind' = .endOfInput ∨ kind' = .semicolon →
      A.Abreast 0 V (K ⟨.endOfInput, lexeme, pos⟩) (K' ⟨kind', lexeme', pos'⟩)) :
    A.Abreast k V (Parse.peek >>= K) (Parse.peek >>= K') := by
  intro j hj c c' hc
  cases j with
  | succ j => exact Inside.peek_bind h j hj c c' hc
  | zero =>
      show A.Agrees 0 V (K c.current c) (K' c'.current c')
      obtain ⟨hending, hending'⟩ := hc.current_zero
      have hkind : c.current.kind = .endOfInput := hending ▸ A.kind_ending
      have hkind' : c'.current.kind = .endOfInput ∨ c'.current.kind = .semicolon :=
        hending' ▸ A.kind_ending'
      generalize c.current = t, c'.current = t' at hkind hkind' ⊢
      obtain ⟨kind, lexeme, pos⟩ := t
      obtain ⟨kind', lexeme', pos'⟩ := t'
      obtain rfl : kind = .endOfInput := hkind
      exact hend lexeme pos kind' lexeme' pos' hkind' 0 (Nat.le_refl 0) c c' hc

/-- Only a token before the end is seen. -/
theorem sees_bind {kind : Kind} (hkind : kind ≠ .semicolon) {K : Bool → Parser α}
    {K' : Bool → Parser β} (htrue : A.Inside k V (K true) (K' true))
    (hfalse : A.Abreast k V (K false) (K' false)) :
    A.Abreast k V (Parse.sees kind >>= K) (Parse.sees kind >>= K') := by
  intro j hj c c' hc
  show A.Agrees j V (K (c.sees kind) c) (K' (c'.sees kind) c')
  cases j with
  | zero =>
      obtain ⟨hsees, hsees'⟩ := hc.sees_zero hkind
      rw [hsees, hsees']
      exact hfalse 0 hj c c' hc
  | succ j =>
      rw [hc.sees_succ kind]
      cases c'.sees kind with
      | true => exact htrue j hj c c' hc
      | false => exact hfalse (j + 1) hj c c' hc

/-- A kind that is taken if it is there; at the end it is on neither side. -/
theorem accept_bind {kind : Kind} (hkind : kind ≠ .semicolon) {K : Bool → Parser α}
    {K' : Bool → Parser β} (htaken : ∀ j < k, A.Abreast j V (K true) (K' true))
    (hleft : A.Abreast k V (K false) (K' false)) :
    A.Abreast k V (Parse.accept kind >>= K) (Parse.accept kind >>= K') := by
  have haccept : ∀ {γ : Type} (K : Bool → Parser γ), Parse.accept kind >>= K =
      Parse.sees kind >>= fun b => if b then Functor.discard Parse.advance >>= fun _ => K true
        else K false := by
    intro γ K
    rw [Parse.accept, bind_assoc]
    refine congrArg _ (funext fun b => ?_)
    cases b with
    | false => exact pure_bind false K
    | true =>
        show (Functor.discard Parse.advance >>= fun _ => Pure.pure true) >>= K = _
        rw [bind_assoc]
        exact congrArg _ (funext fun _ => pure_bind true K)
  rw [haccept, haccept]
  exact sees_bind hkind (Inside.take_bind htaken) hleft

/-- A token of a wanted kind; another one is blamed on both sides. -/
theorem expect_bind {kind : Kind} (hkind : kind ≠ .semicolon) (expected : Expected)
    {K : Token → Parser α} {K' : Token → Parser β}
    (h : ∀ j < k, ∀ lexeme pos pos', A.left pos = A.right pos' →
      A.Abreast j V (K ⟨kind, lexeme, pos⟩) (K' ⟨kind, lexeme, pos'⟩)) :
    A.Abreast k V (Parse.expect kind expected >>= K) (Parse.expect kind expected >>= K') := by
  intro j hj c c' hc
  cases j with
  | zero =>
      obtain ⟨hsees, hsees'⟩ := hc.sees_zero hkind
      rw [Stateful.bind_of_error K (Parse.expect_of_not_sees expected hsees),
        Stateful.bind_of_error K' (Parse.expect_of_not_sees expected hsees')]
      exact hc.agrees_fault expected
  | succ j =>
      have hsame := hc.sees_succ kind
      cases hsees : c.sees kind with
      | false =>
          rw [Stateful.bind_of_error K (Parse.expect_of_not_sees expected hsees),
            Stateful.bind_of_error K' (Parse.expect_of_not_sees expected (hsame ▸ hsees))]
          exact hc.agrees_fault expected
      | true =>
          rw [Stateful.bind_of_ok K (Parse.expect_of_sees expected hsees),
            Stateful.bind_of_ok K' (Parse.expect_of_sees expected (hsame ▸ hsees))]
          have ht := hc.current_succ.1
          have hcurrent := Cursor.current_kind_of_sees hsees
          have hnext := hc.forward
          generalize c.current = t, c'.current = t' at ht hcurrent ⊢
          obtain ⟨kind, lexeme, pos⟩ := t
          obtain ⟨kind', lexeme', pos'⟩ := t'
          obtain ⟨rfl, rfl, hpos⟩ := tokens_iff.mp ht
          obtain rfl := hcurrent
          have hagrees := h j hj lexeme pos pos' hpos j (Nat.le_refl j) _ _ hnext
          exact hagrees.mono (Nat.le_succ j)

/-- A token that is wanted and not used. -/
theorem skip_bind {kind : Kind} (hkind : kind ≠ .semicolon) (expected : Expected)
    {K : PUnit → Parser α} {K' : PUnit → Parser β} (h : ∀ j < k, A.Abreast j V (K ()) (K' ())) :
    A.Abreast k V (Functor.discard (Parse.expect kind expected) >>= K)
      (Functor.discard (Parse.expect kind expected) >>= K') := by
  rw [Stateful.discard_bind, Stateful.discard_bind]
  exact expect_bind hkind expected fun j hj _ _ _ _ => h j hj

theorem expect {kind : Kind} (hkind : kind ≠ .semicolon) (expected : Expected) :
    A.Abreast k A.tokens (Parse.expect kind expected) (Parse.expect kind expected) := by
  rw [← bind_pure (Parse.expect kind expected)]
  exact expect_bind hkind expected fun _ _ _ _ _ hpos => pure (tokens_mk hpos)

/-! ## Nesting and repetition -/

/-- Counting a level of nesting, which is the same on both sides. -/
theorem nested {p : Parser α} {p' : Parser β} (what : Construct) (hp : A.Abreast k V p p') :
    A.Abreast k V (Parse.nested what p) (Parse.nested what p') := by
  intro j hj c c' hc
  by_cases hlimit : c.nesting < nestingLimit
  · have hlimit' : c'.nesting < nestingLimit := hc.nesting ▸ hlimit
    have h := hp j hj _ _ (hc.renest (· + 1))
    generalize hr : p _ = r, hr' : p' _ = r' at h
    cases h with
    | ok hi hc₁ hab =>
        rw [Parse.nested_of_ok what hlimit hr, Parse.nested_of_ok what hlimit' hr']
        exact .ok hi (hc₁.renest (· - 1)) hab
    | fault he =>
        rw [Parse.nested_of_error what hlimit hr, Parse.nested_of_error what hlimit' hr']
        exact .fault he
    | cut hcut =>
        rw [Parse.nested_of_error what hlimit hr]
        exact .cut hcut
  · have hle := Nat.not_lt.mp hlimit
    rw [Parse.nested_of_le what hle, Parse.nested_of_le what (hc.nesting ▸ hle)]
    exact hc.agrees_fault _

/-- Items that are related through `f` and `g` make lists that are. -/
theorem separated {item : Parser α} {item' : Parser β} {f : α → γ} {g : β → γ}
    (hitem : A.Abreast k (fun a b => f a = g b) item item') (tooMany : Expected) (n : Nat) :
    A.Abreast k (fun as bs => as.map f = bs.map g) (Parse.separated tooMany item n)
      (Parse.separated tooMany item' n) := by
  induction n generalizing k with
  | zero => exact fail tooMany
  | succ n ih =>
      refine hitem.bind fun a b hab => accept_bind (by simp) (fun j hj => ?_) ?_
      · refine (ih (hitem.mono (Nat.le_of_lt hj))).bind fun as bs has => pure ?_
        rw [List.map_cons, List.map_cons, hab, has]
      · exact pure (by rw [List.map_cons, List.map_cons, hab]; rfl)

end Abreast

end Coupling

/-! ## Semicolons -/

/-- Whether a token is a semicolon. -/
def Token.isSeparator (t : Token) : Bool := t.kind = .semicolon

/-- The cursor after the semicolons in front of it. -/
def Cursor.unseparated (c : Cursor) : Cursor :=
  { c with rest := c.rest.dropWhile Token.isSeparator }

namespace Coupling

variable {A : Coupling} {k : Nat} {α β : Type} {V : α → β → Prop}

/-- The fuel of both sides exceeds all that is left. -/
structure Ample (A : Coupling) (k fuel fuel' : Nat) : Prop where
  left : k + 1 + A.beyond.length < fuel
  right : k + 1 + A.beyond'.length < fuel'

/-- Fuel that is ample far from the end is so closer to it. -/
theorem Ample.mono {j fuel fuel' : Nat} (h : A.Ample k fuel fuel') (hj : j ≤ k) :
    A.Ample j fuel fuel' := by
  obtain ⟨hleft, hright⟩ := h
  exact ⟨by omega, by omega⟩

/-- After their semicolons two sequences correspond, unless the second is cut and runs
ahead of the end of the first. -/
theorem Ahead.dropWhile {ts ts' : List Token} (h : A.Ahead k ts ts') :
    (∃ i ≤ k, A.Ahead i (ts.dropWhile Token.isSeparator) (ts'.dropWhile Token.isSeparator) ∧
      (A.Cut → 0 < i)) ∨
    A.Cut ∧ ts.dropWhile Token.isSeparator = A.ending :: A.beyond ∧
      ts'.dropWhile Token.isSeparator = A.beyond'.dropWhile Token.isSeparator := by
  induction h with
  | finish =>
      have hending : Token.isSeparator A.ending = false := by
        simp [Token.isSeparator, A.kind_ending]
      rw [List.dropWhile_cons_of_neg (by simp [hending])]
      obtain hends | hcut := A.closes
      · have hkind : A.ending'.kind = .endOfInput := (tokens_iff.mp hends).1 ▸ A.kind_ending
        rw [List.dropWhile_cons_of_neg (by simp [Token.isSeparator, hkind])]
        exact .inl ⟨0, Nat.le_refl 0, .finish, fun hcut => absurd hcut (not_cut_of_tokens hends)⟩
      · rw [List.dropWhile_cons_of_pos (by simpa [Token.isSeparator] using hcut)]
        exact .inr ⟨hcut, rfl, rfl⟩
  | @token k t t' ts ts' ht hkind h ih =>
      have hsame : t'.isSeparator = t.isSeparator := by
        rw [Token.isSeparator, Token.isSeparator, (tokens_iff.mp ht).1]
      cases hsep : t.isSeparator with
      | true =>
          rw [List.dropWhile_cons_of_pos hsep, List.dropWhile_cons_of_pos (hsame.trans hsep)]
          refine ih.imp_left ?_
          rintro ⟨i, hi, hahead⟩
          exact ⟨i, Nat.le_succ_of_le hi, hahead⟩
      | false =>
          rw [List.dropWhile_cons_of_neg (by simp [hsep]),
            List.dropWhile_cons_of_neg (by simp [hsame, hsep])]
          exact .inl ⟨k + 1, Nat.le_refl _, .token ht hkind h, fun _ => Nat.succ_pos k⟩

/-- After their semicolons two cursors correspond, unless the first is at the end and the
second past the semicolon that cuts it. -/
theorem Beside.unseparated {c c' : Cursor} (h : A.Beside k c c') :
    (∃ i ≤ k, A.Beside i c.unseparated c'.unseparated ∧ (A.Cut → 0 < i)) ∨
    A.Cut ∧ c.unseparated.atEnd = true ∧
      c'.unseparated = (⟨A.beyond', c'.nesting⟩ : Cursor).unseparated := by
  obtain ⟨i, hi, hahead, hcut⟩ | ⟨hcut, hrest, hrest'⟩ := h.rest.dropWhile
  · exact .inl ⟨i, hi, ⟨hahead, h.nesting⟩, hcut⟩
  · refine .inr ⟨hcut, ?_, ?_⟩
    · rw [Cursor.atEnd, Cursor.current, Cursor.unseparated, hrest]
      simp [A.kind_ending]
    · rw [Cursor.unseparated, hrest', Cursor.unseparated]

/-- Statements that correspond in front of lists that do. -/
theorem bodies_cons {s s' : Stmt} {ss ss' : List Stmt} (hs : A.stmts s s')
    (h : A.bodies ss ss') : A.bodies (s :: ss) (s' :: ss') := by
  rw [bodies] at h ⊢
  rw [List.map_cons, List.map_cons, hs, h]

/-- Two outcomes of reading a statement: they correspond, or the first is at the end
and the second has taken the semicolon that cuts it. -/
inductive Settles (A : Coupling) (k : Nat) (V : α → β → Prop) :
    EStateM.Result ParseStop Cursor α → EStateM.Result ParseStop Cursor β → Prop
  | agrees {r : EStateM.Result ParseStop Cursor α} {r' : EStateM.Result ParseStop Cursor β}
      (h : A.Agrees k V r r') : Settles A k V r r'
  | past {a : α} {b : β} {c : Cursor} (hcut : A.Cut) (hc : c.atEnd = true) (h : V a b) :
      Settles A k V (.ok a c) (.ok b ⟨A.beyond', c.nesting⟩)

/-- Two outcomes of reading statements up to a brace: they correspond, or the first is at
the end. -/
inductive Trails (A : Coupling) (k : Nat) (V : α → β → Prop) :
    EStateM.Result ParseStop Cursor α → EStateM.Result ParseStop Cursor β → Prop
  | agrees {r : EStateM.Result ParseStop Cursor α} {r' : EStateM.Result ParseStop Cursor β}
      (h : A.Agrees k V r r') : Trails A k V r r'
  | ended {a : α} {c : Cursor} {r' : EStateM.Result ParseStop Cursor β} (hcut : A.Cut)
      (hc : c.atEnd = true) : Trails A k V (.ok a c) r'

/-- A statement in front of statements that trail. -/
theorem Trails.cons {j : Nat} {x x' : Parser (List Stmt)} {c c' : Cursor} {s s' : Stmt}
    (h : A.Trails j A.bodies (x c) (x' c')) (hj : j ≤ k) (hs : A.stmts s s') :
    A.Trails k A.bodies ((do let rest ← x; return s :: rest : Parser (List Stmt)) c)
      ((do let rest ← x'; return s' :: rest : Parser (List Stmt)) c') := by
  generalize hr : x c = r, hr' : x' c' = r' at h
  cases h with
  | agrees h =>
      cases h with
      | ok hi hc hss =>
          rw [Stateful.bind_of_ok _ hr, Stateful.bind_of_ok _ hr']
          exact .agrees (.ok (Nat.le_trans hi hj) hc (bodies_cons hs hss))
      | fault he =>
          rw [Stateful.bind_of_error _ hr, Stateful.bind_of_error _ hr']
          exact .agrees (.fault he)
      | cut hcut =>
          rw [Stateful.bind_of_error _ hr]
          exact .agrees (.cut hcut)
  | ended hcut hc =>
      rw [Stateful.bind_of_ok _ hr]
      exact .ended hcut hc

end Coupling

end Abacus
