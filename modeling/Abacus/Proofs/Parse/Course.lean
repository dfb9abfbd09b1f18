import Abacus.Proofs.Parse.Charted
import Abacus.Proofs.Parse.Grammar

/-!
# Abacus.Proofs.Parse.Course

The course of a parse.  A charted parse goes the way of the parser (`Follows`): where a rule
succeeds, the constructs that were open before it are open after it, and none was given back
that was not charged.

One level is free and every token taken pays for one more.  Each construct is opened only
after a token that pays for it: the first expression is free, an expression inside another
one stands behind a parenthesis, a comma or a word, a block behind its brace, and an operator
is a token itself.  So `Pays` says at a waypoint how many levels may still be opened before the
next token is taken: none where an operand starts, one where an expression or a statement
starts.
-/

namespace Abacus

/-! ## Waypoints of a parse -/

/-- The tokens taken pay for the open constructs, all but one, and for `credit` more. -/
def Waypoint.Pays (tokens : List Token) (credit : Nat) (s : Waypoint) : Prop :=
  ∃ taken, tokens = taken ++ s.rest ∧ s.opened.length + credit ≤ taken.length + 1

/-- No more constructs are open than may be, and the tokens taken pay for them. -/
structure Waypoint.Lies (tokens : List Token) (s : Waypoint) : Prop where
  le : s.opened.length ≤ nestingLimit
  pays : s.Pays tokens 0

/-- All waypoints of a course are such. -/
def Course.Sound (tokens : List Token) (u : Course) : Prop := ∀ s ∈ u.waypoints, s.Lies tokens

/-- The parse stops because too much is nested. -/
def ParseStop.AtLimit (e : ParseStop) : Prop :=
  ∃ what found pos, e = .fault ⟨.shallower what, found, pos⟩

namespace Waypoint

variable {tokens : List Token} {credit : Nat} {s : Waypoint}

/-- The waypoint after the next token. -/
def forward (s : Waypoint) : Waypoint := ⟨s.cursor.forward.rest, s.opened⟩

/-- The waypoint with one more construct open. -/
def enter (s : Waypoint) (what : Construct) : Waypoint := ⟨s.rest, what :: s.opened⟩

/-- Credit need not be used. -/
theorem Pays.mono (h : s.Pays tokens credit) {less : Nat} (hless : less ≤ credit) :
    s.Pays tokens less := by
  obtain ⟨taken, htokens, hle⟩ := h
  exact ⟨taken, htokens, by omega⟩

/-- Taking tokens and closing constructs leaves the credit. -/
theorem Pays.after (h : s.Pays tokens credit) {rest : List Token} (hrest : rest <:+ s.rest)
    {opened : List Construct} (hopened : opened.length ≤ s.opened.length) :
    (⟨rest, opened⟩ : Waypoint).Pays tokens credit := by
  obtain ⟨taken, htokens, hle⟩ := h
  obtain ⟨more, hmore⟩ := hrest
  refine ⟨taken ++ more, by rw [htokens, ← hmore, List.append_assoc], ?_⟩
  rw [List.length_append]
  show opened.length + credit ≤ taken.length + more.length + 1
  omega

/-- Taking a token adds to the credit. -/
theorem Pays.forward (h : s.Pays tokens credit) (hs : s.cursor.atEnd = false) :
    s.forward.Pays tokens (credit + 1) := by
  obtain ⟨taken, htokens, hle⟩ := h
  have hrest : s.rest = s.cursor.current :: s.forward.rest := Cursor.rest_eq_cons hs
  refine ⟨taken ++ [s.cursor.current], ?_, ?_⟩
  · rw [htokens, hrest, List.append_assoc]
    rfl
  · rw [List.length_append]
    show s.opened.length + (credit + 1) ≤ taken.length + 1 + 1
    omega

/-- Opening a construct takes from the credit. -/
theorem Pays.enter (h : s.Pays tokens (credit + 1)) (what : Construct) :
    (s.enter what).Pays tokens credit := by
  obtain ⟨taken, htokens, hle⟩ := h
  refine ⟨taken, htokens, ?_⟩
  show s.opened.length + 1 + credit ≤ taken.length + 1
  omega

/-- Taking tokens and closing constructs leaves a waypoint sound. -/
theorem Lies.after (h : s.Lies tokens) {rest : List Token} (hrest : rest <:+ s.rest)
    {opened : List Construct} (hopened : opened.length ≤ s.opened.length) :
    (⟨rest, opened⟩ : Waypoint).Lies tokens :=
  ⟨Nat.le_trans hopened h.le, h.pays.after hrest hopened⟩

end Waypoint

/-- Moving forward leaves an end of what was to be read. -/
theorem Cursor.forward_suffix (c : Cursor) : c.forward.rest <:+ c.rest := by
  unfold forward
  split
  · exact List.suffix_rfl
  · exact List.tail_suffix c.rest

/-- The course goes on at another sound waypoint. -/
theorem Course.Sound.move {tokens : List Token} {u : Course} (h : u.Sound tokens) {s : Waypoint}
    (hs : s.Lies tokens) : Course.Sound tokens ⟨s, u.waypoints⟩ := List.forall_mem_cons.mpr ⟨hs, h⟩

namespace Charted

open Stateful

variable {tokens : List Token} {k credit : Nat} {s : Waypoint} {α β : Type}

/-! ## Following a parser -/

/- `Follows` is about one waypoint, `Tracks` about all that have the credit.  The lemmas of
the section compose: `Follows.bind` goes from the waypoint before a reader to the one after
it, where the constructs are those of before, and `Follows.andThen` keeps the credit.  The
index `k` of `Follows` is not 0 only inside a run of operators, whose levels the charted
parser gives back all at once at the end. -/

/-- What the charted parse and the parse come to from a waypoint: a value, with the `k`
innermost constructs given back that the parser still counts, or the same stop, at the
limit only with as many constructs open as there may be. -/
inductive Accords (tokens : List Token) (s : Waypoint) (k : Nat) :
    EStateM.Result Mishap Course α → EStateM.Result ParseStop Cursor α → Prop
  | ok {a : α} {v : Course} (hrest : v.here.rest <:+ s.rest)
      (hopened : v.here.opened = s.opened.drop k) (hsound : v.Sound tokens) :
      Accords tokens s k (.ok a v) (.ok a ⟨v.here.rest, s.opened.length⟩)
  | stop {e : ParseStop} {v : Course} (hsound : v.Sound tokens)
      (hlimit : e.AtLimit → v.here.opened.length = nestingLimit) :
      Accords tokens s k (.error (.stop e) v) (.error e v.here.cursor)

/-- From the waypoint the charted parser goes the way of the parser. -/
def Follows (tokens : List Token) (s : Waypoint) (k : Nat) (x : Charted α) (p : Parser α) : Prop :=
  ∀ u : Course, u.here = s → u.Sound tokens → Accords tokens s k (x u) (p s.cursor)

/-- It does so from every waypoint with the credit. -/
def Tracks (tokens : List Token) (credit : Nat) (x : Charted α) (p : Parser α) : Prop :=
  ∀ s : Waypoint, s.Pays tokens credit → Follows tokens s 0 x p

/-- What a single step of a parser does: it looks, takes a token or stops. -/
inductive Single (c : Cursor) : EStateM.Result ParseStop Cursor α → Prop
  | look (a : α) : Single c (.ok a c)
  | take (a : α) : Single c (.ok a c.forward)
  | stop {e : ParseStop} (h : ¬ e.AtLimit) : Single c (.error e c)

namespace Follows

variable {x : Charted α} {p : Parser α} {f : α → Charted β} {g : α → Parser β}

theorem pure (a : α) : Follows tokens s 0 (Pure.pure a) (Pure.pure a) := by
  rintro u rfl hu
  exact .ok List.suffix_rfl rfl hu

/-- Both read on from the waypoint that the first leaves, where the same constructs are
open. -/
theorem bind (h : Follows tokens s 0 x p)
    (hf : ∀ a c, p s.cursor = .ok a c → c.rest <:+ s.rest →
      Follows tokens ⟨c.rest, s.opened⟩ k (f a) (g a)) :
    Follows tokens s k (x >>= f) (p >>= g) := by
  intro u hus hu
  have haccords := h u hus hu
  generalize hx : x u = r, hp : p s.cursor = r' at haccords
  cases haccords with
  | @ok a v hrest hopened hsound =>
      have hv : v.here = ⟨v.here.rest, s.opened⟩ := congrArg (Waypoint.mk v.here.rest) hopened
      have hnext : Accords tokens ⟨v.here.rest, s.opened⟩ k (f a v)
          (g a ⟨v.here.rest, s.opened.length⟩) := hf a _ hp hrest v hv hsound
      rw [bind_of_ok f hx, bind_of_ok g hp]
      generalize f a v = r, g a ⟨v.here.rest, s.opened.length⟩ = r' at hnext
      cases hnext with
      | ok hrest' hopened' hsound' => exact .ok (hrest'.trans hrest) hopened' hsound'
      | stop hsound' hlimit => exact .stop hsound' hlimit
  | stop hsound hlimit =>
      rw [bind_of_error f hx, bind_of_error g hp]
      exact .stop hsound hlimit

/-- One reader after another, both from any waypoint with the credit. -/
theorem andThen (h : Tracks tokens credit x p) (hs : s.Pays tokens credit)
    (hf : ∀ a, Tracks tokens credit (f a) (g a)) : Follows tokens s 0 (x >>= f) (p >>= g) :=
  bind (h s hs) fun a _ _ hrest => hf a _ (hs.after hrest (Nat.le_refl _))

/-- A reader whose value is not used. -/
theorem discard_bind {f : PUnit → Charted β} {g : PUnit → Parser β}
    (h : Follows tokens s k (x >>= fun _ => f PUnit.unit) (p >>= fun _ => g PUnit.unit)) :
    Follows tokens s k (Functor.discard x >>= f) (Functor.discard p >>= g) := by
  rw [Stateful.discard_bind, Stateful.discard_bind]
  exact h

/-- Both decide by the same condition. -/
theorem ite {b : Prop} [Decidable b] {y : Charted α} {q : Parser α}
    (h : b → Follows tokens s k x p) (h' : ¬ b → Follows tokens s k y q) :
    Follows tokens s k (if b then x else y) (if b then p else q) := by
  split
  · next hb => exact h hb
  · next hb => exact h' hb

/-! ## Steps -/

/- The steps of the parser look, take one token or stop (`Single`), and a charted step is the
step and a waypoint after it.  So one lemma, `step`, does for all of them, and the others say
what the rest of the rule starts from. -/

/-- A single step leaves the constructs that are open as they are, and does not stop at
the limit. -/
theorem step (h : Single s.cursor (p s.cursor)) : Follows tokens s 0 (Charted.step p) p := by
  rintro u rfl hu
  have hlies : u.here.Lies tokens := hu _ List.mem_cons_self
  rw [Charted.step]
  generalize p u.here.cursor = r at h ⊢
  cases h with
  | look a => exact .ok List.suffix_rfl rfl (hu.move hlies)
  | take a =>
      have hrest := Cursor.forward_suffix u.here.cursor
      have hsound := hu.move (hlies.after hrest (Nat.le_refl _))
      have hnesting := Cursor.nesting_forward u.here.cursor
      generalize hc : u.here.cursor.forward = c at *
      obtain ⟨rest, nesting⟩ := c
      obtain rfl : nesting = u.here.opened.length := hnesting
      exact .ok hrest rfl hsound
  | stop hlimit => exact .stop (hu.move hlies) fun h => absurd h hlimit

/-- After a step comes the rest, from the waypoint that the step leaves. -/
theorem step_bind (h : Single s.cursor (p s.cursor))
    (hf : ∀ a c, p s.cursor = .ok a c → Follows tokens ⟨c.rest, s.opened⟩ k (f a) (g a)) :
    Follows tokens s k (Charted.step p >>= f) (p >>= g) :=
  bind (step h) fun a c hp _ => hf a c hp

/-- Looking at the next token. -/
theorem peek_bind {f : Token → Charted β} {g : Token → Parser β}
    (h : Follows tokens s k (f s.cursor.current) (g s.cursor.current)) :
    Follows tokens s k (Charted.peek >>= f) (Parse.peek >>= g) :=
  step_bind (.look _) fun _ _ hp => by
    cases hp
    exact h

/-- Asking for a kind. -/
theorem sees_bind {kind : Kind} {f : Bool → Charted β} {g : Bool → Parser β}
    (h : Follows tokens s k (f (s.cursor.sees kind)) (g (s.cursor.sees kind))) :
    Follows tokens s k (Charted.sees kind >>= f) (Parse.sees kind >>= g) :=
  step_bind (.look _) fun _ _ hp => by
    cases hp
    exact h

/-- Asking for the end of input. -/
theorem atEnd_bind {f : Bool → Charted β} {g : Bool → Parser β}
    (h : Follows tokens s k (f s.cursor.atEnd) (g s.cursor.atEnd)) :
    Follows tokens s k (Charted.atEnd >>= f) (Parse.atEnd >>= g) :=
  step_bind (.look _) fun _ _ hp => by
    cases hp
    exact h

/-- Asking whether an equals sign follows the next token; both get the same answer,
whichever it is. -/
theorem assignFollows_bind {f : Bool → Charted β} {g : Bool → Parser β}
    (h : ∀ b, Follows tokens s k (f b) (g b)) :
    Follows tokens s k (Charted.assignFollows >>= f) (Parse.assignFollows >>= g) :=
  step_bind (.look _) fun b _ hp => by
    cases hp
    exact h _

/-- Taking the next token. -/
theorem advance_bind {f : Token → Charted β} {g : Token → Parser β}
    (h : Follows tokens s.forward k (f s.cursor.current) (g s.cursor.current)) :
    Follows tokens s k (Charted.advance >>= f) (Parse.advance >>= g) :=
  step_bind (.take _) fun _ _ hp => by
    cases hp
    exact h

/-- A token that must be there: after it, a token more was taken; the fault for its
absence is not the one of the limit. -/
theorem expect_bind {kind : Kind} {expected : Expected}
    (hexpected : ∀ what, expected ≠ .shallower what)
    {f : Token → Charted β} {g : Token → Parser β}
    (h : s.cursor.atEnd = false →
      Follows tokens s.forward k (f s.cursor.current) (g s.cursor.current)) :
    Follows tokens s k (Charted.expect kind expected >>= f) (Parse.expect kind expected >>= g) := by
  cases hsees : s.cursor.sees kind with
  | true =>
      have hp := Parse.expect_of_sees expected hsees
      refine step_bind (hp ▸ .take _) fun _ _ hp' => ?_
      rw [hp] at hp'
      cases hp'
      exact h (Cursor.atEnd_of_sees hsees)
  | false =>
      have hp := Parse.expect_of_not_sees expected hsees
      refine step_bind (hp ▸ .stop fun ⟨what, _, _, he⟩ => ?_) fun _ _ hp' => ?_
      · simp only [ParseStop.fault.injEq, GrammarError.atToken, GrammarError.mk.injEq] at he
        exact hexpected what he.1
      · rw [hp] at hp'
        contradiction

/-- An optional token: a token more was taken, or nothing changed. -/
theorem accept_bind {kind : Kind} {f : Bool → Charted β} {g : Bool → Parser β}
    (htaken : s.cursor.atEnd = false → Follows tokens s.forward k (f true) (g true))
    (hleft : Follows tokens s k (f false) (g false)) :
    Follows tokens s k (Charted.accept kind >>= f) (Parse.accept kind >>= g) := by
  cases hsees : s.cursor.sees kind with
  | true =>
      have hp := Parse.accept_of_sees hsees
      refine step_bind (hp ▸ .take _) fun _ _ hp' => ?_
      rw [hp] at hp'
      cases hp'
      exact htaken (Cursor.atEnd_of_sees hsees)
  | false =>
      have hp := Parse.accept_of_not_sees hsees
      refine step_bind (hp ▸ .look _) fun _ _ hp' => ?_
      rw [hp] at hp'
      cases hp'
      exact hleft

/-- A stop that is not at the limit says nothing about the open constructs. -/
theorem stop {e : ParseStop} (he : ¬ e.AtLimit) :
    Follows tokens s k (throw (.stop e) : Charted α) (throw e) := by
  rintro u rfl hu
  exact .stop hu fun h => absurd h he

/-- Without fuel both give up, and that is not the limit. -/
theorem exhausted : Follows tokens s k (Charted.exhausted : Charted α) Parse.exhausted := by
  rintro u rfl hu
  exact .stop (hu.move (hu _ List.mem_cons_self)) fun ⟨_, _, _, he⟩ => by contradiction

/-- Faults other than that of the limit. -/
theorem fail {expected : Expected} (hexpected : ∀ what, expected ≠ .shallower what) :
    Follows tokens s k (Charted.fail expected : Charted α) (Parse.fail expected) := by
  rintro u rfl hu
  refine .stop (hu.move (hu _ List.mem_cons_self)) fun ⟨what, _, _, he⟩ => ?_
  simp only [ParseStop.fault.injEq, GrammarError.atToken, GrammarError.mk.injEq] at he
  exact absurd he.1 (hexpected what)

/-! ## Nesting -/

/- Where the limit may be met.  `charged` spends one level of the credit on a construct, and
this is the only place where the parse may stop because too much is nested; `refunding` gives
levels back that were charged. -/

/-- Levels that are charged can be given back. -/
theorem refunding (h : Follows tokens s 0 x p) {n : Nat} (hn : n ≤ s.opened.length) :
    Follows tokens s n (do let a ← x; refund n; return a) p := by
  intro u hus hu
  have haccords := h u hus hu
  generalize hx : x u = r, p s.cursor = r' at haccords
  cases haccords with
  | @ok a v hrest hopened hsound =>
      have hv : v.here.opened = s.opened := hopened
      have hlies : v.here.Lies tokens := hsound _ List.mem_cons_self
      have hget : (get : Charted Course) v = .ok v v := rfl
      have hrefund : refund n v = .ok () ⟨⟨v.here.rest, v.here.opened.drop n⟩, v.waypoints⟩ := by
        rw [refund, bind_of_ok _ hget, if_pos (hv ▸ hn)]
        rfl
      rw [bind_of_ok _ hx, bind_of_ok _ hrefund]
      refine .ok hrest (congrArg (List.drop n) hv) (hsound.move ?_)
      exact hlies.after List.suffix_rfl (by simp)
  | stop hsound hlimit =>
      rw [bind_of_error _ hx]
      exact .stop hsound hlimit

/-- A construct is opened at a level that is paid for, or the limit is met.  The charted
parser gives the level back together with those of the constructs before it. -/
theorem charged {what : Construct} (hs : s.Pays tokens (credit + 1))
    (h : Follows tokens (s.enter what) (k + 1) x p) :
    Follows tokens s k (Charted.enter what >>= fun _ => x) (Parse.nested what p) := by
  rintro u rfl hu
  have hget : (get : Charted Course) u = .ok u u := rfl
  have hlies : u.here.Lies tokens := hu _ List.mem_cons_self
  by_cases hlimit : u.here.opened.length < nestingLimit
  · have henter : Charted.enter what u = .ok () ⟨u.here.enter what, u.waypoints⟩ := by
      rw [Charted.enter, bind_of_ok _ hget, if_pos hlimit]
      rfl
    have hentered : (u.here.enter what).Lies tokens :=
      ⟨hlimit, (hs.enter what).mono (Nat.zero_le _)⟩
    have haccords := h ⟨u.here.enter what, u.waypoints⟩ rfl (hu.move hentered)
    rw [bind_of_ok _ henter]
    generalize x _ = r, hp : p (u.here.enter what).cursor = r' at haccords ⊢
    cases haccords with
    | @ok a v hrest hopened hsound =>
        rw [Parse.nested_of_ok what hlimit hp]
        exact .ok hrest hopened hsound
    | stop hsound hlimit' =>
        rw [Parse.nested_of_error what hlimit hp]
        exact .stop hsound hlimit'
  · have henter : Charted.enter what u =
        .error (.stop (.fault (.atToken (.shallower what) u.here.cursor.current)))
          ⟨u.here, u.waypoints⟩ := by
      rw [Charted.enter, bind_of_ok _ hget, if_neg hlimit]
      rfl
    rw [bind_of_error _ henter, Parse.nested_of_le what (Nat.not_lt.mp hlimit)]
    exact .stop (hu.move hlies) fun _ => Nat.le_antisymm hlies.le (Nat.not_lt.mp hlimit)

/-- Inside one more level of nesting, which is paid for, the charted parser goes the way
that it goes there. -/
theorem nested {what : Construct} (hs : s.Pays tokens (credit + 1))
    (h : Follows tokens (s.enter what) 0 x p) :
    Follows tokens s 0 (Charted.nested what x) (Parse.nested what p) :=
  charged hs (refunding h (Nat.succ_le_succ (Nat.zero_le _)))

end Follows

/-! ## Repetition -/

namespace Tracks

variable {x : Charted α} {p : Parser α}

/-- A token that must be there, from any waypoint. -/
theorem expect {kind : Kind} {expected : Expected}
    (hexpected : ∀ what, expected ≠ .shallower what) :
    Tracks tokens credit (Charted.expect kind expected) (Parse.expect kind expected) := by
  intro s _
  rw [← bind_pure (Charted.expect kind expected), ← bind_pure (Parse.expect kind expected)]
  exact Follows.expect_bind hexpected fun _ => .pure _

/-- Semicolons, each of which adds to the credit. -/
theorem skipSeparators (n : Nat) :
    Tracks tokens credit (Charted.skipSeparators n) (Parse.skipSeparators n) := by
  induction n with
  | zero => exact fun _ _ => .exhausted
  | succ n ih =>
      intro s hs
      refine Follows.accept_bind (fun hend => ?_) (.pure _)
      exact ih s.forward ((hs.forward hend).mono (Nat.le_succ _))

/-- A list of items: every comma adds to the credit, so each item starts with as much as
the first. -/
theorem separated {item : Charted α} {item' : Parser α} {tooMany : Expected}
    (htooMany : ∀ what, tooMany ≠ .shallower what) (h : Tracks tokens credit item item') (n : Nat) :
    Tracks tokens credit (Charted.separated tooMany item n) (Parse.separated tooMany item' n) := by
  induction n with
  | zero => exact fun _ _ => .fail htooMany
  | succ n ih =>
      refine fun s hs => .andThen h hs fun a s hs => Follows.accept_bind (fun hend => ?_) (.pure _)
      exact .andThen ih ((hs.forward hend).mono (Nat.le_succ _)) fun _ _ _ => .pure _

/-- Statements up to a stop, each of which starts with the credit of the first. -/
theorem statementsUntil {stop : Cursor → Bool} {fuel : Nat} {statement : Charted Stmt}
    {statement' : Parser Stmt} (h : Tracks tokens credit statement statement') (n : Nat) :
    Tracks tokens credit (Charted.statementsUntil stop fuel statement n)
      (Parse.statementsUntil stop fuel statement' n) := by
  induction n with
  | zero => exact fun _ _ => .exhausted
  | succ n ih =>
      refine fun s hs => .andThen (skipSeparators fuel) hs fun _ s hs => ?_
      rintro u rfl hu
      refine Follows.ite (fun _ => .pure _) (fun _ => ?_) u rfl hu
      exact .andThen h hs fun _ _ hs => .andThen ih hs fun _ _ _ => .pure _

end Tracks

/-! ## Expressions -/

/- The rules in the order of the grammar.  A lemma's credit is what its rule spends before it
takes a token: 0 for an operand, 1 for an expression.  In each, the hypothesis on the credit
is carried along the tokens that the rule takes (`Pays.forward`, `Pays.after`) to the
constructs inside of it. -/

/-- The operators of a level after an operand, with the levels of the operators before them
still charged. -/
theorem follows_operators {level : Level} {operand : Charted Expr} {operand' : Parser Expr}
    (hoperand : Tracks tokens 0 operand operand') (n : Nat) {folds : Nat} (left : Expr)
    (hs : s.Pays tokens 0) (hfolds : folds ≤ s.opened.length) :
    Follows tokens s folds (operators level operand n folds left)
      (Parse.operators level operand' n left) := by
  induction n generalizing folds left s with
  | zero => exact .exhausted
  | succ n ih =>
      refine Follows.peek_bind ?_
      cases hop : level.operator? s.cursor.current.kind with
      | none => exact (Follows.pure left).refunding hfolds
      | some op =>
          have hconnects := Grammar.operator?_eq_some_iff.mp hop
          have hend := Cursor.atEnd_of_current_kind rfl hconnects.ne_endOfInput
          have hpaid := hs.forward hend
          refine Follows.discard_bind (Follows.advance_bind (Follows.charged hpaid ?_))
          have hinside := hpaid.enter .operators
          refine Follows.bind (hoperand _ hinside) fun right c _ hrest => ?_
          exact ih _ (hinside.after hrest (Nat.le_refl _)) (Nat.succ_le_succ hfolds)

/-- Expressions of some levels cost nothing themselves, since each operator pays for its
level. -/
theorem tracks_climb {fuel : Nat} {operand : Charted Expr} {operand' : Parser Expr}
    (hoperand : Tracks tokens 0 operand operand') (levels : List Level) :
    Tracks tokens 0 (climb fuel operand levels) (Parse.climb fuel operand' levels) := by
  induction levels with
  | nil => exact hoperand
  | cons level tighter ih =>
      exact fun s hs => .andThen ih hs fun left _ hs =>
        follows_operators ih fuel left hs (Nat.zero_le _)

/-- A whole expression costs one level. -/
theorem tracks_expression {fuel : Nat} {unary : Charted Expr} {unary' : Parser Expr}
    (hunary : Tracks tokens 0 unary unary') :
    Tracks tokens 1 (expression fuel unary) (Parse.expression fuel unary') :=
  fun _ hs => .nested hs (tracks_climb hunary Level.all _ (hs.enter _))

section

variable {expr unary : Charted Expr} {expr' unary' : Parser Expr}
variable (hexpr : Tracks tokens 1 expr expr') (hunary : Tracks tokens 0 unary unary')

include hexpr in
/-- Arguments stand behind the parenthesis of the call, which pays for the first; commas
pay for the others. -/
theorem tracks_arguments : Tracks tokens 1 (arguments expr) (Parse.arguments expr') := by
  have hclose : ∀ args : List Expr, Tracks tokens 1
      (do discard (expect .rightParen .closeArguments); return args)
      (do discard (Parse.expect .rightParen .closeArguments); return args) :=
    fun args _ _ => Follows.discard_bind (Follows.expect_bind (by simp) fun _ => .pure args)
  intro s hs
  refine Follows.sees_bind (Follows.ite (fun _ => ?_) fun _ => ?_)
  · exact Follows.bind (.pure []) fun _ _ _ hrest => hclose _ _ (hs.after hrest (Nat.le_refl _))
  · exact .andThen (Tracks.separated (by simp) hexpr listLimit) hs hclose

/-- A differential opens nothing. -/
theorem tracks_differential (var : String) :
    Tracks tokens 0 (differential var) (Parse.differential var) := by
  intro s _
  refine Follows.sees_bind (Follows.ite (fun _ => ?_) fun _ => .pure _)
  refine Follows.peek_bind (Follows.ite (fun _ => ?_) fun _ => .pure _)
  rw [Stateful.discard_eq, Stateful.discard_eq]
  exact Follows.advance_bind (.pure _)

include hexpr hunary in
/-- An aggregate from its symbol on. -/
theorem tracks_aggregate {kind : Aggregate} (hs : s.Pays tokens 0) (hend : s.cursor.atEnd = false) :
    Follows tokens s 0 (aggregate expr unary kind) (Parse.aggregate expr' unary' kind) := by
  refine Follows.advance_bind (Follows.discard_bind (Follows.expect_bind (by simp) fun hl => ?_))
  refine Follows.expect_bind (by simp) fun hvar => ?_
  refine Follows.discard_bind (Follows.expect_bind (by simp) fun heq => ?_)
  have hbounds := ((hs.forward hend).forward hl).forward hvar |>.forward heq
  refine Follows.bind (hexpr _ (hbounds.mono (by omega))) fun start c _ hrest => ?_
  refine Follows.discard_bind (Follows.expect_bind (by simp) fun hto => ?_)
  have hstop := (hbounds.after hrest (Nat.le_refl _)).forward hto
  refine Follows.bind (hexpr _ (hstop.mono (by omega))) fun stop c' _ hrest' => ?_
  refine Follows.discard_bind (Follows.expect_bind (by simp) fun hr => ?_)
  have hbody := (hstop.after hrest' (Nat.le_refl _)).forward hr
  refine Follows.bind (hunary _ (hbody.mono (by omega))) fun body c'' _ hrest'' => ?_
  refine Follows.ite (fun _ => ?_) fun _ => .pure _
  have hlast := (hbody.after hrest'' (Nat.le_refl _)).mono (Nat.zero_le _)
  exact Follows.bind (tracks_differential _ _ hlast) fun _ _ _ _ => .pure _

include hexpr hunary in
/-- A primary expression costs nothing: what is nested in it stands behind a token that
was taken. -/
theorem tracks_primary : Tracks tokens 0 (primary expr unary) (Parse.primary expr' unary') := by
  intro s hs
  refine Follows.peek_bind ?_
  have hend : s.cursor.current.kind ≠ .endOfInput → s.cursor.atEnd = false :=
    Cursor.atEnd_of_current_kind rfl
  generalize s.cursor.current = t at hend ⊢
  obtain ⟨kind, lexeme, pos⟩ := t
  cases kind with
  | number =>
      refine Follows.discard_bind (Follows.advance_bind ?_)
      cases Number.read? lexeme with
      | some n => exact .pure _
      | none => exact .stop fun ⟨_, _, _, he⟩ => by simp [GrammarError.atToken] at he
  | string text => exact Follows.discard_bind (Follows.advance_bind (.pure _))
  | identifier =>
      have hname := hs.forward (hend (by simp))
      refine Follows.discard_bind (Follows.advance_bind ?_)
      refine Follows.accept_bind (fun hl => ?_) (.pure _)
      have hargs := (hname.forward hl).mono (show 1 ≤ _ by omega)
      exact .andThen (tracks_arguments hexpr) hargs fun _ _ _ => .pure _
  | keyword k =>
      cases k with
      | trueKw => exact Follows.discard_bind (Follows.advance_bind (.pure _))
      | falseKw => exact Follows.discard_bind (Follows.advance_bind (.pure _))
      | _ => exact Follows.fail nofun
  | leftParen =>
      have hinner := hs.forward (hend (by simp))
      refine Follows.discard_bind (Follows.advance_bind ?_)
      refine .andThen hexpr hinner fun e s _ => ?_
      exact Follows.discard_bind (Follows.expect_bind (by simp) fun _ => .pure e)
  | operator o =>
      dsimp only
      cases Aggregate.ofOperator? o with
      | some kind => exact tracks_aggregate hexpr hunary hs (hend (by simp))
      | none => exact Follows.fail nofun
  | _ => exact Follows.fail nofun

end

/-- Unary expressions cost nothing: the operator pays for the level of its operand. By
induction on the fuel. -/
theorem tracks_unary (n : Nat) : Tracks tokens 0 (unary n) (Parse.unary n) := by
  induction n with
  | zero => exact fun _ _ => .exhausted
  | succ n ih =>
      intro s hs
      refine Follows.peek_bind ?_
      cases hop : s.cursor.current.kind.unaryOp? with
      | some op =>
          have hprecedes := Grammar.unaryOp?_eq_some_iff.mp hop
          have hend := Cursor.atEnd_of_current_kind rfl hprecedes.ne_endOfInput
          have hpaid := hs.forward hend
          refine Follows.discard_bind (Follows.advance_bind ?_)
          exact Follows.bind (.nested hpaid (ih _ (hpaid.enter _))) fun _ _ _ _ => .pure _
      | none => exact tracks_primary (tracks_expression ih) ih s hs

/-! ## Statements -/

/- Every statement starts with one level free, that of its expression or, behind the brace, of
its block.  The keyword of a statement is a token more than it needs, so nothing is owed
after it. -/

section

variable {expr : Charted Expr} {expr' : Parser Expr}
variable {blocks : Charted (List Stmt)} {blocks' : Parser (List Stmt)}
variable (hexpr : Tracks tokens 1 expr expr') (hblock : Tracks tokens 1 blocks blocks')

/-- A block costs one level, for which its brace pays; its first statement starts with
the level that is free. -/
theorem tracks_block {fuel : Nat} {statement : Charted Stmt} {statement' : Parser Stmt}
    (hstatement : Tracks tokens 1 statement statement') :
    Tracks tokens 1 (block fuel statement) (Parse.block fuel statement') := by
  intro s hs
  refine Follows.discard_bind (Follows.expect_bind (by simp) fun hl => ?_)
  have hinner := hs.forward hl
  refine Follows.nested hinner ?_
  rw [Parse.statements_eq]
  refine .andThen (Tracks.statementsUntil hstatement fuel) (hinner.enter _) fun body s _ => ?_
  exact Follows.discard_bind (Follows.expect_bind (by simp) fun _ => .pure body)

include hblock in
/-- A function's block stands behind its parentheses. -/
theorem tracks_definition (pos : Position) :
    Tracks tokens 1 (definition blocks pos) (Parse.definition blocks' pos) := by
  intro s hs
  refine Follows.expect_bind (by simp) fun hname => ?_
  refine Follows.discard_bind (Follows.expect_bind (by simp) fun hl => ?_)
  have hparams := ((hs.forward hname).forward hl).mono (show 1 ≤ _ by omega)
  have hclose : ∀ params : List Token, Tracks tokens 1
      (do
        discard (expect .rightParen .closeParameters)
        let body ← blocks
        return Stmt.function s.cursor.current.lexeme (params.map Token.lexeme) body pos)
      (do
        discard (Parse.expect .rightParen .closeParameters)
        let body ← blocks'
        return Stmt.function s.cursor.current.lexeme (params.map Token.lexeme) body pos) := by
    intro params s hs
    refine Follows.discard_bind (Follows.expect_bind (by simp) fun hr => ?_)
    have hbody := (hs.forward hr).mono (show 1 ≤ _ by omega)
    exact .andThen hblock hbody fun _ _ _ => .pure _
  refine Follows.sees_bind (Follows.ite (fun _ => ?_) fun _ => ?_)
  · refine Follows.bind (.pure []) fun _ _ _ hrest => ?_
    exact hclose _ _ (hparams.after hrest (Nat.le_refl _))
  · exact .andThen (Tracks.separated (by simp) (Tracks.expect (by simp)) listLimit) hparams hclose

include hexpr hblock in
/-- A conditional starts with one level free; `else` and `if` pay for the level of the
conditional after them. -/
theorem tracks_conditional (n : Nat) (pos : Position) :
    Tracks tokens 1 (conditional expr blocks n pos) (Parse.conditional expr' blocks' n pos) := by
  induction n generalizing pos with
  | zero => exact fun _ _ => .exhausted
  | succ n ih =>
      refine fun s hs => .andThen hexpr hs fun condition s hs => ?_
      refine .andThen hblock hs fun body s hs => Follows.accept_bind (fun helse => ?_) (.pure _)
      have hother := hs.forward helse
      refine Follows.peek_bind (Follows.accept_bind (fun hif => ?_) ?_)
      · have hpaid := hother.forward hif
        exact Follows.bind (.nested hpaid (ih _ _ ((hpaid.enter _).mono (by omega))))
          fun _ _ _ _ => .pure _
      · exact .andThen hblock (hother.mono (by omega)) fun _ _ _ => .pure _

include hexpr hblock in
/-- A for loop: its variable and its word pay for the items, and the block follows. -/
theorem tracks_iteration (pos : Position) :
    Tracks tokens 1 (iteration expr blocks pos) (Parse.iteration expr' blocks' pos) := by
  intro s hs
  refine Follows.expect_bind (by simp) fun hvar => ?_
  refine Follows.discard_bind (Follows.expect_bind (by simp) fun hin => ?_)
  have hitems := ((hs.forward hvar).forward hin).mono (show 1 ≤ _ by omega)
  exact .andThen hexpr hitems fun _ _ hs => .andThen hblock hs fun _ _ _ => .pure _

include hexpr in
/-- A return, whose value is an expression. -/
theorem tracks_giveBack (pos : Position) :
    Tracks tokens 1 (giveBack expr pos) (Parse.giveBack expr' pos) := by
  intro s hs
  refine Follows.sees_bind (Follows.sees_bind (Follows.atEnd_bind ?_))
  refine Follows.ite (fun _ => .pure _) fun _ => ?_
  exact .andThen hexpr hs fun _ _ _ => .pure _

include hexpr in
/-- An assignment: its name and its equals sign pay for the value. -/
theorem tracks_assignment (hs : s.Pays tokens 1) (hend : s.cursor.atEnd = false) :
    Follows tokens s 0 (assignment expr) (Parse.assignment expr') := by
  refine Follows.advance_bind (Follows.discard_bind (Follows.expect_bind (by simp) fun heq => ?_))
  have hvalue := ((hs.forward hend).forward heq).mono (show 1 ≤ _ by omega)
  exact .andThen hexpr hvalue fun _ _ _ => .pure _

include hexpr in
/-- A statement that is an expression. -/
theorem tracks_bare : Tracks tokens 1 (bare expr) (Parse.bare expr') :=
  fun _ hs => .andThen hexpr hs fun _ _ _ => .pure _

include hexpr hblock in
/-- A statement starts with one level free, whichever rule reads it. -/
theorem tracks_statementBody (fuel : Nat) :
    Tracks tokens 1 (statementBody fuel expr blocks) (Parse.statementBody fuel expr' blocks') := by
  intro s hs
  refine Follows.peek_bind ?_
  have hend : s.cursor.current.kind ≠ .endOfInput → s.cursor.atEnd = false :=
    Cursor.atEnd_of_current_kind rfl
  have hnext : s.cursor.current.kind ≠ .endOfInput → s.forward.Pays tokens 1 := fun h =>
    (hs.forward (hend h)).mono (by omega)
  generalize s.cursor.current = t at hend hnext ⊢
  obtain ⟨kind, lexeme, pos⟩ := t
  cases kind with
  | keyword k =>
      cases k with
      | functionKw =>
          refine Follows.discard_bind (Follows.advance_bind ?_)
          exact tracks_definition hblock _ _ (hnext (by simp))
      | ifKw =>
          refine Follows.discard_bind (Follows.advance_bind ?_)
          exact tracks_conditional hexpr hblock _ _ _ (hnext (by simp))
      | whileKw =>
          refine Follows.discard_bind (Follows.advance_bind ?_)
          exact .andThen hexpr (hnext (by simp)) fun _ _ hs =>
            .andThen hblock hs fun _ _ _ => .pure _
      | forKw =>
          refine Follows.discard_bind (Follows.advance_bind ?_)
          exact tracks_iteration hexpr hblock _ _ (hnext (by simp))
      | returnKw =>
          refine Follows.discard_bind (Follows.advance_bind ?_)
          exact tracks_giveBack hexpr _ _ (hnext (by simp))
      | _ => exact tracks_bare hexpr s hs
  | identifier =>
      refine Follows.assignFollows_bind fun b => Follows.ite (fun _ => ?_) fun _ => ?_
      · exact tracks_assignment hexpr hs (hend (by simp))
      · exact tracks_bare hexpr s hs
  | _ => exact tracks_bare hexpr s hs

include hexpr in
/-- A statement and the semicolon after it, by induction on the fuel. -/
theorem tracks_statement (fuel n : Nat) :
    Tracks tokens 1 (statement fuel expr n) (Parse.statement fuel expr' n) := by
  induction n with
  | zero => exact fun _ _ => .exhausted
  | succ n ih =>
      intro s hs
      refine .andThen (tracks_statementBody hexpr (tracks_block ih) fuel) hs fun s _ _ => ?_
      exact Follows.discard_bind (Follows.accept_bind (fun _ => .pure s) (.pure s))

end

/-! ## Programs -/

/-- The statements of a whole slice. -/
theorem tracks_wholeProgram (fuel : Nat) :
    Tracks tokens 1 (wholeProgram fuel) (Parse.wholeProgram fuel) := by
  rw [Parse.wholeProgram, Parse.program_eq]
  exact Tracks.statementsUntil (tracks_statement (tracks_expression (tracks_unary fuel)) fuel fuel)
    fuel

/-- A whole parse goes the way of the parser. -/
theorem accords_run (tokens : List Token) :
    Accords tokens ⟨tokens, []⟩ 0 (run tokens) (Parse.run tokens) := by
  have hstart : Waypoint.Lies tokens ⟨tokens, []⟩ := ⟨Nat.zero_le _, [], rfl, Nat.zero_le _⟩
  have hpays : Waypoint.Pays tokens 1 ⟨tokens, []⟩ := ⟨[], rfl, Nat.le_refl _⟩
  refine tracks_wholeProgram _ _ hpays ⟨⟨tokens, []⟩, []⟩ rfl fun s hs => ?_
  obtain rfl := List.mem_singleton.mp hs
  exact hstart

end Charted

end Abacus
