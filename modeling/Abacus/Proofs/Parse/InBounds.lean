import Abacus.Proofs.Parse.Abreast
import Abacus.Proofs.Parse.Indexed

/-!
# Abacus.Proofs.Parse.InBounds

The parser stays inside its slice.  `Stands` says that a place of the slice and a
cursor are before the same tokens, at or before the first end of input.  From there a
rule that reads by index has the outcome of the parser's rule, at places that stand
again (`Same`): it never reads outside the slice, since a token is taken only where
there is one that is not the end of input, and looked back at only after one was taken.

So the parser is total: every rule ends in a value or a fault if its fuel exceeds the
number of tokens, and where it gives a value it has moved forward.
-/

namespace Abacus

/-- The place after the next token. -/
def Place.next (s : Place) : Place := { s with current := s.current + 1 }

/-- The place with another nesting. -/
def Place.renest (s : Place) (f : Nat → Nat) : Place := { s with nesting := f s.nesting }

namespace Indexed

open Stateful

/-- The index of the first end of input, if there is one. -/
def firstEnd (tokens : List Token) : Nat := tokens.findIdx fun t => t.kind = .endOfInput

/-- The place and the cursor are before the same tokens, and not beyond the first end
of input. -/
structure Stands (tokens : List Token) (s : Place) (c : Cursor) : Prop where
  rest : c.rest = tokens.drop s.current
  nesting : c.nesting = s.nesting
  le : s.current ≤ firstEnd tokens

/-- The same outcome, at a place and a cursor before the same tokens. -/
inductive Same (tokens : List Token) {α : Type} :
    EStateM.Result Halt Place α → EStateM.Result ParseStop Cursor α → Prop
  | ok {a : α} {s : Place} {c : Cursor} (h : Stands tokens s c) : Same tokens (.ok a s) (.ok a c)
  | stop {e : ParseStop} {s : Place} {c : Cursor} (h : Stands tokens s c) :
      Same tokens (.error (.stop e) s) (.error e c)

/-- From all places the reader has the outcomes of the parser. -/
def Tracks (tokens : List Token) {α : Type} (x : Indexed α) (p : Parser α) : Prop :=
  ∀ s c, Stands tokens s c → Same tokens (x s) (p c)

/-- The token before a place. -/
def Behind (tokens : List Token) (s : Place) (t : Token) : Prop :=
  ∃ i, s.current = i + 1 ∧ tokens[i]? = some t

variable {tokens : List Token} {α β : Type} {s : Place} {c : Cursor}

/-- A token that is in the slice is read at its index. -/
theorem tokenAt_eq {i : Nat} {t : Token} (h : tokens[i]? = some t) :
    tokenAt tokens i = pure t := by
  rw [tokenAt, h]

/-- Where a token was taken, looking back gives that token. -/
theorem Behind.previous_eq {t : Token} (h : Behind tokens s t) :
    previous tokens s = .ok t s := by
  obtain ⟨i, hi, ht⟩ := h
  have hget : (get : Indexed Place) s = .ok s s := rfl
  rw [previous, bind_of_ok _ hget, hi]
  show tokenAt tokens i s = .ok t s
  rw [tokenAt_eq ht]
  rfl

theorem sees_apply (kind : Kind) (c : Cursor) : Parse.sees kind c = .ok (c.sees kind) c := rfl

theorem peek_apply (c : Cursor) : Parse.peek c = .ok c.current c := rfl

/-! ## One reader after another -/

/- `Same` is about one place and `Tracks` about all of them.  A rule that looks back has
the outcome of the parser's rule only behind the token that it looks back at, so there are
lemmas of both forms; `Same.bind` goes from one to the other. -/

namespace Same

variable {x : Indexed α} {p : Parser α} {f : α → Indexed β} {g : α → Parser β}

/-- Readers one after the other have the outcome of the parsers, if the second do at the
places that the first leave. -/
theorem bind (h : Same tokens (x s) (p c))
    (hf : ∀ a s' c', x s = .ok a s' → p c = .ok a c' → Stands tokens s' c' →
      Same tokens (f a s') (g a c')) :
    Same tokens ((x >>= f) s) ((p >>= g) c) := by
  generalize hx : x s = r, hp : p c = r' at h
  cases h with
  | ok h =>
      rw [bind_of_ok f hx, bind_of_ok g hp]
      exact hf _ _ _ hx hp h
  | stop h =>
      rw [bind_of_error f hx, bind_of_error g hp]
      exact .stop h

end Same

namespace Tracks

variable {x : Indexed α} {p : Parser α} {f : α → Indexed β} {g : α → Parser β}

theorem pure (a : α) : Tracks tokens (Pure.pure a) (Pure.pure a) := fun _ _ h => .ok h

/-- What follows a reader may depend on the value it gave. -/
theorem bind (h : Tracks tokens x p) (hf : ∀ a, Tracks tokens (f a) (g a)) :
    Tracks tokens (x >>= f) (p >>= g) :=
  fun s c hs => (h s c hs).bind fun a s' c' _ _ hs' => hf a s' c' hs'

/-- A reader whose value is not used. -/
theorem discard (h : Tracks tokens x p) :
    Tracks tokens (Functor.discard x) (Functor.discard p) := by
  rw [discard_eq, discard_eq]
  exact h.bind fun _ => pure _

/-- Both sides decide by the same condition. -/
theorem ite {b : Prop} [Decidable b] {y : Indexed α} {q : Parser α} (h : Tracks tokens x p)
    (h' : Tracks tokens y q) : Tracks tokens (if b then x else y) (if b then p else q) := by
  split
  · exact h
  · exact h'

/-- Without fuel both give up, whatever the place. -/
theorem exhausted : Tracks tokens (Indexed.exhausted : Indexed α) Parse.exhausted :=
  fun _ _ h => .stop h

end Tracks

/-! ## Steps -/

/- The slice has an end of input, `hends`; without one, nothing would stop a reader at the
end of the slice.  The section is layered:

* **places** (`Stands`) -- what reading at a place that stands gives, and that the place
  after a token which is not the end of input stands again;
* **steps** (`Tracks`) -- the single steps of the parser: asking, taking, failing;
* **repetition** -- nesting, separators and lists, by induction on the fuel.

Only the first layer looks into the slice.  The rules below are put together from the
others, each in the order of its own steps. -/

section steps

variable (hends : firstEnd tokens < tokens.length)

include hends

/-- The first end of input is one. -/
theorem kind_firstEnd : tokens[firstEnd tokens].kind = .endOfInput := by
  have h := List.findIdx_getElem (p := fun t : Token => t.kind = .endOfInput) (w := hends)
  exact of_decide_eq_true h

namespace Stands

variable (h : Stands tokens s c)

include h

/-- A place that stands is inside the slice, at the cursor's next token. -/
theorem getElem?_current : tokens[s.current]? = some c.current := by
  have hlt : s.current < tokens.length := Nat.lt_of_le_of_lt h.le hends
  rw [Cursor.current, h.rest, List.drop_eq_getElem_cons hlt, List.getElem?_eq_getElem hlt]
  rfl

/-- The token at the place is the cursor's next one. -/
theorem peek_eq : peek tokens s = .ok c.current s := by
  have hget : (get : Indexed Place) s = .ok s s := rfl
  rw [peek, bind_of_ok _ hget, tokenAt_eq (h.getElem?_current hends)]
  rfl

/-- The end of input is met at the same place. -/
theorem atEnd_eq : atEnd tokens s = .ok c.atEnd s := by
  rw [atEnd, bind_of_ok _ (h.peek_eq hends)]
  rfl

/-- A kind is seen at the place if the cursor sees it. -/
theorem check_eq (kind : Kind) : check tokens kind s = .ok (c.sees kind) s := by
  rw [check, bind_of_ok _ (h.atEnd_eq hends), Cursor.sees]
  cases c.atEnd with
  | true => rfl
  | false =>
      rw [if_neg Bool.false_ne_true, bind_of_ok _ (h.peek_eq hends)]
      simp
      rfl

/-- After a token that is not the end of input, the place and the cursor stand again:
the first end of input is not passed. -/
theorem next (hc : c.atEnd = false) : Stands tokens s.next c.forward where
  rest := by
    have hrest := Cursor.rest_eq_cons hc
    rw [h.rest, List.drop_eq_getElem_cons (Nat.lt_of_le_of_lt h.le hends)] at hrest
    exact (List.cons.inj hrest).2.symm
  nesting := (Cursor.nesting_forward c).trans h.nesting
  le := by
    refine Nat.lt_of_le_of_ne h.le fun heq => ?_
    have hcurrent := h.getElem?_current hends
    rw [heq, List.getElem?_eq_getElem hends, Option.some_inj] at hcurrent
    rw [Cursor.atEnd, ← hcurrent, kind_firstEnd hends] at hc
    contradiction

/-- The token that was taken is behind the next place. -/
theorem behind_next : Behind tokens s.next c.current := ⟨_, rfl, h.getElem?_current hends⟩

/-- Taking a token moves one place on and gives it. -/
theorem advance_eq (hc : c.atEnd = false) : advance tokens s = .ok c.current s.next := by
  rw [advance, bind_of_ok _ (h.atEnd_eq hends), hc]
  exact (h.behind_next hends).previous_eq

/-- A token of the kind that is seen is taken. -/
theorem accept_of_sees {kind : Kind} (hc : c.sees kind = true) :
    accept tokens kind s = .ok true s.next := by
  rw [accept, bind_of_ok _ (h.check_eq hends kind), hc, if_pos rfl, discard_bind,
    bind_of_ok _ (h.advance_eq hends (Cursor.atEnd_of_sees hc))]
  rfl

/-- A token of another kind is left. -/
theorem accept_of_not_sees {kind : Kind} (hc : c.sees kind = false) :
    accept tokens kind s = .ok false s := by
  rw [accept, bind_of_ok _ (h.check_eq hends kind), hc]
  rfl

end Stands

namespace Tracks

/-- Both fail at the token that is next. -/
theorem fail (expected : Expected) :
    Tracks tokens (Indexed.fail tokens expected : Indexed α) (Parse.fail expected) := by
  intro s c h
  rw [Indexed.fail, bind_of_ok _ (h.peek_eq hends)]
  exact .stop h

/-- Asking for the end of input has the same answer, and takes nothing. -/
theorem atEnd : Tracks tokens (Indexed.atEnd tokens) Parse.atEnd := by
  intro s c h
  rw [h.atEnd_eq hends]
  exact .ok h

/-- Asking for a kind has the same answer, and takes nothing. -/
theorem check (kind : Kind) : Tracks tokens (Indexed.check tokens kind) (Parse.sees kind) := by
  intro s c h
  rw [h.check_eq hends]
  exact .ok h

/-- An optional token is taken by both or by neither. -/
theorem accept (kind : Kind) : Tracks tokens (Indexed.accept tokens kind) (Parse.accept kind) := by
  intro s c h
  cases hsees : c.sees kind with
  | true =>
      rw [h.accept_of_sees hends hsees, Parse.accept_of_sees hsees]
      exact .ok (h.next hends (Cursor.atEnd_of_sees hsees))
  | false =>
      rw [h.accept_of_not_sees hends hsees, Parse.accept_of_not_sees hsees]
      exact .ok h

/-- A token that must be there is taken by both, or both fail at the one that is there
instead. -/
theorem consume (kind : Kind) (expected : Expected) :
    Tracks tokens (Indexed.consume tokens kind expected) (Parse.expect kind expected) := by
  intro s c h
  rw [Indexed.consume, bind_of_ok _ (h.check_eq hends kind)]
  cases hsees : c.sees kind with
  | true =>
      have hatEnd := Cursor.atEnd_of_sees hsees
      rw [if_pos rfl, h.advance_eq hends hatEnd, Parse.expect_of_sees expected hsees]
      exact .ok (h.next hends hatEnd)
  | false =>
      rw [if_neg Bool.false_ne_true, Parse.expect_of_not_sees expected hsees]
      exact fail hends expected s c h

end Tracks

/-- Inside one more level of nesting the reader has the outcome it has there. -/
theorem Same.nested {x : Indexed α} {p : Parser α} (h : Stands tokens s c) (what : Construct)
    (hx : Stands tokens (s.renest (· + 1)) { c with nesting := c.nesting + 1 } →
      Same tokens (x (s.renest (· + 1))) (p { c with nesting := c.nesting + 1 })) :
    Same tokens (Indexed.nested tokens what x s) (Parse.nested what p c) := by
  have hget : (get : Indexed Place) s = .ok s s := rfl
  rw [Indexed.nested]
  by_cases hlimit : c.nesting < nestingLimit
  · have henter : enter tokens what s = .ok () (s.renest (· + 1)) := by
      rw [enter, bind_of_ok _ hget, if_pos (h.nesting ▸ hlimit)]
      rfl
    have hdeeper : Stands tokens (s.renest (· + 1)) { c with nesting := c.nesting + 1 } :=
      ⟨h.rest, congrArg (· + 1) h.nesting, h.le⟩
    have hsame := hx hdeeper
    rw [bind_of_ok _ henter]
    generalize hr : x (s.renest (· + 1)) = r,
      hr' : p { c with nesting := c.nesting + 1 } = r' at hsame
    cases hsame with
    | ok h' =>
        rw [bind_of_ok _ hr, Parse.nested_of_ok what hlimit hr']
        exact .ok ⟨h'.rest, congrArg (· - 1) h'.nesting, h'.le⟩
    | stop h' =>
        rw [bind_of_error _ hr, Parse.nested_of_error what hlimit hr']
        exact .stop h'
  · have hle := Nat.not_lt.mp hlimit
    have henter : enter tokens what s =
        .error (.stop (.fault (.atToken (.shallower what) c.current))) s := by
      rw [enter, bind_of_ok _ hget, if_neg (h.nesting ▸ hlimit), Indexed.fail,
        bind_of_ok _ (h.peek_eq hends)]
      rfl
    rw [bind_of_error _ henter, Parse.nested_of_le what hle]
    exact .stop h

/-- A construct inside one more level of nesting. -/
theorem Tracks.nested {x : Indexed α} {p : Parser α} (what : Construct) (h : Tracks tokens x p) :
    Tracks tokens (Indexed.nested tokens what x) (Parse.nested what p) :=
  fun _ _ hs => Same.nested hends hs what fun hs' => h _ _ hs'

/-- Semicolons are skipped up to the same place. -/
theorem Tracks.skipSeparators (n : Nat) :
    Tracks tokens (Indexed.skipSeparators tokens n) (Parse.skipSeparators n) := by
  induction n with
  | zero => exact .exhausted
  | succ n ih => exact (accept hends _).bind fun _ => ite ih (pure _)

/-- Lists of items have the same items and end at the same place, or have too many for
both. -/
theorem Tracks.separated {item : Indexed α} {item' : Parser α} (tooMany : Expected)
    (h : Tracks tokens item item') (n : Nat) :
    Tracks tokens (Indexed.separated tokens tooMany item n)
      (Parse.separated tooMany item' n) := by
  induction n with
  | zero => exact .fail hends _
  | succ n ih =>
      refine h.bind fun a => (accept hends _).bind fun _ => ite ?_ (pure _)
      exact ih.bind fun _ => pure _

/-! ## Expressions -/

/- An operator is taken by `matchOperator` and then nested, where the parser looks at the
token first and takes it inside of the rule; `matchOperator_eq` says what the reader does in
the parser's words.  The rules then follow the grammar from operators to unary expressions,
which are the only recursion. -/

/-- A word that is an operator is the only one of its level. -/
theorem acceptWord_eq (h : Stands tokens s c) {level : Level} {k : Keyword} {op : BinaryOp}
    (hop : ∀ kind, level.operator? kind = if kind = .keyword k then some op else none) :
    (do
      if ← accept tokens (.keyword k) then return some (op, (← previous tokens).pos)
      else return none : Indexed (Option (BinaryOp × Position))) s =
      match level.operator? c.current.kind with
      | none => .ok none s
      | some op => .ok (some (op, c.current.pos)) s.next := by
  rw [hop]
  by_cases hkind : c.current.kind = .keyword k
  · have hsees : c.sees (.keyword k) = true := by
      simp [Cursor.sees, Cursor.atEnd, hkind]
    rw [bind_of_ok _ (h.accept_of_sees hends hsees), if_pos hkind, if_pos rfl,
      bind_of_ok _ (h.behind_next hends).previous_eq]
    rfl
  · rw [bind_of_ok _ (h.accept_of_not_sees hends (Cursor.sees_of_ne hkind)), if_neg hkind]
    rfl

/-- An operator that is a symbol is taken with its place if it is there. -/
theorem takeSymbol_eq (h : Stands tokens s c) (level : Level) :
    (do
      match level.operator? (← peek tokens).kind with
      | some op => return some (op, (← advance tokens).pos)
      | none => return none : Indexed (Option (BinaryOp × Position))) s =
      match level.operator? c.current.kind with
      | none => .ok none s
      | some op => .ok (some (op, c.current.pos)) s.next := by
  rw [bind_of_ok _ (h.peek_eq hends)]
  cases hop : level.operator? c.current.kind with
  | none => rfl
  | some op =>
      have hatEnd : c.atEnd = false :=
        Cursor.atEnd_of_current_kind rfl (Grammar.operator?_eq_some_iff.mp hop).ne_endOfInput
      simp only []
      rw [bind_of_ok _ (h.advance_eq hends hatEnd)]
      rfl

/-- An operator of the level is taken if it is there. -/
theorem matchOperator_eq (h : Stands tokens s c) (level : Level) :
    matchOperator tokens level s =
      match level.operator? c.current.kind with
      | none => .ok none s
      | some op => .ok (some (op, c.current.pos)) s.next := by
  have hword : ∀ kind : Kind,
      Level.disjunction.operator? kind = (if kind = .keyword .orKw then some .or else none) ∧
        Level.conjunction.operator? kind =
          if kind = .keyword .andKw then some .and else none := by
    intro kind
    cases kind with
    | keyword k => cases k <;> decide
    | operator o => cases o <;> decide
    | _ => exact ⟨rfl, rfl⟩
  cases level with
  | disjunction => exact acceptWord_eq hends h fun kind => (hword kind).1
  | conjunction => exact acceptWord_eq hends h fun kind => (hword kind).2
  | _ => exact takeSymbol_eq hends h _

/-- The operators of a level and their right operands, one after the other, by induction
on the fuel. -/
theorem tracks_operators {operand : Indexed Expr} {operand' : Parser Expr} (level : Level)
    (h : Tracks tokens operand operand') (n : Nat) (left : Expr) :
    Tracks tokens (operators tokens level operand n left)
      (Parse.operators level operand' n left) := by
  induction n generalizing left with
  | zero => exact .exhausted
  | succ n ih =>
      intro s c hs
      have hpeek : Parse.peek c = .ok c.current c := rfl
      have hmatch := matchOperator_eq hends hs level
      rw [operators, Parse.operators, bind_of_ok _ hpeek]
      cases hop : level.operator? c.current.kind with
      | none =>
          rw [hop] at hmatch
          rw [bind_of_ok _ hmatch]
          exact .ok hs
      | some op =>
          rw [hop] at hmatch
          have hatEnd : c.atEnd = false :=
            Cursor.atEnd_of_current_kind rfl (Grammar.operator?_eq_some_iff.mp hop).ne_endOfInput
          rw [bind_of_ok _ hmatch]
          exact Tracks.nested hends _ (h.bind fun right => ih _) _ _ (hs.next hends hatEnd)

/-- Expressions of some levels, by induction on the levels. -/
theorem tracks_climb {operand : Indexed Expr} {operand' : Parser Expr} (fuel : Nat)
    (h : Tracks tokens operand operand') (levels : List Level) :
    Tracks tokens (climb tokens fuel operand levels) (Parse.climb fuel operand' levels) := by
  induction levels with
  | nil => exact h
  | cons level tighter ih => exact ih.bind fun left => tracks_operators hends level ih fuel left

/-- Whole expressions. -/
theorem tracks_expression {unary : Indexed Expr} {unary' : Parser Expr} (fuel : Nat)
    (h : Tracks tokens unary unary') :
    Tracks tokens (expression tokens fuel unary) (Parse.expression fuel unary') :=
  .nested hends _ (tracks_climb hends fuel h _)

/-- A token that is taken where there is one. -/
theorem Same.take {f : PUnit → Indexed β} {g : PUnit → Parser β} (h : Stands tokens s c)
    (hc : c.atEnd = false) (hf : Tracks tokens (f ()) (g ())) :
    Same tokens ((discard (advance tokens) >>= f) s) ((discard Parse.advance >>= g) c) := by
  rw [discard_bind, discard_bind, bind_of_ok _ (h.advance_eq hends hc),
    bind_of_ok _ (Parse.advance_apply c)]
  exact hf _ _ (h.next hends hc)

/-- A differential is taken by both or left by both. -/
theorem tracks_differential (var : String) :
    Tracks tokens (differential tokens var) (Parse.differential var) := by
  intro s c hs
  rw [differential, Parse.differential, bind_of_ok _ (hs.check_eq hends _),
    bind_of_ok _ (sees_apply _ c)]
  cases hsees : c.sees .identifier with
  | false => exact .ok hs
  | true =>
      have hatEnd := Cursor.atEnd_of_sees hsees
      rw [if_pos rfl, if_pos rfl, bind_of_ok _ (hs.peek_eq hends), bind_of_ok _ (peek_apply c)]
      split
      · rw [← bind_pure (discard (advance tokens)), ← bind_pure (discard Parse.advance)]
        exact Same.take hends hs hatEnd (.pure ())
      · exact .ok hs

/-- An aggregate, from its symbol on; the symbol is looked back at for its place. -/
theorem same_aggregate {expr unary : Indexed Expr} {expr' unary' : Parser Expr}
    (hexpr : Tracks tokens expr expr') (hunary : Tracks tokens unary unary') (kind : Aggregate)
    (h : Stands tokens s c) (hc : c.atEnd = false) :
    Same tokens (aggregate tokens expr unary kind s) (Parse.aggregate expr' unary' kind c) := by
  rw [aggregate, Parse.aggregate, bind_of_ok _ (h.advance_eq hends hc),
    bind_of_ok _ (Parse.advance_apply c)]
  refine Tracks.bind (.discard (.consume hends _ _)) (fun _ => ?_) _ _ (h.next hends hc)
  refine Tracks.bind (.consume hends _ _) fun var => ?_
  refine Tracks.bind (.discard (.consume hends _ _)) fun _ => ?_
  refine hexpr.bind fun start => ?_
  refine Tracks.bind (.discard (.consume hends _ _)) fun _ => ?_
  refine hexpr.bind fun stop => ?_
  refine Tracks.bind (.discard (.consume hends _ _)) fun _ => ?_
  refine hunary.bind fun body => ?_
  exact .ite ((tracks_differential hends _).bind fun _ => .pure _) (.pure _)

/-- The arguments of a call, none or some, and the closing parenthesis. -/
theorem tracks_arguments {expr : Indexed Expr} {expr' : Parser Expr}
    (h : Tracks tokens expr expr') :
    Tracks tokens (arguments tokens expr) (Parse.arguments expr') := by
  have hclose (args : List Expr) :
      Tracks tokens (do discard (consume tokens .rightParen .closeArguments); return args)
        (do discard (Parse.expect .rightParen .closeArguments); return args) :=
    Tracks.bind (.discard (.consume hends _ _)) fun _ => .pure _
  refine Tracks.bind (.check hends _) fun _ => .ite ?_ ?_
  · exact Tracks.bind (.pure _) hclose
  · exact Tracks.bind (.separated hends _ h _) hclose

/-- A primary expression has the same form and the same place: the first token decides
which rule reads it. -/
theorem tracks_primary {expr unary : Indexed Expr} {expr' unary' : Parser Expr}
    (hexpr : Tracks tokens expr expr') (hunary : Tracks tokens unary unary') :
    Tracks tokens (primary tokens expr unary) (Parse.primary expr' unary') := by
  intro s c h
  rw [primary, Parse.primary, bind_of_ok _ (h.peek_eq hends), bind_of_ok _ (peek_apply c)]
  have hatEnd (hkind : c.current.kind ≠ .endOfInput) : c.atEnd = false :=
    Cursor.atEnd_of_current_kind rfl hkind
  generalize c.current = t at hatEnd ⊢
  obtain ⟨kind, lexeme, pos⟩ := t
  cases kind with
  | number =>
      refine Same.take hends h (hatEnd (by simp)) ?_
      cases Number.read? lexeme with
      | some n => exact .pure _
      | none => exact fun _ _ h => .stop h
  | string text => exact Same.take hends h (hatEnd (by simp)) (.pure _)
  | identifier =>
      refine Same.take hends h (hatEnd (by simp)) ?_
      refine Tracks.bind (.accept hends _) fun _ => .ite ?_ (.pure _)
      exact (tracks_arguments hends hexpr).bind fun args => .pure _
  | keyword k =>
      cases k with
      | trueKw => exact Same.take hends h (hatEnd (by simp)) (.pure _)
      | falseKw => exact Same.take hends h (hatEnd (by simp)) (.pure _)
      | _ => exact Tracks.fail hends _ _ _ h
  | leftParen =>
      refine Same.take hends h (hatEnd (by simp)) (hexpr.bind fun e => ?_)
      exact Tracks.bind (.discard (.consume hends _ _)) fun _ => .pure _
  | operator o =>
      cases hkind : Aggregate.ofOperator? o with
      | none =>
          simp only [hkind]
          exact Tracks.fail hends _ _ _ h
      | some kind =>
          simp only [hkind]
          exact same_aggregate hends hexpr hunary kind h (hatEnd (by simp))
  | _ => exact Tracks.fail hends _ _ _ h

/-- Unary expressions, by induction on the fuel, which closes the circle through
parentheses, arguments and aggregates. -/
theorem tracks_unary (n : Nat) : Tracks tokens (unary tokens n) (Parse.unary n) := by
  induction n with
  | zero => exact .exhausted
  | succ n ih =>
      intro s c h
      rw [unary, Parse.unary, bind_of_ok _ (h.peek_eq hends), bind_of_ok _ (peek_apply c)]
      cases hop : c.current.kind.unaryOp? with
      | none =>
          simp only []
          exact tracks_primary hends (tracks_expression hends n ih) ih s c h
      | some op =>
          have hatEnd : c.atEnd = false :=
            Cursor.atEnd_of_current_kind rfl (Grammar.unaryOp?_eq_some_iff.mp hop).ne_endOfInput
          simp only []
          rw [bind_of_ok _ (h.advance_eq hends hatEnd), discard_bind,
            bind_of_ok _ (Parse.advance_apply c)]
          refine Tracks.bind (ih.nested hends _) (fun operand => .pure _) _ _ (h.next hends hatEnd)

/-! ## Statements -/

/- A rule for a statement begins behind its keyword, so it is stated with `Same` and a token
that is `Behind`; the rule that takes the keyword (`Same.keyword`) provides it.  The lemmas
are in the order of the keywords in `tracks_statementBody`, which puts them together. -/

variable {expr : Indexed Expr} {expr' : Parser Expr} {block : Indexed (List Stmt)}
  {block' : Parser (List Stmt)}

/-- Statements up to a closing brace or the end of input. -/
theorem tracks_statements {statement : Indexed Stmt} {statement' : Parser Stmt} (fuel : Nat)
    (h : Tracks tokens statement statement') (n : Nat) :
    Tracks tokens (statements tokens fuel statement n) (Parse.statements fuel statement' n) := by
  induction n with
  | zero => exact .exhausted
  | succ n ih =>
      refine Tracks.bind (.skipSeparators hends _) fun _ => ?_
      refine Tracks.bind (.check hends _) fun _ => Tracks.bind (.atEnd hends) fun _ => ?_
      exact .ite (.pure _) (h.bind fun s => ih.bind fun rest => .pure _)

/-- A block and its braces. -/
theorem tracks_block {statement : Indexed Stmt} {statement' : Parser Stmt} (fuel : Nat)
    (h : Tracks tokens statement statement') :
    Tracks tokens (Indexed.block tokens fuel statement) (Parse.block fuel statement') := by
  refine Tracks.bind (.discard (.consume hends _ _)) fun _ => Tracks.nested hends _ ?_
  refine (tracks_statements hends fuel h fuel).bind fun body => ?_
  exact Tracks.bind (.discard (.consume hends _ _)) fun _ => .pure _

/-- A function from its keyword on; its place is that of the keyword. -/
theorem same_definition (hblock : Tracks tokens block block') (h : Stands tokens s c) {t : Token}
    (ht : Behind tokens s t) :
    Same tokens (functionDefinition tokens block s) (Parse.definition block' t.pos c) := by
  have hclose (name : Token) (params : List Token) :
      Tracks tokens
        (do
          discard (consume tokens .rightParen .closeParameters)
          let body ← block
          return .function name.lexeme (params.map Token.lexeme) body t.pos : Indexed Stmt)
        (do
          discard (Parse.expect .rightParen .closeParameters)
          let body ← block'
          return .function name.lexeme (params.map Token.lexeme) body t.pos : Parser Stmt) :=
    Tracks.bind (.discard (.consume hends _ _)) fun _ => hblock.bind fun body => .pure _
  rw [functionDefinition, bind_of_ok _ ht.previous_eq]
  refine Tracks.bind (.consume hends _ _) (fun name => ?_) s c h
  refine Tracks.bind (.discard (.consume hends _ _)) fun _ => ?_
  refine Tracks.bind (.check hends _) fun _ => .ite ?_ ?_
  · exact Tracks.bind (.pure _) (hclose name)
  · exact Tracks.bind (.separated hends _ (.consume hends _ _) _) (hclose name)

/-- A conditional and the else-ifs that follow it, by induction on the fuel: each of
them looks back at its own keyword. -/
theorem same_conditional (hexpr : Tracks tokens expr expr') (hblock : Tracks tokens block block')
    (n : Nat) (h : Stands tokens s c) {t : Token} (ht : Behind tokens s t) :
    Same tokens (ifStatement tokens expr block n s)
      (Parse.conditional expr' block' n t.pos c) := by
  induction n generalizing s c t with
  | zero => exact .stop h
  | succ n ih =>
      rw [ifStatement, bind_of_ok _ ht.previous_eq]
      refine Tracks.bind hexpr (fun condition => hblock.bind fun body => ?_) s c h
      intro s c h
      cases helse : c.sees (.keyword .elseKw) with
      | false =>
          rw [bind_of_ok _ (h.accept_of_not_sees hends helse),
            bind_of_ok _ (Parse.accept_of_not_sees helse)]
          exact .ok h
      | true =>
          have hother := h.next hends (Cursor.atEnd_of_sees helse)
          rw [bind_of_ok _ (h.accept_of_sees hends helse),
            bind_of_ok _ (Parse.accept_of_sees helse), if_pos rfl, if_pos rfl,
            bind_of_ok _ (peek_apply _)]
          cases hif : c.forward.sees (.keyword .ifKw) with
          | false =>
              rw [bind_of_ok _ (hother.accept_of_not_sees hends hif),
                bind_of_ok _ (Parse.accept_of_not_sees hif)]
              exact hblock.bind (fun other => .pure _) _ _ hother
          | true =>
              have hchained := hother.next hends (Cursor.atEnd_of_sees hif)
              rw [bind_of_ok _ (hother.accept_of_sees hends hif),
                bind_of_ok _ (Parse.accept_of_sees hif)]
              refine Same.bind (Same.nested hends hchained _ fun hdeeper => ?_)
                fun _ _ _ _ _ h => .ok h
              exact ih hdeeper (hother.behind_next hends)

omit hends in
/-- A while loop from its keyword on. -/
theorem same_while (hexpr : Tracks tokens expr expr') (hblock : Tracks tokens block block')
    (h : Stands tokens s c) {t : Token} (ht : Behind tokens s t) :
    Same tokens (whileStatement tokens expr block s)
      ((do
        let condition ← expr'
        let body ← block'
        return .whileLoop condition body t.pos : Parser Stmt) c) := by
  rw [whileStatement, bind_of_ok _ ht.previous_eq]
  exact Tracks.bind hexpr (fun condition => hblock.bind fun body => .pure _) s c h

/-- A for loop from its keyword on. -/
theorem same_iteration (hexpr : Tracks tokens expr expr') (hblock : Tracks tokens block block')
    (h : Stands tokens s c) {t : Token} (ht : Behind tokens s t) :
    Same tokens (forStatement tokens expr block s) (Parse.iteration expr' block' t.pos c) := by
  rw [forStatement, bind_of_ok _ ht.previous_eq]
  refine Tracks.bind (.consume hends _ _) (fun var => ?_) s c h
  refine Tracks.bind (.discard (.consume hends _ _)) fun _ => ?_
  exact hexpr.bind fun items => hblock.bind fun body => .pure _

/-- A return with a value or without one; what comes next decides. -/
theorem same_giveBack (hexpr : Tracks tokens expr expr') (h : Stands tokens s c) {t : Token}
    (ht : Behind tokens s t) :
    Same tokens (returnStatement tokens expr s) (Parse.giveBack expr' t.pos c) := by
  rw [returnStatement, bind_of_ok _ ht.previous_eq]
  refine Tracks.bind (.check hends _) (fun _ => ?_) s c h
  refine Tracks.bind (.check hends _) fun _ => Tracks.bind (.atEnd hends) fun _ => ?_
  exact .ite (.pure _) (hexpr.bind fun value => .pure _)

/-- An assignment from its name on. -/
theorem same_assignment (hexpr : Tracks tokens expr expr') (h : Stands tokens s c)
    (hc : c.atEnd = false) :
    Same tokens (assignment tokens expr s) (Parse.assignment expr' c) := by
  rw [assignment, Parse.assignment, bind_of_ok _ (h.advance_eq hends hc),
    bind_of_ok _ (Parse.advance_apply c)]
  refine Tracks.bind (.discard (.consume hends _ _)) (fun _ => ?_) _ _ (h.next hends hc)
  exact hexpr.bind fun value => .pure _

omit hends in
/-- Whether an equals sign follows the next token is read from the slice as from the
cursor, also where the slice ends. -/
theorem nextIsAssign_eq (h : Stands tokens s c) :
    nextIsAssign tokens s =
      .ok (c.rest.tail.head?.any fun t => t.kind = .operator .assign) s := by
  rw [h.rest, List.tail_drop, List.head?_drop]
  rfl

/-- A keyword that begins a statement is taken, and the rule for the statement looks back
at it. -/
theorem Same.keyword {x y : Indexed α} {p : Parser α} {k : Keyword} (h : Stands tokens s c)
    (htaken : c.current.kind = .keyword k → c.atEnd = false →
      Same tokens (x s.next) (p c))
    (hleft : c.current.kind ≠ .keyword k → Same tokens (y s) (p c)) :
    Same tokens ((do if ← accept tokens (.keyword k) then x else y : Indexed α) s) (p c) := by
  by_cases hkind : c.current.kind = .keyword k
  · have hatEnd : c.atEnd = false := Cursor.atEnd_of_current_kind hkind (by simp)
    have hsees : c.sees (.keyword k) = true := by simp [Cursor.sees, hatEnd, hkind]
    rw [bind_of_ok _ (h.accept_of_sees hends hsees)]
    exact htaken hkind hatEnd
  · rw [bind_of_ok _ (h.accept_of_not_sees hends (Cursor.sees_of_ne hkind))]
    exact hleft hkind

/-- A statement: its keyword decides which rule reads it, and an equals sign after a
name tells an assignment from an expression. -/
theorem tracks_statementBody (fuel : Nat) (hexpr : Tracks tokens expr expr')
    (hblock : Tracks tokens block block') :
    Tracks tokens (statementBody tokens fuel expr block)
      (Parse.statementBody fuel expr' block') := by
  intro s c h
  have hbehind := h.behind_next hends
  refine Same.keyword hends h (fun hkind hatEnd => ?_) fun hfunction => ?_
  · rw [Parse.statementBody, bind_of_ok _ (peek_apply c), hkind]
    exact same_definition hends hblock (h.next hends hatEnd) hbehind
  refine Same.keyword hends h (fun hkind hatEnd => ?_) fun hif => ?_
  · rw [Parse.statementBody, bind_of_ok _ (peek_apply c), hkind]
    exact same_conditional hends hexpr hblock fuel (h.next hends hatEnd) hbehind
  refine Same.keyword hends h (fun hkind hatEnd => ?_) fun hwhile => ?_
  · rw [Parse.statementBody, bind_of_ok _ (peek_apply c), hkind]
    exact same_while hexpr hblock (h.next hends hatEnd) hbehind
  refine Same.keyword hends h (fun hkind hatEnd => ?_) fun hfor => ?_
  · rw [Parse.statementBody, bind_of_ok _ (peek_apply c), hkind]
    exact same_iteration hends hexpr hblock (h.next hends hatEnd) hbehind
  refine Same.keyword hends h (fun hkind hatEnd => ?_) fun hreturn => ?_
  · rw [Parse.statementBody, bind_of_ok _ (peek_apply c), hkind]
    exact same_giveBack hends hexpr (h.next hends hatEnd) hbehind
  rw [bind_of_ok _ (h.check_eq hends .identifier), bind_of_ok _ (nextIsAssign_eq h),
    Parse.statementBody, bind_of_ok _ (peek_apply c)]
  have hbare : Tracks tokens (do return .expression (← expr)) (Parse.bare expr') :=
    hexpr.bind fun e => .pure _
  cases hkind : c.current.kind with
  | identifier =>
      have hatEnd : c.atEnd = false := Cursor.atEnd_of_current_kind hkind (by simp)
      have hsees : c.sees .identifier = true := by simp [Cursor.sees, hatEnd, hkind]
      have hassign : Parse.assignFollows c =
          .ok (c.rest.tail.head?.any fun t => t.kind = .operator .assign) c := rfl
      rw [hsees, Bool.true_and]
      simp only []
      rw [bind_of_ok _ hassign]
      split
      · exact same_assignment hends hexpr h hatEnd
      · exact hbare s c h
  | keyword k =>
      have hsees : c.sees .identifier = false := Cursor.sees_of_ne (by simp [hkind])
      rw [hsees, Bool.false_and]
      cases k with
      | functionKw => exact absurd hkind hfunction
      | ifKw => exact absurd hkind hif
      | whileKw => exact absurd hkind hwhile
      | forKw => exact absurd hkind hfor
      | returnKw => exact absurd hkind hreturn
      | _ => exact hbare s c h
  | _ =>
      have hsees : c.sees .identifier = false := Cursor.sees_of_ne (by simp [hkind])
      rw [hsees, Bool.false_and]
      exact hbare s c h

/-- A statement and the semicolon after it, if there is one. -/
theorem tracks_statement (fuel : Nat) (hexpr : Tracks tokens expr expr') (n : Nat) :
    Tracks tokens (statement tokens fuel expr n) (Parse.statement fuel expr' n) := by
  induction n with
  | zero => exact .exhausted
  | succ n ih =>
      refine (tracks_statementBody hends fuel hexpr (tracks_block hends fuel ih)).bind fun s => ?_
      exact Tracks.bind (.discard (.accept hends _)) fun _ => .pure _

/-- The statements of a whole slice. -/
theorem tracks_program {statement : Indexed Stmt} {statement' : Parser Stmt} (fuel : Nat)
    (h : Tracks tokens statement statement') (n : Nat) :
    Tracks tokens (program tokens fuel statement n) (Parse.program fuel statement' n) := by
  induction n with
  | zero => exact .exhausted
  | succ n ih =>
      refine Tracks.bind (.skipSeparators hends _) fun _ => Tracks.bind (.atEnd hends) fun _ => ?_
      exact .ite (.pure _) (h.bind fun s => ih.bind fun rest => .pure _)

end steps

end Indexed

end Abacus
