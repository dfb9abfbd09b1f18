import Abacus.Proofs.Parse.Literal
import Abacus.Proofs.Parse.Lookahead
import Abacus.Proofs.Parse.Sound

/-!
# Abacus.Proofs.Parse.Operands

The rules for expressions are steady.  An expression may be followed by what closes a
group, opens a block or ends a statement; none of these tokens continues it.  The sample
that is put in for an expression is the number 1, which every nesting allows, and lists
end with their parenthesis.

After a name, an expression has its faults at a later token (`PassesName`): this is what
keeps the second of the two tokens that are looked at before an assignment out of the way.
-/

namespace Abacus

namespace Parse

open Stateful

/-- What may follow an expression when it is completed. -/
def expressionEnds : Set Kind :=
  {.rightParen, .leftBrace, .rightBrace, .keyword .toKw, .endOfInput}

/-- What may follow an expression is no binary operator. -/
theorem binaryOp?_of_mem {kind : Kind} (h : kind ∈ expressionEnds) : kind.binaryOp? = none := by
  obtain rfl | rfl | rfl | rfl | rfl := h <;> rfl

/-- What may follow an expression is no sign. -/
theorem unaryOp?_of_mem {kind : Kind} (h : kind ∈ expressionEnds) : kind.unaryOp? = none := by
  obtain rfl | rfl | rfl | rfl | rfl := h <;> rfl

variable {b n : Nat}

/-! ## Operators -/

section operators

variable {level : Level} {operand : Parser Expr} {operands : Nat → Parser Expr}
variable {fuel : Nat} {fuels : Nat → Nat}

/-- Where no operator of the level comes, the loop over operators ends. -/
theorem operators_of_none {c : Cursor} (m : Nat) (left : Expr)
    (h : level.operator? c.current.kind = none) :
    operators level operand (m + 1) left c = (pure left : Parser Expr) c := by
  rw [operators, peek_bind_apply, h]

/-- An operator of the level is taken, and its right operand, one level of nesting deeper. -/
theorem operators_cons {t : Token} {ts : List Token} (m : Nat) (left : Expr) {op : BinaryOp}
    (h : level.operator? t.kind = some op) :
    operators level operand (m + 1) left ⟨t :: ts, n⟩ =
      nested .operators (operand >>= fun right =>
        operators level operand m (.binary op left right t.pos)) ⟨ts, n⟩ := by
  rw [operators, peek_bind_apply, current_cons, h]
  exact take_cons _ (Grammar.operator?_eq_some_iff.mp h).ne_endOfInput

/-- What may follow an expression is an operator of no level. -/
theorem operator?_of_mem {c : Cursor} (h : c.current.kind ∈ expressionEnds) :
    level.operator? c.current.kind = none := by
  rw [Level.operator?, binaryOp?_of_mem h, Option.filter_none]

/-- The loop over operators has fuel for one step, or none at all. -/
theorem starved_operators (left : Expr) (fuels : Nat → Nat) :
    Starved (fun i => operators level (operands i) (fuels i) left)
      fun i => operators level (operands i) (fuels i - 1 + 1) left :=
  starved_of_zero (fun i m => operators level (operands i) m left) (fun _ => rfl) fuels

/-- No operator has to be put in. -/
theorem feasible_operators (left : Expr) (fuels : Nat → Nat) :
    Feasible n expressionEnds expressionEnds
      fun i => operators level (operands i) (fuels i) left := by
  refine .starved ⟨[], left, proper_nil, fun tail htail => ⟨htail, fun i => .inl ?_⟩⟩
    (starved_operators left fuels)
  exact operators_of_none _ left (operator?_of_mem (c := ⟨tail, n⟩) htail)

/-- The loop over operators, by induction on the fuel. -/
theorem steady_operators (hoperand : Ready nestingLimit .univ expressionEnds operand operands)
    (m : Nat) (fuels : Nat → Nat) (left : Expr) :
    Steady expressionEnds (operators level operand m left)
      fun i => operators level (operands i) (fuels i) left := by
  induction m generalizing fuels left with
  | zero => exact .exhausted
  | succ m ih =>
      refine .starved ?_ (starved_operators left fuels)
      refine (Steady.pure left).choose (fun t => ?_) (fun _ => operators_of_none m left (by rfl))
        (.inr fun _ _ hc => operators_of_none _ left (operator?_of_mem hc))
      cases hop : level.operator? t.kind with
      | none =>
          exact .left (fun _ _ => operators_of_none m left hop)
            fun _ _ _ => operators_of_none _ left hop
      | some op =>
          have hfolds : ∀ right, Ready nestingLimit expressionEnds expressionEnds
              (operators level operand m (.binary op left right t.pos))
              fun i => operators level (operands i) (fuels i - 1) (.binary op left right t.pos) :=
            fun right => ⟨ih _ _, fun _ _ => feasible_operators _ _⟩
          have hright := hoperand.bind hfolds (le_refl _) (subset_refl _)
          exact .taken _ _ ((hright.viable (le_refl _)).nested _)
            (fun _ _ => operators_cons m left hop) fun _ _ _ => operators_cons _ left hop

/-- All levels, by induction on their list; the sample is that of an operand. -/
theorem ready_climb (hb : nestingLimit ≤ b)
    (hoperand : Ready b .univ expressionEnds operand operands) (levels : List Level) :
    Ready b .univ expressionEnds (climb fuel operand levels)
      fun i => climb (fuels i) (operands i) levels := by
  induction levels with
  | nil => exact hoperand
  | cons level tighter ih =>
      have hih : Ready nestingLimit .univ expressionEnds (climb fuel operand tighter)
          fun i => climb (fuels i) (operands i) tighter :=
        ⟨ih.toSteady, fun n hn => ih.feasible n (hn.trans_le hb)⟩
      exact ih.bind (fun left => ⟨steady_operators hih fuel fuels left,
        fun _ _ => feasible_operators left fuels⟩) hb (subset_refl _)

/-- An expression with its guard against deep nesting. -/
theorem ready_expression (hoperand : ∀ b, Ready b .univ expressionEnds operand operands) :
    Ready nestingLimit .univ expressionEnds (expression fuel operand)
      fun i => expression (fuels i) (operands i) :=
  (ready_climb (Nat.le_succ _) (hoperand _) Level.all).nested (le_refl _)

end operators

/-! ## Lists in parentheses -/

section listed

variable {α β : Type} {S : Set Kind} {item : Parser α} {items : Nat → Parser α}
variable {tooMany close : Expected}

/-- Items with commas between them, by induction on the number allowed. -/
theorem viable_separated (hitem : Ready nestingLimit .univ expressionEnds item items)
    (hmany : tooMany.isLimit = true) (m : Nat) :
    Viable .univ expressionEnds (separated tooMany item m)
      fun i => separated tooMany (items i) m := by
  induction m with
  | zero =>
      refine .of_error (.atToken tooMany) (fun t h => ?_) (fun _ => rfl) fun _ _ => rfl
      exact absurd (h.1.symm.trans hmany) (by simp)
  | succ m ih =>
      refine (hitem.viable (le_refl _)).bind (fun a => ?_) (le_refl _) (subset_refl _)
        (Set.subset_univ _)
      exact .accept_bind (by simp) (by simp [expressionEnds]) (by simp [expressionEnds])
        (ih.wrap (a :: ·) (subset_refl _) (Set.subset_univ _)) (.pure (subset_refl _) _)

/-- Items with commas between them, or none, up to a closing parenthesis. -/
def listed (tooMany close : Expected) (item : Parser α) (k : List α → Parser β) : Parser β := do
  if ← sees .rightParen then
    discard (expect .rightParen close)
    k []
  else
    let as ← separated tooMany item listLimit
    discard (expect .rightParen close)
    k as

/-- A list that is closed at once has no items. -/
theorem listed_cons {k : List α → Parser β} {t : Token} {ts : List Token}
    (ht : t.kind = .rightParen) : listed tooMany close item k ⟨t :: ts, n⟩ = k [] ⟨ts, n⟩ := by
  rw [listed, sees_bind_apply, Cursor.sees_cons ht (by simp), if_pos rfl, discard_bind]
  exact expect_cons (by simp) ht

/-- A list that is not closed at once has items. -/
theorem listed_of_ne {k : List α → Parser β} {c : Cursor} (hc : c.current.kind ≠ .rightParen) :
    listed tooMany close item k c = (separated tooMany item listLimit >>= fun as =>
      discard (expect .rightParen close) >>= fun _ => k as : Parser β) c := by
  rw [listed, sees_bind_apply, Cursor.sees_of_ne hc, if_neg Bool.false_ne_true]

/-- A list in parentheses; the sample is the parenthesis that closes it. -/
theorem ready_listed (hitem : Ready nestingLimit .univ expressionEnds item items)
    (hmany : tooMany.isLimit = true) (hS : S ⊆ expressionEnds) {k : List α → Parser β}
    {l : Nat → List α → Parser β} (hk : ∀ as, Ready nestingLimit .univ S (k as) fun i => l i as) :
    Ready nestingLimit .univ S (listed tooMany close item k)
      fun i => listed tooMany close (items i) (l i) := by
  have hitems := viable_separated hitem hmany listLimit
  have hclose : ∀ as, Ready nestingLimit expressionEnds S
      (discard (expect .rightParen close) >>= fun _ => k as)
      fun i => discard (expect .rightParen close) >>= fun _ => l i as :=
    fun as => .skip_bind (by simp) (by simp [expressionEnds]) (le_refl _) (hk as)
  refine ⟨(hitems.toSteady.bind hclose (le_refl _) hS).choose (fun t => ?_)
    (fun n => listed_of_ne (by simp [Cursor.current, Token.finish]))
    (.inl (hitems.toFalls.bind_strict fun as => .skip_bind (hk as).toFalls)), fun n hn =>
      .cons _ (by simp) trivial ((hk []).feasible n hn) fun _ _ => listed_cons rfl⟩
  by_cases ht : t.kind = .rightParen
  · exact .taken _ _ ((hk []).viable (le_refl _)) (fun _ _ => listed_cons ht)
      fun _ _ _ => listed_cons ht
  · exact .left (fun _ _ => listed_of_ne ht) fun _ _ _ => listed_of_ne ht

end listed

/-! ## Primary and unary expressions -/

/- Primary expressions decide by their first token.  What a rule does after that token has a
name of its own here (`bounded`, `named`, `literal`), so that each way to go on is ready or
viable by itself; `steady_primary` then only tells the tokens apart. -/

section primary

variable {expr unary : Parser Expr} {exprs unaries : Nat → Parser Expr}

/-- The arguments of a call. -/
theorem ready_arguments (hexpr : Ready nestingLimit .univ expressionEnds expr exprs) :
    Ready nestingLimit .univ expressionEnds (arguments expr) fun i => arguments (exprs i) :=
  ready_listed hexpr rfl (subset_refl _) fun _ => .pure (Set.subset_univ _) _

/-- The differential of an integral need not be there. -/
theorem ready_differential (var : String) :
    Ready nestingLimit expressionEnds expressionEnds (differential var)
      fun _ => differential var := by
  have hleft : ∀ {c : Cursor}, c.current.kind ≠ .identifier →
      differential var c = (pure ⟨⟩ : Parser PUnit) c := fun hc => by
    rw [differential, sees_bind_apply, Cursor.sees_of_ne hc, if_neg Bool.false_ne_true]
  have hend : ∀ {c : Cursor}, c.current.kind ∈ expressionEnds →
      differential var c = (pure ⟨⟩ : Parser PUnit) c := fun hc =>
    hleft (ne_of_mem (by simp [expressionEnds]) hc)
  refine (Ready.pure (subset_refl _) ⟨⟩).choose ((Steady.pure ⟨⟩).choose (fun t => ?_)
    (fun _ => hleft (by simp [Cursor.current, Token.finish])) (.inr fun _ _ => hend))
    fun _ _ => hend
  by_cases ht : t.kind = .identifier
  · have hsees : ∀ ts n, differential var ⟨t :: ts, n⟩ =
        (if t.lexeme = "d" ++ var then discard advance else pure ⟨⟩ : Parser PUnit)
          ⟨t :: ts, n⟩ := by
      intro ts n
      rw [differential, sees_bind_apply, Cursor.sees_cons ht (by simp), if_pos rfl,
        peek_bind_apply, current_cons]
    by_cases hname : t.lexeme = "d" ++ var
    · have htake : ∀ ts n, differential var ⟨t :: ts, n⟩ = (pure ⟨⟩ : Parser PUnit) ⟨ts, n⟩ := by
        intro ts n
        rw [hsees, if_pos hname, discard_eq, bind_of_ok _ (advance_apply _),
          Cursor.forward_cons (by simp [ht])]
      exact .taken _ _ ((Ready.pure (Set.subset_univ _) _).viable (le_refl _)) htake fun _ => htake
    · have hkeep : ∀ ts n, differential var ⟨t :: ts, n⟩ =
          (pure ⟨⟩ : Parser PUnit) ⟨t :: ts, n⟩ := by
        intro ts n
        rw [hsees, if_neg hname]
      exact .left hkeep fun _ => hkeep
  · exact .left (fun _ _ => hleft ht) fun _ _ _ => hleft ht

/-- An aggregate after its symbol. -/
def bounded (expr unary : Parser Expr) (kind : Aggregate) (pos : Position) : Parser Expr := do
  discard (expect .leftParen .openBounds)
  let var ← expect .identifier .boundVariable
  discard (expect (.operator .assign) .boundAssign)
  let start ← expr
  discard (expect (.keyword .toKw) .toWord)
  let stop ← expr
  discard (expect .rightParen .closeBounds)
  let body ← unary
  if kind = .integral then differential var.lexeme
  return .aggregate kind var.lexeme start stop body pos

/-- An aggregate after its symbol. The sample has bounds and a body, all of them the
number 1. -/
theorem ready_bounded (hexpr : Ready nestingLimit .univ expressionEnds expr exprs)
    (hunary : Ready nestingLimit .univ expressionEnds unary unaries) (kind : Aggregate)
    (pos : Position) :
    Ready nestingLimit .univ expressionEnds (bounded expr unary kind pos)
      fun i => bounded (exprs i) (unaries i) kind pos := by
  refine .skip_bind (by simp) trivial (le_refl _) ?_
  refine .expect_bind (by simp) trivial (le_refl _) fun var => ?_
  refine .skip_bind (by simp) trivial (le_refl _) ?_
  refine hexpr.bind (fun start => ?_) (le_refl _) (subset_refl _)
  refine .skip_bind (by simp) (by simp [expressionEnds]) (le_refl _) ?_
  refine hexpr.bind (fun stop => ?_) (le_refl _) (subset_refl _)
  refine .skip_bind (by simp) (by simp [expressionEnds]) (le_refl _) ?_
  refine hunary.bind (fun body => ?_) (le_refl _) (subset_refl _)
  split
  · exact (ready_differential _).wrap _ (subset_refl _)
  · exact .pure (subset_refl _) _

/-- An expression of one token. -/
theorem viable_leaf (e : Expr) :
    Viable .univ expressionEnds (pure e : Parser Expr) fun _ => pure e :=
  (Ready.pure (Set.subset_univ _) e).viable (le_refl nestingLimit)

/-- A name or a call, after its name. -/
def named (expr : Parser Expr) (name : String) (pos : Position) : Parser Expr := do
  if ← accept .leftParen then
    let args ← arguments expr
    return .call name args pos
  else return .variable name pos

/-- A name need not be a call. -/
theorem ready_named (hexpr : Ready nestingLimit .univ expressionEnds expr exprs) (name : String)
    (pos : Position) :
    Ready nestingLimit expressionEnds expressionEnds (named expr name pos)
      fun i => named (exprs i) name pos := by
  have hcall := (ready_arguments hexpr).wrap (fun args => Expr.call name args pos) (subset_refl _)
  exact .accept_bind (by simp) (by simp [expressionEnds]) (by simp [expressionEnds])
    (hcall.viable (le_refl _)) (.pure (subset_refl _) _)

/-- The value of a number token. -/
def literal (t : Token) : Parser Expr :=
  match Number.read? t.lexeme with
  | some x => return .number x
  | none => throw (.fault (.atToken .numericLiteral t))

/-- A number token is taken first and then read. -/
theorem primary_number (lexeme : String) (pos : Position) (ts : List Token) :
    primary expr unary ⟨⟨.number, lexeme, pos⟩ :: ts, n⟩ =
      literal ⟨.number, lexeme, pos⟩ ⟨ts, n⟩ := by
  rw [primary, peek_bind_apply]
  exact take_cons _ (by simp)

/-- A number is taken, or its text is to blame. -/
theorem viable_literal (t : Token) :
    Viable .univ expressionEnds (literal t) fun _ => literal t := by
  unfold literal
  cases Number.read? t.lexeme with
  | some x => exact viable_leaf _
  | none =>
      exact .of_error (fun _ => .atToken .numericLiteral t) (fun _ h => h.2 rfl)
        (fun _ => rfl) fun _ _ => rfl

/-- A primary expression: a case for each kind of its first token. -/
theorem steady_primary (hexpr : Ready nestingLimit .univ expressionEnds expr exprs)
    (hunary : Ready nestingLimit .univ expressionEnds unary unaries) :
    Steady expressionEnds (primary expr unary) fun i => primary (exprs i) (unaries i) := by
  refine (Steady.fail .expression).choose (fun t => ?_) (fun _ => rfl)
    (.inl fun c a c' h => by contradiction)
  obtain ⟨kind, lexeme, pos⟩ := t
  cases kind with
  | number =>
      exact .taken _ _ (viable_literal _) (fun ts _ => primary_number lexeme pos ts)
        fun _ ts _ => primary_number lexeme pos ts
  | string s => exact .taken _ _ (viable_leaf (.string s)) (fun _ _ => rfl) fun _ _ _ => rfl
  | identifier =>
      exact .taken _ _ ((ready_named hexpr lexeme pos).viable (le_refl _)) (fun _ _ => rfl)
        fun _ _ _ => rfl
  | leftParen =>
      have hgroup : Ready nestingLimit .univ expressionEnds
          (do let e ← expr; discard (expect .rightParen .closeGroup); return e)
          fun i => do let e ← exprs i; discard (expect .rightParen .closeGroup); return e := by
        refine hexpr.bind (fun e => ?_) (le_refl _) (subset_refl _)
        exact .skip_bind (by simp) (by simp [expressionEnds]) (le_refl _)
          (.pure (Set.subset_univ _) e)
      exact .taken _ _ (hgroup.viable (le_refl _)) (fun _ _ => rfl) fun _ _ _ => rfl
  | keyword w =>
      cases w with
      | trueKw => exact .taken _ _ (viable_leaf (.boolean true)) (fun _ _ => rfl) fun _ _ _ => rfl
      | falseKw => exact .taken _ _ (viable_leaf (.boolean false)) (fun _ _ => rfl) fun _ _ _ => rfl
      | _ => exact .left (fun _ _ => rfl) fun _ _ _ => rfl
  | operator o =>
      cases o with
      | sum | product | integral =>
          exact .taken _ _ ((ready_bounded hexpr hunary _ pos).viable (le_refl _)) (fun _ _ => rfl)
            fun _ _ _ => rfl
      | _ => exact .left (fun _ _ => rfl) fun _ _ _ => rfl
  | _ => exact .left (fun _ _ => rfl) fun _ _ _ => rfl

end primary

/-- Without a sign a unary expression is a primary one. -/
theorem unary_of_none (m : Nat) {c : Cursor} (h : c.current.kind.unaryOp? = none) :
    unary (m + 1) c = primary (expression m (unary m)) (unary m) c := by
  rw [unary, peek_bind_apply, h]

/-- After a sign a unary expression is read one level of nesting deeper. -/
theorem unary_cons (m : Nat) {t : Token} {ts : List Token} {op : UnaryOp}
    (h : t.kind.unaryOp? = some op) : unary (m + 1) ⟨t :: ts, n⟩ =
      (nested .unaryOperators (unary m) >>= fun e => pure (.unary op e t.pos)) ⟨ts, n⟩ := by
  rw [unary, peek_bind_apply, current_cons, h]
  exact take_cons _ (Grammar.unaryOp?_eq_some_iff.mp h).ne_endOfInput

/-- Unary expressions have fuel for one step, or none at all. -/
theorem starved_unary (fuels : Nat → Nat) :
    Starved (fun i => unary (fuels i)) fun i => unary (fuels i - 1 + 1) :=
  starved_of_zero (fun _ m => unary m) (fun _ => rfl) fuels

/-- A number is an expression at any nesting. -/
theorem feasible_unary (fuels : Nat → Nat) :
    Feasible n .univ expressionEnds fun i => unary (fuels i) := by
  have hproper : (sample .number).Proper := proper_sample (by simp)
  obtain ⟨x, hx⟩ := Option.isSome_iff_exists.mp (hproper.spelled rfl).isSome_read?
  have hone : literal (sample .number) = pure (.number x) := by
    rw [literal, hx]
  have hfeasible := Feasible.pure (n := n) (Set.subset_univ expressionEnds) (Expr.number x)
  refine .starved (.cons .number (by simp) trivial hfeasible fun i ts => ?_)
    (starved_unary fuels)
  rw [unary_of_none _ rfl, ← hone]
  exact primary_number "1" .first ts

/-- Unary expressions, by induction on the fuel. -/
theorem steady_unary (m : Nat) (fuels : Nat → Nat) :
    Steady expressionEnds (unary m) fun i => unary (fuels i) := by
  induction m generalizing fuels with
  | zero => exact .exhausted
  | succ m ih =>
      have hunary : ∀ b, Ready b .univ expressionEnds (unary m) fun i => unary (fuels i - 1) :=
        fun b => ⟨ih _, fun _ _ => feasible_unary _⟩
      have hexpr : Ready nestingLimit .univ expressionEnds (expression m (unary m))
          fun i => expression (fuels i - 1) (unary (fuels i - 1)) := ready_expression hunary
      refine .starved ?_ (starved_unary fuels)
      refine (steady_primary hexpr (hunary _)).choose (fun t => ?_)
        (fun _ => unary_of_none m rfl) (.inr fun _ _ hc => unary_of_none _ (unaryOp?_of_mem hc))
      cases hop : t.kind.unaryOp? with
      | none => exact .left (fun _ _ => unary_of_none m hop) fun _ _ _ => unary_of_none _ hop
      | some op =>
          have hoperand := ((hunary nestingLimit).viable (le_refl _)).nested .unaryOperators
          have htree := hoperand.wrap (fun e => Expr.unary op e t.pos) (subset_refl _)
            (Set.subset_univ _)
          exact .taken _ _ htree (fun _ _ => unary_cons m hop) fun _ _ _ => unary_cons _ hop

/-- Unary expressions are ready at every nesting, for a number is one of them. -/
theorem ready_unary (m : Nat) (fuels : Nat → Nat) (b : Nat) :
    Ready b .univ expressionEnds (unary m) fun i => unary (fuels i) :=
  ⟨steady_unary m fuels, fun _ _ => feasible_unary fuels⟩

/-! ## Names at the start of an expression -/

/-- After a name an expression stops only at a later token, or at a limit. -/
def PassesName (p : Parser Expr) : Prop :=
  ∀ {t : Token} {ts : List Token} {n : Nat} {e : GrammarError} {c : Cursor},
    t.kind = .identifier → p ⟨t :: ts, n⟩ = .error (.fault e) c →
    e.expected.isLimit = true ∨ c.rest.length < ts.length

/-- A rule that reads at least one token takes it. -/
theorem strict_of_reads {α : Type} {p : Parser α} {D : α → List Token → Prop}
    (h : ∀ c, Reads c p D) (hD : ∀ a ts, D a ts → ts ≠ []) : Strict p := by
  intro c a c' hp
  obtain ⟨ts, hrest, _, _, hd⟩ := h c a c' hp
  have hpos := List.length_pos_iff.mpr (hD a ts hd)
  rw [hrest, List.length_append]
  omega

/-- The loop over operators stops only after it has taken one. -/
theorem operators_eq_error {level : Level} {operand : Parser Expr} {m : Nat} {left : Expr}
    {c c' : Cursor} {e : GrammarError}
    (hoperand : Ready nestingLimit .univ expressionEnds operand fun _ => operand)
    (h : operators level operand m left c = .error (.fault e) c') :
    c'.rest.length < c.rest.length := by
  cases m with
  | zero => cases h
  | succ m =>
      obtain ⟨_ | ⟨t, ts⟩, k⟩ := c
      · contradiction
      · cases hop : level.operator? t.kind with
        | none =>
            rw [operators_of_none m left hop] at h
            contradiction
        | some op =>
            rw [operators_cons m left hop] at h
            have hfolds : Falls (operand >>= fun right =>
                operators level operand m (.binary op left right t.pos)) :=
              hoperand.toFalls.bind fun right =>
                (steady_operators hoperand m (fun _ => m) _).toFalls
            exact Nat.lt_succ_of_le (hfolds.nested.error_rest h).1.length_le

/-- If operands have their faults after the name, so do the operators between them. -/
theorem PassesName.climb {fuel : Nat} {operand : Parser Expr} (h : PassesName operand)
    (hoperand : Ready nestingLimit .univ expressionEnds operand fun _ => operand)
    (hreads : ∀ c, Reads c operand fun e ts => Grammar.Derives (.unary e) ts)
    (levels : List Level) : PassesName (climb fuel operand levels) := by
  induction levels with
  | nil => exact h
  | cons level tighter ih =>
      intro t ts n e c ht herror
      obtain herror | ⟨left, c₁, hleft, herror⟩ := bind_eq_error herror
      · exact ih ht herror
      · have hstrict : Strict (Parse.climb fuel operand tighter) :=
          strict_of_reads (reads_climb hreads tighter) fun _ _ h =>
            Opens.ne_nil (starts_of_derives h)
        have htighter : Ready nestingLimit .univ expressionEnds (Parse.climb fuel operand tighter)
            fun _ => Parse.climb fuel operand tighter := ready_climb (le_refl _) hoperand tighter
        have htaken := hstrict _ _ _ hleft
        have hlater := operators_eq_error htighter herror
        simp only [List.length_cons] at htaken
        exact .inr (by omega)

/-- After a name, only the arguments of a call can have a fault. -/
theorem passesName_unary (m : Nat) : PassesName (unary m) := by
  intro t ts n e c ht herror
  cases m with
  | zero => cases herror
  | succ m =>
      obtain ⟨kind, lexeme, pos⟩ := t
      obtain rfl : kind = .identifier := ht
      have hnamed : named (expression m (unary m)) lexeme pos ⟨ts, n⟩ = .error (.fault e) c :=
        herror
      by_cases hparen : next ts = .leftParen
      · obtain ⟨l, ts, rfl⟩ : ∃ l us, ts = l :: us := by
          cases ts with
          | nil => contradiction
          | cons l us => exact ⟨l, us, rfl⟩
        have hl : l.kind = .leftParen := hparen
        rw [named, accept_cons (by simp) hl] at hnamed
        have hexpr : Ready nestingLimit .univ expressionEnds (expression m (unary m))
            fun _ => expression m (unary m) := ready_expression (ready_unary m fun _ => m)
        have hcall : Falls (arguments (expression m (unary m)) >>= fun args =>
            pure (Expr.call lexeme args pos)) :=
          (ready_arguments hexpr).toFalls.bind fun _ => .pure _
        exact .inr (Nat.lt_succ_of_le (hcall.error_rest hnamed).1.length_le)
      · rw [named, accept_of_ne (c := ⟨ts, n⟩) hparen] at hnamed
        contradiction

/-! ## The expressions of programs -/

/-- The expressions that a program is parsed with. -/
theorem ready_whole (fuel : Nat) :
    Ready nestingLimit .univ expressionEnds (expression fuel (unary fuel))
      fun i => expression i (unary i) :=
  ready_expression (ready_unary fuel id)

/-- After a name they stop at a later token. -/
theorem passesName_whole (fuel : Nat) : PassesName (expression fuel (unary fuel)) := by
  intro t ts n e c ht herror
  obtain ⟨_, herror⟩ | ⟨_, _, he⟩ := nested_eq_error herror
  · exact PassesName.climb (passesName_unary fuel) (ready_unary fuel (fun _ => fuel) _)
      (reads_unary fuel) Level.all ht herror
  · cases he
    exact .inl rfl

end Parse

end Abacus
