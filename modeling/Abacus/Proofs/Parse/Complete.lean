import Abacus.Proofs.Parse.Grammar
import Abacus.Proofs.Parse.Meets

/-!
# Abacus.Proofs.Parse.Complete

Completeness of the rules for expressions.  The yield of a derivation, followed
by tokens that cannot continue it, is read as the tree of the derivation, or the
nesting limit is met (`complete`).

The body of an aggregate may be followed by differentials of aggregates around
it.  An inner integral over the same variable takes such a differential first;
the tree is the same, as differentials leave no node.  So a unary expression is
read up to *some* of the identifiers that follow it, and the whole expression,
which no identifier follows, up to its end.
-/

namespace Abacus

namespace Parse

open Grammar

/-! ## What may follow -/

/-- The kind of the token that is read next. -/
def next (ts : List Token) : Kind := (ts.headD (.finish .first)).kind

@[simp] theorem next_cons (t : Token) (ts : List Token) : next (t :: ts) = t.kind := rfl

/-- What a cursor stands before is the next of its tokens. -/
theorem current_kind (ts : List Token) (n : Nat) : (⟨ts, n⟩ : Cursor).current.kind = next ts := rfl

/-- A token of this kind does not continue an expression of the given levels. -/
structure Closes (levels : List Level) (kind : Kind) : Prop where
  ne_leftParen : kind ≠ .leftParen
  ne_identifier : kind ≠ .identifier
  operator?_eq_none : ∀ level ∈ levels, level.operator? kind = none

/-- What closes a level closes the tighter ones. -/
theorem Closes.tail {level : Level} {tighter : List Level} {kind : Kind}
    (h : Closes (level :: tighter) kind) : Closes tighter kind :=
  ⟨h.ne_leftParen, h.ne_identifier,
    fun l hl => h.operator?_eq_none l (List.mem_cons_of_mem level hl)⟩

/-- The kinds of token that end an expression of any levels. -/
def ends : Kind → Bool
  | .leftParen | .identifier => false
  | kind => kind.binaryOp?.isNone

/-- A token that ends every expression closes any levels. -/
theorem closes_of_next {levels : List Level} {kind : Kind} {rest : List Token}
    (h : next rest = kind) (hends : ends kind = true) : Closes levels (next rest) := by
  rw [h]
  refine ⟨?_, ?_, fun level _ => ?_⟩
  · rintro rfl
    contradiction
  · rintro rfl
    contradiction
  · have hop : kind.binaryOp? = none := by
      unfold ends at hends
      split at hends
      · rfl
      · rfl
      · exact Option.isNone_iff_eq_none.mp hends
    rw [Level.operator?, hop, Option.filter_none]

/-- What stands next is not something else. -/
theorem sees_of_next {kind other : Kind} {rest : List Token} {n : Nat} (h : next rest = kind)
    (hne : kind ≠ other) : (⟨rest, n⟩ : Cursor).sees other = false := by
  apply Cursor.sees_of_ne
  rw [current_kind, h]
  exact hne

/-- An operator of another level does not continue an operand. -/
theorem closes_of_connects {level : Level} {tighter : List Level} {kind : Kind} {op : BinaryOp}
    (hop : Connects level kind op) (hlevel : level ∉ tighter) : Closes tighter kind := by
  refine ⟨?_, ?_, fun other hother => ?_⟩
  · rintro rfl
    cases hop
  · rintro rfl
    cases hop
  · cases hnone : other.operator? kind with
    | none => rfl
    | some op' =>
        have hother' : other = level := by
          have h₁ := operator?_eq_some_iff.mp hnone
          cases hop <;> cases h₁ <;> rfl
        exact absurd (hother' ▸ hother) hlevel

/-- After the operators of a level comes one of them or what follows the whole. -/
theorem Closes.folds {level : Level} {tighter : List Level} {left e : Expr} {us rest : List Token}
    (h : Derives (.folds level tighter left e) us) (hlevels : (level :: tighter).Nodup)
    (hrest : Closes (level :: tighter) (next rest)) : Closes tighter (next (us ++ rest)) := by
  cases h with
  | done => exact hrest.tail
  | fold hop _ _ => exact closes_of_connects hop (List.nodup_cons.mp hlevels).1

/-! ## How expressions start -/

/-- The kinds of token that an expression may start with. -/
def opens : Kind → Bool
  | .number | .string _ | .identifier | .leftParen => true
  | .keyword .trueKw | .keyword .falseKw | .keyword .notKw => true
  | .operator .minus | .operator .plus => true
  | .operator .sum | .operator .product | .operator .integral => true
  | _ => false

/-- An argument list that starts with an expression is not empty. -/
theorem ne_rightParen_of_opens {kind : Kind} (h : opens kind = true) : kind ≠ .rightParen := by
  rintro rfl
  contradiction

/-- No equals sign stands in front, unless the tokens that follow start with one. -/
def NoAssign (ts : List Token) : Prop :=
  ∀ rest, next rest ≠ .operator .assign → next (ts ++ rest) ≠ .operator .assign

/-- The tokens start as an expression does; an equals sign does not come second. -/
structure Opens (ts : List Token) : Prop where
  ne_nil : ts ≠ []
  opens_next : ∀ rest, opens (next (ts ++ rest)) = true
  noAssign_tail : next ts = .identifier → NoAssign ts.tail

/-- A token that is no equals sign may stand in front. -/
theorem noAssign_cons {t : Token} (ts : List Token) (ht : t.kind ≠ .operator .assign) :
    NoAssign (t :: ts) := fun _ _ => ht

theorem opens_cons {t : Token} {ts : List Token} (ht : opens t.kind = true)
    (htail : t.kind = .identifier → NoAssign ts) : Opens (t :: ts) :=
  ⟨List.cons_ne_nil t ts, fun _ => ht, htail⟩

/-- A token that is no identifier may be followed by anything. -/
theorem opens_symbol {t : Token} {kind : Kind} (ts : List Token) (ht : t.kind = kind)
    (hopens : opens kind = true) (hname : kind ≠ .identifier) : Opens (t :: ts) :=
  opens_cons (ht ▸ hopens) fun h => absurd (ht ▸ h) hname

/-- Signs start expressions, and are no names. -/
theorem opens_of_precedes {kind : Kind} {op : UnaryOp} (h : Precedes kind op) :
    opens kind = true ∧ kind ≠ .identifier := by
  cases h <;> exact ⟨rfl, (by simp)⟩

/-- The symbols of aggregates start expressions, and are no names. -/
theorem opens_of_denotes {kind : Kind} {a : Aggregate} (h : Denotes kind a) :
    opens kind = true ∧ kind ≠ .identifier := by
  cases h <;> exact ⟨rfl, (by simp)⟩

/-- More tokens may follow what starts an expression. -/
theorem Opens.append {ts us : List Token} (h : Opens ts) (hus : NoAssign us) :
    Opens (ts ++ us) := by
  obtain ⟨t, ts, rfl⟩ := List.exists_cons_of_ne_nil h.ne_nil
  rw [List.cons_append]
  refine opens_cons (h.opens_next []) fun ht rest hrest => ?_
  rw [List.append_assoc]
  exact h.noAssign_tail ht (us ++ rest) (hus rest hrest)

/-- How the yield of a derivation starts. -/
def Starts : Phrase → List Token → Prop
  | .folds _ _ _ _, ts => NoAssign ts
  | _, ts => Opens ts

/-- The yield of a derivation starts as its phrase says.  By induction on the
derivation: the leftmost token decides. -/
theorem starts_of_derives {phrase : Phrase} {ts : List Token} (h : Derives phrase ts) :
    Starts phrase ts := by
  induction h with
  | operand _ ih | plain _ ih | lastArgument _ ih => exact ih
  | level _ _ ihleft ihfolds => exact ihleft.append ihfolds
  | done => exact fun _ h => h
  | fold hop _ _ _ _ =>
      refine noAssign_cons _ fun ht => ?_
      rw [ht] at hop
      cases hop
  | operator hop _ _ =>
      exact opens_symbol _ rfl (opens_of_precedes hop).1 (opens_of_precedes hop).2
  | number ht _ | string ht | true ht | false ht | group ht _ _ _ =>
      exact opens_symbol _ ht rfl (by simp)
  | name ht => exact opens_cons (by rw [ht]; rfl) fun _ _ h => h
  | emptyCall ht hl _ | call ht hl _ _ _ _ =>
      exact opens_cons (by rw [ht]; rfl) fun _ => noAssign_cons _ (by simp [hl])
  | aggregate hsymbol =>
      exact opens_symbol _ rfl (opens_of_denotes hsymbol).1 (opens_of_denotes hsymbol).2
  | argument _ hc _ ih _ => exact ih.append (noAssign_cons _ (by simp [hc]))

/-! ## What derivations give -/

/-- What a derivation is to give, for every fuel, nesting and rest that allow it. -/
def Complete (budget : Nat) : Phrase → List Token → Prop
  | .chain levels e, ts => levels.Nodup → ∀ fuel n rest, (ts ++ rest).length < fuel →
      n + ts.length ≤ budget → Closes levels (next rest) →
      Consumes budget n (climb fuel (unary fuel) levels) ts rest e
  | .folds level tighter left e, ts => (level :: tighter).Nodup → ∀ fuel k n rest,
      (ts ++ rest).length < fuel → (ts ++ rest).length < k → n + ts.length ≤ budget →
      Closes (level :: tighter) (next rest) →
      Consumes budget n (operators level (climb fuel (unary fuel) tighter) k left) ts rest e
  | .unary e, ts => ∀ fuel n ds rest, (ts ++ (ds ++ rest)).length < fuel →
      n + ts.length ≤ budget → (∀ d ∈ ds, d.kind = .identifier) → Closes [] (next rest) →
      Meets budget ⟨ts ++ (ds ++ rest), n⟩ (unary fuel) fun a c =>
        a = e ∧ ∃ ds', ds' <:+ ds ∧ c = ⟨ds' ++ rest, n⟩
  | .primary e, ts => ∀ fuel n ds rest, (ts ++ (ds ++ rest)).length ≤ fuel →
      n + ts.length ≤ budget → (∀ d ∈ ds, d.kind = .identifier) → Closes [] (next rest) →
      Meets budget ⟨ts ++ (ds ++ rest), n⟩ (primary (expression fuel (unary fuel)) (unary fuel))
        fun a c => a = e ∧ ∃ ds', ds' <:+ ds ∧ c = ⟨ds' ++ rest, n⟩
  | .arguments es, ts => ∀ fuel k n rest, (ts ++ rest).length < fuel → es.length ≤ k →
      n + 1 + ts.length ≤ budget → next rest = .rightParen →
      Consumes budget n (separated .fewerArguments (expression fuel (unary fuel)) k) ts rest es

variable {budget : Nat}

/-! ## Levels -/

/-- A unary expression that no identifier follows is read up to its end. -/
theorem complete_operand {e : Expr} {ts : List Token} (h : Complete budget (.unary e) ts) :
    Complete budget (.chain [] e) ts := by
  intro _ fuel n rest hfuel hn hrest
  refine (h fuel n [] rest hfuel hn (by simp) hrest).mono fun a c ha => ?_
  obtain ⟨rfl, ds', hds, rfl⟩ := ha
  rw [List.suffix_nil.mp hds]
  exact ⟨rfl, rfl⟩

/-- A level is an operand and the operators after it. -/
theorem complete_level {level : Level} {tighter : List Level} {left e : Expr} {ts us : List Token}
    (hfolds : Derives (.folds level tighter left e) us)
    (ihleft : Complete budget (.chain tighter left) ts)
    (ihfolds : Complete budget (.folds level tighter left e) us) :
    Complete budget (.chain (level :: tighter) e) (ts ++ us) := by
  intro hlevels fuel n rest hfuel hn hrest
  rw [List.append_assoc] at hfuel
  rw [List.length_append] at hn
  have hleft : Consumes budget n (climb fuel (unary fuel) tighter) ts (us ++ rest) left :=
    ihleft (List.nodup_cons.mp hlevels).2 fuel n (us ++ rest) hfuel (by omega)
      (Closes.folds hfolds hlevels hrest)
  have hlt : (us ++ rest).length < fuel := by
    rw [List.length_append] at hfuel
    omega
  show Meets budget ⟨(ts ++ us) ++ rest, n⟩ _ _
  rw [List.append_assoc]
  exact Meets.bind_consumes hleft (ihfolds hlevels fuel fuel n rest hlt hlt (by omega) hrest)

/-- Where a level ends, no operator of it follows. -/
theorem complete_done {level : Level} {tighter : List Level} {e : Expr} :
    Complete budget (.folds level tighter e e) [] := by
  intro _ fuel k n rest _ hk _ hrest
  obtain ⟨k, rfl⟩ := Nat.exists_eq_add_one_of_ne_zero (show k ≠ 0 by omega)
  have hnone := hrest.operator?_eq_none level List.mem_cons_self
  show Meets budget ⟨rest, n⟩ (peek >>= _) _
  refine Meets.peek_bind ?_
  rw [current_kind, hnone]
  exact Meets.pure ⟨rfl, rfl⟩

/-- An operator of the level, its right operand, and the operators after that. -/
theorem complete_fold {level : Level} {tighter : List Level} {left right e : Expr} {op : BinaryOp}
    {t : Token} {ts us : List Token} (hop : Connects level t.kind op)
    (hfolds : Derives (.folds level tighter (.binary op left right t.pos) e) us)
    (ihright : Complete budget (.chain tighter right) ts)
    (ihfolds : Complete budget (.folds level tighter (.binary op left right t.pos) e) us) :
    Complete budget (.folds level tighter left e) (t :: (ts ++ us)) := by
  intro hlevels fuel k n rest hfuel hk hn hrest
  obtain ⟨k, rfl⟩ := Nat.exists_eq_add_one_of_ne_zero (show k ≠ 0 by omega)
  simp only [List.cons_append, List.append_assoc, List.length_cons, List.length_append]
    at hfuel hk hn
  have hright : Consumes budget (n + 1) (climb fuel (unary fuel) tighter) ts (us ++ rest) right :=
    ihright (List.nodup_cons.mp hlevels).2 fuel (n + 1) (us ++ rest)
      (by simp only [List.length_append]; omega) (by omega) (Closes.folds hfolds hlevels hrest)
  have htail := ihfolds hlevels fuel k (n + 1) rest (by simp only [List.length_append]; omega)
    (by simp only [List.length_append]; omega) (by omega) hrest
  show Meets budget ⟨t :: ((ts ++ us) ++ rest), n⟩ (peek >>= _) _
  refine Meets.peek_bind ?_
  rw [current_kind, next_cons, operator?_eq_some_iff.mpr hop, List.append_assoc]
  refine Meets.discard_bind (Meets.advance_bind hop.ne_endOfInput ?_)
  rw [← List.append_assoc]
  refine Meets.nested_consumes (by omega) ?_
  show Meets budget ⟨(ts ++ us) ++ rest, n + 1⟩ _ _
  rw [List.append_assoc]
  exact Meets.bind_consumes hright htail

/-- A whole expression, one level of nesting deeper. -/
theorem Complete.expression {e : Expr} {ts : List Token} (h : Complete budget (.expression e) ts)
    (fuel n : Nat) (rest : List Token) (hfuel : (ts ++ rest).length < fuel)
    (hn : n + 1 + ts.length ≤ budget) (hrest : Closes Level.all (next rest)) :
    Consumes budget n (expression fuel (unary fuel)) ts rest e :=
  Meets.nested_consumes (by omega) (h (by decide) fuel (n + 1) rest hfuel hn hrest)

/-! ## Unary expressions -/

/-- A sign and its operand; the operand takes what differentials it needs. -/
theorem complete_operator {op : UnaryOp} {e : Expr} {t : Token} {ts : List Token}
    (hop : Precedes t.kind op) (ih : Complete budget (.unary e) ts) :
    Complete budget (.unary (.unary op e t.pos)) (t :: ts) := by
  intro fuel n ds rest hfuel hn hds hrest
  obtain ⟨fuel, rfl⟩ := Nat.exists_eq_add_one_of_ne_zero (show fuel ≠ 0 by omega)
  simp only [List.cons_append, List.length_cons] at hfuel hn
  have hoperand := ih fuel (n + 1) ds rest (by omega) (by omega) hds hrest
  show Meets budget ⟨t :: (ts ++ (ds ++ rest)), n⟩ (peek >>= _) _
  refine Meets.peek_bind ?_
  rw [current_kind, next_cons, unaryOp?_eq_some_iff.mpr hop]
  refine Meets.discard_bind (Meets.advance_bind hop.ne_endOfInput ?_)
  have hnested : Meets budget ⟨ts ++ (ds ++ rest), n⟩ (nested .unaryOperators (unary fuel))
      fun a c => a = e ∧ ∃ ds', ds' <:+ ds ∧ c = ⟨ds' ++ rest, n⟩ := by
    refine Meets.nested (show n ≤ budget by omega) (hoperand.mono fun a c ha => ?_)
    obtain ⟨rfl, ds', hsuffix, rfl⟩ := ha
    exact ⟨rfl, ds', hsuffix, rfl⟩
  refine hnested.bind fun a c ha => Meets.pure ?_
  exact ⟨by rw [ha.1]; rfl, ha.2⟩

/-- A token that starts a primary expression is no unary operator. -/
theorem unaryOp?_of_primary {e : Expr} {ts : List Token} (h : Derives (.primary e) ts)
    (rest : List Token) : (next (ts ++ rest)).unaryOp? = none := by
  cases h with
  | number ht _ | string ht | true ht | false ht | name ht | emptyCall ht _ _ | call ht _ _ _ _
  | group ht _ _ =>
      rw [List.cons_append, next_cons, ht]
      rfl
  | aggregate hsymbol =>
      rw [List.cons_append, next_cons]
      generalize Token.kind _ = kind at hsymbol
      cases hsymbol <;> rfl

/-- A primary expression without a sign. -/
theorem complete_plain {e : Expr} {ts : List Token} (h : Derives (.primary e) ts)
    (ih : Complete budget (.primary e) ts) : Complete budget (.unary e) ts := by
  intro fuel n ds rest hfuel hn hds hrest
  obtain ⟨fuel, rfl⟩ := Nat.exists_eq_add_one_of_ne_zero (show fuel ≠ 0 by omega)
  refine Meets.peek_bind ?_
  rw [current_kind, unaryOp?_of_primary h]
  exact ih fuel n ds rest (by omega) hn hds hrest

/-! ## Primary expressions -/

/- One lemma for each way to derive a primary expression.  Only the aggregate needs more than
its tokens in order: the parser of the body is offered the differential as well, and what it
leaves is a suffix of the identifiers that follow (`suffix_of_differential`). -/

/-- A token that is an expression by itself. -/
theorem meets_leaf {n : Nat} {t : Token} {ds rest : List Token} {e : Expr}
    (ht : t.kind ≠ .endOfInput) :
    Meets budget ⟨t :: (ds ++ rest), n⟩ (discard advance >>= fun _ => pure e) fun a c =>
      a = e ∧ ∃ ds', ds' <:+ ds ∧ c = ⟨ds' ++ rest, n⟩ :=
  Meets.discard_bind (Meets.advance_bind ht (Meets.pure ⟨rfl, ds, List.suffix_refl ds, rfl⟩))

/-- A number token whose text is a number. -/
theorem complete_number {t : Token} {x : Float} (ht : t.kind = .number)
    (hx : Number.read? t.lexeme = some x) : Complete budget (.primary (.number x)) [t] := by
  intro fuel n ds rest _ _ _ _
  refine Meets.peek_bind ?_
  rw [current_kind, List.cons_append, next_cons, ht]
  refine Meets.discard_bind (Meets.advance_bind (by simp [ht]) ?_)
  simp only [Cursor.current, List.headD_cons, hx]
  exact Meets.pure ⟨rfl, ds, List.suffix_refl ds, rfl⟩

theorem complete_string {t : Token} {s : String} (ht : t.kind = .string s) :
    Complete budget (.primary (.string s)) [t] := by
  intro fuel n ds rest _ _ _ _
  refine Meets.peek_bind ?_
  rw [current_kind, List.cons_append, next_cons, ht]
  exact meets_leaf (by simp [ht])

theorem complete_true {t : Token} (ht : t.kind = .keyword .trueKw) :
    Complete budget (.primary (.boolean true)) [t] := by
  intro fuel n ds rest _ _ _ _
  refine Meets.peek_bind ?_
  rw [current_kind, List.cons_append, next_cons, ht]
  exact meets_leaf (by simp [ht])

theorem complete_false {t : Token} (ht : t.kind = .keyword .falseKw) :
    Complete budget (.primary (.boolean false)) [t] := by
  intro fuel n ds rest _ _ _ _
  refine Meets.peek_bind ?_
  rw [current_kind, List.cons_append, next_cons, ht]
  exact meets_leaf (by simp [ht])

/-- Among identifiers and what closes an expression there is no parenthesis. -/
theorem next_ne_leftParen {ds rest : List Token} (hds : ∀ d ∈ ds, d.kind = .identifier)
    (hrest : Closes [] (next rest)) : next (ds ++ rest) ≠ .leftParen := by
  cases ds with
  | nil => exact hrest.ne_leftParen
  | cons d ds =>
      rw [List.cons_append, next_cons, hds d List.mem_cons_self]
      simp

theorem complete_name {t : Token} (ht : t.kind = .identifier) :
    Complete budget (.primary (.variable t.lexeme t.pos)) [t] := by
  intro fuel n ds rest _ _ hds hrest
  have hne := next_ne_leftParen hds hrest
  refine Meets.peek_bind ?_
  rw [current_kind, List.cons_append, next_cons, ht]
  refine Meets.discard_bind (Meets.advance_bind (by simp [ht]) ?_)
  refine Meets.refuse_bind (Cursor.sees_of_ne hne) ?_
  exact Meets.pure ⟨rfl, ds, List.suffix_refl ds, rfl⟩

/-- The parser of a call once its opening parenthesis is taken. -/
theorem meets_call {fuel n : Nat} {t l : Token} {us : List Token} {Q : Expr → Cursor → Prop}
    (ht : t.kind = .identifier) (hl : l.kind = .leftParen)
    (h : Meets budget ⟨us, n⟩ (arguments (expression fuel (unary fuel))) fun args c =>
      Q (.call t.lexeme args t.pos) c) :
    Meets budget ⟨t :: l :: us, n⟩ (primary (expression fuel (unary fuel)) (unary fuel)) Q := by
  refine Meets.peek_bind ?_
  rw [current_kind, next_cons, ht]
  refine Meets.discard_bind (Meets.advance_bind (by simp [ht]) ?_)
  refine Meets.accept_bind hl (by simp) ?_
  exact h.bind fun args c hargs => Meets.pure hargs

/-- A call without arguments. -/
theorem complete_emptyCall {t l r : Token} (ht : t.kind = .identifier) (hl : l.kind = .leftParen)
    (hr : r.kind = .rightParen) :
    Complete budget (.primary (.call t.lexeme [] t.pos)) [t, l, r] := by
  intro fuel n ds rest _ _ _ _
  refine meets_call ht hl (Meets.sees_bind (Meets.ite_pos (Cursor.sees_cons hr (by simp)) ?_))
  refine Meets.discard_bind (Meets.expect_bind hr (by simp) ?_)
  exact Meets.pure ⟨rfl, ds, List.suffix_refl ds, rfl⟩

/-- A call with arguments, no more of them than a list may have. -/
theorem complete_call {t l r : Token} {args : List Expr} {ts : List Token}
    (ht : t.kind = .identifier) (hl : l.kind = .leftParen) (hargs : Derives (.arguments args) ts)
    (hcount : args.length ≤ listLimit) (hr : r.kind = .rightParen)
    (ih : Complete budget (.arguments args) ts) :
    Complete budget (.primary (.call t.lexeme args t.pos)) (t :: l :: (ts ++ [r])) := by
  intro fuel n ds rest hfuel hn _ _
  simp only [List.cons_append, List.append_assoc, List.nil_append, List.length_cons,
    List.length_append] at hfuel hn ⊢
  have hopens : opens (next (ts ++ r :: (ds ++ rest))) = true :=
    (starts_of_derives hargs).opens_next _
  have hread := ih fuel listLimit n (r :: (ds ++ rest))
    (by simp only [List.length_append, List.length_cons]; omega) hcount
    (by simp only [List.length_nil] at hn; omega) hr
  have hsees : (⟨ts ++ r :: (ds ++ rest), n⟩ : Cursor).sees .rightParen = false :=
    Cursor.sees_of_ne (ne_rightParen_of_opens hopens)
  refine meets_call ht hl (Meets.sees_bind (Meets.ite_neg (Bool.eq_false_iff.mp hsees) ?_))
  refine Meets.bind_consumes hread (Meets.discard_bind (Meets.expect_bind hr (by simp) ?_))
  exact Meets.pure ⟨rfl, ds, List.suffix_refl ds, rfl⟩

/-- An expression in parentheses. -/
theorem complete_group {l r : Token} {e : Expr} {ts : List Token} (hl : l.kind = .leftParen)
    (hr : r.kind = .rightParen) (ih : Complete budget (.expression e) ts) :
    Complete budget (.primary e) (l :: (ts ++ [r])) := by
  intro fuel n ds rest hfuel hn _ _
  simp only [List.cons_append, List.append_assoc, List.nil_append, List.length_cons,
    List.length_append, List.length_nil] at hfuel hn ⊢
  have hread := ih.expression fuel n (r :: (ds ++ rest))
    (by simp only [List.length_append, List.length_cons]; omega) (by omega)
    (closes_of_next hr rfl)
  refine Meets.peek_bind ?_
  rw [current_kind, next_cons, hl]
  refine Meets.discard_bind (Meets.advance_bind (by simp [hl]) ?_)
  refine Meets.bind_consumes hread (Meets.discard_bind (Meets.expect_bind hr (by simp) ?_))
  exact Meets.pure ⟨rfl, ds, List.suffix_refl ds, rfl⟩

/-- A differential is taken off the identifiers that follow, if it is the first
of them. -/
theorem meets_differential {n : Nat} {var : String} {ds rest : List Token}
    (hds : ∀ d ∈ ds, d.kind = .identifier) (hrest : Closes [] (next rest)) :
    Meets budget ⟨ds ++ rest, n⟩ (differential var) fun _ c =>
      ∃ ds', ds' <:+ ds ∧ c = ⟨ds' ++ rest, n⟩ ∧
        ∀ d ∈ ds'.head?, ds' = ds → d.lexeme ≠ "d" ++ var := by
  cases ds with
  | nil =>
      have hsees : (⟨rest, n⟩ : Cursor).sees .identifier = false :=
        Cursor.sees_of_ne hrest.ne_identifier
      refine Meets.sees_bind (Meets.ite_neg (Bool.eq_false_iff.mp hsees) (Meets.pure ?_))
      exact ⟨[], List.suffix_refl [], rfl, (by simp)⟩
  | cons d ds =>
      have hd : d.kind = .identifier := hds d List.mem_cons_self
      refine Meets.sees_bind (Meets.ite_pos (Cursor.sees_cons hd (by simp)) (Meets.peek_bind ?_))
      by_cases hlexeme : d.lexeme = "d" ++ var
      · refine Meets.ite_pos hlexeme ?_
        rw [Stateful.discard_eq]
        refine Meets.advance_bind (by simp [hd]) (Meets.pure ?_)
        refine ⟨ds, List.suffix_cons d ds, rfl, fun _ _ hself => ?_⟩
        exact absurd hself.symm (List.cons_ne_self d ds)
      · refine Meets.ite_neg hlexeme (Meets.pure ⟨d :: ds, List.suffix_refl _, rfl, ?_⟩)
        intro d' hd' _
        rw [List.head?_cons, Option.mem_some_iff] at hd'
        rw [← hd']
        exact hlexeme

/-- Once an integral has looked for its differential, no more than the
identifiers after its own differential are left. -/
theorem suffix_of_differential {kind : Aggregate} {var : String} {dd ds ds' ds'' : List Token}
    (hd : Differential kind var dd) (hds' : ds' <:+ dd ++ ds) (hds'' : ds'' <:+ ds')
    (hleft : ∀ d ∈ ds''.head?, ds'' = ds' → d.lexeme ≠ "d" ++ var) : ds'' <:+ ds := by
  cases hd with
  | absent => exact hds''.trans hds'
  | present t _ _ hlexeme =>
      obtain rfl | hshort := List.suffix_cons_iff.mp hds'
      · obtain rfl | hshort := List.suffix_cons_iff.mp hds''
        · exact absurd hlexeme (hleft t rfl rfl)
        · exact hshort
      · exact hds''.trans hshort

/-- A differential is made of identifiers. -/
theorem identifier_of_differential {kind : Aggregate} {var : String} {dd : List Token}
    (hd : Differential kind var dd) : ∀ d ∈ dd, d.kind = .identifier := by
  cases hd with
  | absent => simp
  | present t _ ht _ =>
      intro d hd
      rw [List.mem_singleton.mp hd]
      exact ht

/-- The end of an aggregate: its body and what may be its differential. -/
theorem meets_aggregate_end {kind : Aggregate} {fuel n : Nat} {var : String} {body : Expr}
    {bs dd ds rest : List Token} {f : Expr → Expr} (hd : Differential kind var dd)
    (ih : Complete budget (.unary body) bs) (hfuel : (bs ++ ((dd ++ ds) ++ rest)).length < fuel)
    (hn : n + bs.length ≤ budget) (hds : ∀ d ∈ ds, d.kind = .identifier)
    (hrest : Closes [] (next rest)) :
    Meets budget ⟨bs ++ ((dd ++ ds) ++ rest), n⟩
      (unary fuel >>= fun body =>
        if kind = .integral then differential var >>= fun _ => pure (f body) else pure (f body))
      fun a c => a = f body ∧ ∃ ds', ds' <:+ ds ∧ c = ⟨ds' ++ rest, n⟩ := by
  have hall : ∀ d ∈ dd ++ ds, d.kind = .identifier := by
    intro d hmem
    obtain hmem | hmem := List.mem_append.mp hmem
    · exact identifier_of_differential hd d hmem
    · exact hds d hmem
  refine (ih fuel n (dd ++ ds) rest hfuel hn hall hrest).bind fun a c ha => ?_
  obtain ⟨rfl, ds', hds', rfl⟩ := ha
  by_cases hkind : kind = .integral
  · have hall' : ∀ d ∈ ds', d.kind = .identifier := fun d hmem => hall d (hds'.subset hmem)
    refine Meets.ite_pos hkind ((meets_differential hall' hrest).bind fun _ c hc => ?_)
    obtain ⟨ds'', hds'', rfl, hleft⟩ := hc
    exact Meets.pure ⟨rfl, ds'', suffix_of_differential hd hds' hds'' hleft, rfl⟩
  · have hdd : dd = [] := by
      cases hd with
      | absent => rfl
      | present _ hintegral => exact absurd hintegral hkind
    rw [hdd] at hds'
    exact Meets.ite_neg hkind (Meets.pure ⟨rfl, ds', hds', rfl⟩)

/-- The parser of an aggregate once its bounds are taken: what is left of it is
the body and what may be the differential. -/
theorem meets_aggregate {symbol l var eq word r : Token} {kind : Aggregate} {start stop : Expr}
    {fuel n : Nat} {ss us vs : List Token} {Q : Expr → Cursor → Prop}
    (hsymbol : Denotes symbol.kind kind) (hl : l.kind = .leftParen)
    (hvar : var.kind = .identifier) (heq : eq.kind = .operator .assign)
    (hto : word.kind = .keyword .toKw) (hr : r.kind = .rightParen)
    (hstart : Consumes budget n (expression fuel (unary fuel)) ss (word :: (us ++ r :: vs)) start)
    (hstop : Consumes budget n (expression fuel (unary fuel)) us (r :: vs) stop)
    (h : Meets budget ⟨vs, n⟩
      (unary fuel >>= fun body =>
        if kind = .integral then differential var.lexeme >>= fun _ =>
          pure (.aggregate kind var.lexeme start stop body symbol.pos)
        else pure (.aggregate kind var.lexeme start stop body symbol.pos)) Q) :
    Meets budget ⟨symbol :: l :: var :: eq :: (ss ++ word :: (us ++ r :: vs)), n⟩
      (primary (expression fuel (unary fuel)) (unary fuel)) Q := by
  obtain ⟨o, ho⟩ : ∃ o, symbol.kind = .operator o := by
    generalize symbol.kind = k at hsymbol
    cases hsymbol <;> exact ⟨_, rfl⟩
  have hkind : Aggregate.ofOperator? o = some kind :=
    aggregate_ofOperator?_eq_some_iff.mpr (ho ▸ hsymbol)
  refine Meets.peek_bind ?_
  rw [current_kind, next_cons, ho]
  simp only [hkind]
  refine Meets.advance_bind hsymbol.ne_endOfInput ?_
  refine Meets.discard_bind (Meets.expect_bind hl (by simp) (Meets.expect_bind hvar (by simp) ?_))
  refine Meets.discard_bind (Meets.expect_bind heq (by simp) ?_)
  refine Meets.bind_consumes hstart (Meets.discard_bind (Meets.expect_bind hto (by simp) ?_))
  exact Meets.bind_consumes hstop (Meets.discard_bind (Meets.expect_bind hr (by simp) h))

/-- An aggregate. Its body takes some of the identifiers that follow, perhaps the
differential itself; then the aggregate takes none. -/
theorem complete_aggregate {symbol l var eq word r : Token} {kind : Aggregate}
    {start stop body : Expr} {ss us bs dd : List Token} (hsymbol : Denotes symbol.kind kind)
    (hl : l.kind = .leftParen) (hvar : var.kind = .identifier)
    (heq : eq.kind = .operator .assign) (hto : word.kind = .keyword .toKw)
    (hr : r.kind = .rightParen) (hd : Differential kind var.lexeme dd)
    (ihstart : Complete budget (.expression start) ss)
    (ihstop : Complete budget (.expression stop) us) (ihbody : Complete budget (.unary body) bs) :
    Complete budget (.primary (.aggregate kind var.lexeme start stop body symbol.pos))
      (symbol :: l :: var :: eq :: (ss ++ word :: (us ++ r :: (bs ++ dd)))) := by
  intro fuel n ds rest hfuel hn hds hrest
  simp only [List.cons_append, List.append_assoc, List.length_cons, List.length_append]
    at hfuel hn ⊢
  have hstart := ihstart.expression fuel n (word :: (us ++ r :: (bs ++ (dd ++ (ds ++ rest)))))
    (by simp only [List.length_append, List.length_cons]; omega) (by omega)
    (closes_of_next hto rfl)
  have hstop := ihstop.expression fuel n (r :: (bs ++ (dd ++ (ds ++ rest))))
    (by simp only [List.length_append, List.length_cons]; omega) (by omega)
    (closes_of_next hr rfl)
  refine meets_aggregate hsymbol hl hvar heq hto hr hstart hstop ?_
  rw [← List.append_assoc dd ds rest]
  exact meets_aggregate_end hd ihbody
    (by simp only [List.length_append]; omega) (by omega) hds hrest

/-! ## Arguments -/

/-- The last argument is followed by no comma. -/
theorem complete_lastArgument {e : Expr} {ts : List Token}
    (ih : Complete budget (.expression e) ts) : Complete budget (.arguments [e]) ts := by
  intro fuel k n rest hfuel hk hn hrest
  obtain ⟨k, rfl⟩ : ∃ j, k = j + 1 := ⟨k - 1, by simp only [List.length_singleton] at hk; omega⟩
  have hcloses : Closes Level.all (next rest) := closes_of_next hrest rfl
  have hcomma : (⟨rest, n⟩ : Cursor).sees .comma = false := sees_of_next hrest (by simp)
  refine Meets.bind_consumes (ih.expression fuel n rest hfuel hn hcloses) ?_
  exact Meets.refuse_bind hcomma (Meets.pure ⟨rfl, rfl⟩)

/-- An argument, a comma, and the arguments after it. -/
theorem complete_argument {e : Expr} {es : List Expr} {t : Token} {ts us : List Token}
    (ht : t.kind = .comma) (ih : Complete budget (.expression e) ts)
    (ihes : Complete budget (.arguments es) us) :
    Complete budget (.arguments (e :: es)) (ts ++ t :: us) := by
  intro fuel k n rest hfuel hk hn hrest
  simp only [List.length_cons] at hk
  obtain ⟨k, rfl⟩ := Nat.exists_eq_add_one_of_ne_zero (show k ≠ 0 by omega)
  simp only [List.append_assoc, List.cons_append, List.length_append, List.length_cons]
    at hfuel hn
  have hfirst := ih.expression fuel n (t :: (us ++ rest))
    (by simp only [List.length_append, List.length_cons]; omega) (by omega)
    (closes_of_next ht rfl)
  have hothers := ihes fuel k n rest (by simp only [List.length_append]; omega) (by omega)
    (by omega) hrest
  show Meets budget ⟨(ts ++ t :: us) ++ rest, n⟩ _ _
  rw [List.append_assoc, List.cons_append]
  refine Meets.bind_consumes hfirst (Meets.accept_bind ht (by simp) ?_)
  exact Meets.bind_consumes hothers (Meets.pure ⟨rfl, rfl⟩)

/-! ## Derivations -/

/-- Every derivation gives what it is to give. -/
theorem complete {phrase : Phrase} {ts : List Token} (h : Derives phrase ts) :
    Complete budget phrase ts := by
  induction h with
  | operand _ ih => exact complete_operand ih
  | level _ hfolds ihleft ihfolds => exact complete_level hfolds ihleft ihfolds
  | done => exact complete_done
  | fold hop _ hfolds ihright ihfolds => exact complete_fold hop hfolds ihright ihfolds
  | operator hop _ ih => exact complete_operator hop ih
  | plain h ih => exact complete_plain h ih
  | number ht hn => exact complete_number ht hn
  | string ht => exact complete_string ht
  | true ht => exact complete_true ht
  | false ht => exact complete_false ht
  | name ht => exact complete_name ht
  | emptyCall ht hl hr => exact complete_emptyCall ht hl hr
  | call ht hl hargs hcount hr ih => exact complete_call ht hl hargs hcount hr ih
  | group hl _ hr ih => exact complete_group hl hr ih
  | aggregate hsymbol hl hvar heq _ hto _ hr _ hd ihstart ihstop ihbody =>
      exact complete_aggregate hsymbol hl hvar heq hto hr hd ihstart ihstop ihbody
  | lastArgument _ ih => exact complete_lastArgument ih
  | argument _ hc _ ih ihes => exact complete_argument hc ih ihes

end Parse

end Abacus
