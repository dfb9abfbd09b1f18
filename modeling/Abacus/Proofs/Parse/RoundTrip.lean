import Abacus.Proofs.Parse.Complete
import Abacus.Proofs.Parse.Rendering

/-!
# Abacus.Proofs.Parse.RoundTrip

Reading undoes writing.  Tokens that a program is written as are read as the same
program up to places, or the nesting limit is met, and the latter only if there
are many tokens.

Expressions come from `complete`, as a rendering is the yield of a derivation.
For statements there is one lemma for each way of writing them, and `recovers`
puts these together along the rendering.
-/

namespace Abacus

namespace Parse

open Grammar

variable {α β : Type} {budget : Nat}

/-! ## Values up to places -/

/-- The parser reads exactly the tokens `ts`, as a value that `view` does not
tell from `a`. -/
def Recalls (view : α → β) (budget n : Nat) (p : Parser α) (ts rest : List Token) (a : α) : Prop :=
  Meets budget ⟨ts ++ rest, n⟩ p fun b c => view b = view a ∧ c = ⟨rest, n⟩

/-- A whole expression is read from each of its renderings. -/
theorem recalls_expression {e : Expr} {ts : List Token} (h : Renders (.expression 0 e) ts)
    {fuel n : Nat} {rest : List Token} (hfuel : (ts ++ rest).length < fuel)
    (hn : n + 1 + ts.length ≤ budget) (hrest : Closes Level.all (next rest)) :
    Recalls Expr.unplaced budget n (expression fuel (unary fuel)) ts rest e := by
  obtain ⟨e', he, hderives⟩ := derives_of_renders h
  have hread := (complete hderives).expression fuel n rest hfuel hn hrest
  refine hread.mono fun b c hb => ?_
  rw [hb.1]
  exact ⟨he, hb.2⟩

/-- A value that is known up to a view, and what is done with it. -/
theorem Recalls.bind {γ : Type} {view : α → β} {n : Nat} {p : Parser α} {ts rest : List Token}
    {a : α} {f : α → Parser γ} {Q : γ → Cursor → Prop} (h : Recalls view budget n p ts rest a)
    (hf : ∀ b, view b = view a → Meets budget ⟨rest, n⟩ (f b) Q) :
    Meets budget ⟨ts ++ rest, n⟩ (p >>= f) Q := by
  refine Meets.bind h fun b c hb => ?_
  rw [hb.2]
  exact hf b hb.1

/-- Counting a level of nesting within the budget. -/
theorem Recalls.nested {view : α → β} {what : Construct} {n : Nat} {p : Parser α}
    {ts rest : List Token} {a : α} (hn : n ≤ budget) (h : Recalls view budget (n + 1) p ts rest a) :
    Recalls view budget n (Parse.nested what p) ts rest a := by
  refine Meets.nested hn (Meets.mono h fun b c hb => ?_)
  rw [hb.2]
  exact ⟨hb.1, rfl⟩

/-! ## How statements start -/

/-- The kinds of token that a statement may start with. -/
def begins : Kind → Bool
  | .keyword .functionKw | .keyword .ifKw | .keyword .whileKw | .keyword .forKw
  | .keyword .returnKw => true
  | kind => opens kind

/-- What starts an expression starts a statement. -/
theorem begins_of_opens {kind : Kind} (h : opens kind = true) : begins kind = true := by
  unfold begins
  split <;> first | rfl | exact h

/-- No statement starts with a semicolon. -/
theorem ne_semicolon_of_begins {kind : Kind} (h : begins kind = true) : kind ≠ .semicolon := by
  rintro rfl
  contradiction

/-- A rendered expression starts as a derived one does. -/
theorem opens_of_renders {e : Expr} {ts : List Token} (h : Renders (.expression 0 e) ts) :
    Opens ts := by
  obtain ⟨e', _, hderives⟩ := derives_of_renders h
  exact starts_of_derives hderives

/-- How the rendering of a statement starts. -/
def Begins : Sentence → List Token → Prop
  | .statement _, ts | .bare _, ts | .conditional _, ts =>
    ∀ rest, begins (next (ts ++ rest)) = true
  | _, _ => True

/-- What is written starts as its sentence does: with a keyword, an expression or a name. -/
theorem begins_of_writes {sentence : Sentence} {ts : List Token} (h : Writes sentence ts) :
    Begins sentence ts := by
  induction h with
  | ended _ _ ih =>
      intro rest
      rw [List.append_assoc]
      exact ih _
  | choice _ ih => exact ih
  | thunk ht | function ht | whileLoop ht | forLoop ht | giveNothing ht | giveBack ht | ifThen ht
  | ifElse ht | elseIf ht =>
      intro rest
      rw [List.cons_append, next_cons, ht]
      rfl
  | assign hname =>
      intro rest
      rw [List.cons_append, next_cons, hname]
      rfl
  | expression h => exact fun rest => begins_of_opens ((opens_of_renders h).opens_next rest)
  | block | nothing | next => trivial

/-! ## What renderings give -/

/-- What the rendering of a sentence is to give, for every fuel, nesting and rest
that allow it. -/
def Recovers (budget : Nat) : Sentence → List Token → Prop
  | .statement s, ts => ∀ fuel k n rest, (ts ++ rest).length < fuel → (ts ++ rest).length < k →
      n + 1 + ts.length ≤ budget →
      Recalls Stmt.unplaced budget n (statement fuel (expression fuel (unary fuel)) k) ts rest s
  | .bare s, ts => ∀ fuel k n rest, (ts ++ rest).length < fuel → (ts ++ rest).length ≤ k →
      n + 1 + ts.length ≤ budget → next rest = .semicolon →
      Recalls Stmt.unplaced budget n
        (statementBody fuel (expression fuel (unary fuel))
          (block fuel (statement fuel (expression fuel (unary fuel)) k))) ts rest s
  | .conditional s, ts => ∃ i us, ts = i :: us ∧ i.kind = .keyword .ifKw ∧
      ∀ fuel k m n rest pos, (us ++ rest).length < fuel → (us ++ rest).length ≤ k →
      (us ++ rest).length < m → n + 1 + us.length ≤ budget → next rest = .semicolon →
      Recalls Stmt.unplaced budget n
        (conditional (expression fuel (unary fuel))
          (block fuel (statement fuel (expression fuel (unary fuel)) k)) m pos) us rest s
  | .block body, ts => ∀ fuel k n rest, (ts ++ rest).length < fuel → (ts ++ rest).length ≤ k →
      n + 1 + ts.length ≤ budget →
      Recalls (List.map Stmt.unplaced) budget n
        (block fuel (statement fuel (expression fuel (unary fuel)) k)) ts rest body
  | .sequence stmts, ts => ∀ (stop : Cursor → Bool) fuel k m n rest, (ts ++ rest).length < fuel →
      (ts ++ rest).length < k → (ts ++ rest).length < m → n + 1 + ts.length ≤ budget →
      next rest ≠ .semicolon → stop ⟨rest, n⟩ = true →
      (∀ c, begins c.current.kind = true → stop c = false) →
      Recalls (List.map Stmt.unplaced) budget n
        (statementsUntil stop fuel (statement fuel (expression fuel (unary fuel)) k) m) ts rest
        stmts

/-! ## Sequences and blocks -/

/-- No statements, and no tokens for them. -/
theorem recovers_nothing : Recovers budget (.sequence []) [] := by
  intro stop fuel k m n rest hfuel _ hm _ hrest hstop _
  obtain ⟨m, rfl⟩ := Nat.exists_eq_add_one_of_ne_zero (show m ≠ 0 by omega)
  refine Meets.skip_bind (by omega) hrest (Meets.get_bind ?_)
  exact Meets.ite_pos hstop (Meets.pure ⟨rfl, rfl⟩)

/-- A statement and those after it. -/
theorem recovers_next {s : Stmt} {stmts : List Stmt} {ts us : List Token}
    (hs : Writes (.statement s) ts) (ihs : Recovers budget (.statement s) ts)
    (ihrest : Recovers budget (.sequence stmts) us) :
    Recovers budget (.sequence (s :: stmts)) (ts ++ us) := by
  intro stop fuel k m n rest hfuel hk hm hn hrest hstop hgo
  obtain ⟨m, rfl⟩ := Nat.exists_eq_add_one_of_ne_zero (show m ≠ 0 by omega)
  have hbegins : begins (next (ts ++ (us ++ rest))) = true := begins_of_writes hs _
  have hpos : 0 < ts.length := by
    cases hs
    simp
  have hsemicolon := ne_semicolon_of_begins hbegins
  have hread := ihs fuel k n (us ++ rest) (by grind) (by grind) (by grind)
  have hothers := ihrest stop fuel k m n rest (by grind) (by grind) (by grind) (by grind) hrest
    hstop hgo
  have hstay : stop ⟨ts ++ (us ++ rest), n⟩ = false := hgo _ hbegins
  show Meets budget ⟨(ts ++ us) ++ rest, n⟩ _ _
  rw [List.append_assoc]
  refine Meets.skip_bind (by omega) hsemicolon (Meets.get_bind ?_)
  refine Meets.ite_neg (Bool.eq_false_iff.mp hstay) ?_
  refine hread.bind fun s' hs' => hothers.bind fun rest' hrest' => Meets.pure ⟨?_, rfl⟩
  rw [List.map_cons, List.map_cons, hs', hrest']

/-- A closing brace or the end of input is not the start of a statement. -/
theorem not_stop_of_begins (c : Cursor) (h : begins c.current.kind = true) :
    (c.sees .rightBrace || c.atEnd) = false := by
  unfold Cursor.sees Cursor.atEnd
  cases hkind : c.current.kind <;> simp_all [begins, opens]

/-- What starts a statement is not the end of input. -/
theorem not_atEnd_of_begins (c : Cursor) (h : begins c.current.kind = true) : c.atEnd = false :=
  (Bool.or_eq_false_iff.mp (not_stop_of_begins c h)).2

/-- A block: its statements are read one level of nesting deeper, up to the closing brace. -/
theorem recovers_block {l r : Token} {body : List Stmt} {ts : List Token}
    (hl : l.kind = .leftBrace) (hr : r.kind = .rightBrace)
    (ih : Recovers budget (.sequence body) ts) :
    Recovers budget (.block body) (l :: (ts ++ [r])) := by
  intro fuel k n rest hfuel hk hn
  have hstop : (⟨r :: rest, n + 1⟩ : Cursor).sees .rightBrace = true :=
    Cursor.sees_cons hr (by simp)
  have hread := ih (fun c => c.sees .rightBrace || c.atEnd) fuel k fuel (n + 1) (r :: rest)
    (by grind) (by grind) (by grind) (by grind) (by simp [next_cons, hr])
    (by rw [hstop, Bool.true_or]) not_stop_of_begins
  show Meets budget ⟨l :: ((ts ++ [r]) ++ rest), n⟩ _ _
  rw [List.append_assoc]
  refine Meets.discard_bind (Meets.expect_bind hl (by simp) ?_)
  refine Meets.nested (show n ≤ budget by grind) ?_
  rw [statements_eq]
  refine hread.bind fun b hb => Meets.discard_bind (Meets.expect_bind hr (by simp) ?_)
  exact Meets.pure ⟨hb, rfl⟩

/-- A block starts with its brace. -/
theorem next_block {body : List Stmt} {bs : List Token} (h : Writes (.block body) bs)
    (rest : List Token) : next (bs ++ rest) = .leftBrace := by
  cases h with
  | block hl => rw [List.cons_append, next_cons, hl]

/-- Parameters, if there are any, start with a name. -/
theorem next_parameters {params : List String} {ps : List Token} (h : Parameters params ps)
    (rest : List Token) : next (ps ++ rest) = .identifier := by
  cases h with
  | last ht | next ht => rw [List.cons_append, next_cons, ht]

/-! ## Conditionals -/

/-- An if without an else; the token after the block is none. -/
theorem recovers_ifThen {i : Token} {condition : Expr} {body : List Stmt} {pos : Position}
    {cs bs : List Token} (hi : i.kind = .keyword .ifKw)
    (hcondition : Renders (.expression 0 condition) cs) (hbody : Writes (.block body) bs)
    (ihbody : Recovers budget (.block body) bs) :
    Recovers budget (.conditional (.ifThen condition body pos)) (i :: (cs ++ bs)) := by
  refine ⟨i, cs ++ bs, rfl, hi, fun fuel k m n rest pos' hfuel hk hm hn hrest => ?_⟩
  obtain ⟨m, rfl⟩ := Nat.exists_eq_add_one_of_ne_zero (show m ≠ 0 by omega)
  have hfirst : Recalls Expr.unplaced budget n (expression fuel (unary fuel)) cs (bs ++ rest)
      condition :=
    recalls_expression hcondition (by grind) (by grind) (closes_of_next (next_block hbody rest) rfl)
  have hthen := ihbody fuel k n rest (by grind) (by grind) (by grind)
  have helse : (⟨rest, n⟩ : Cursor).sees (.keyword .elseKw) = false := sees_of_next hrest (by simp)
  show Meets budget ⟨(cs ++ bs) ++ rest, n⟩ _ _
  rw [List.append_assoc]
  refine hfirst.bind fun e he => hthen.bind fun b hb => Meets.refuse_bind helse ?_
  refine Meets.pure ⟨?_, rfl⟩
  rw [Stmt.unplaced_ifThen, Stmt.unplaced_ifThen, he, hb]

/-- An if with a block after its else. -/
theorem recovers_ifElse {i e : Token} {condition : Expr} {body other : List Stmt} {pos : Position}
    {cs bs os : List Token} (hi : i.kind = .keyword .ifKw)
    (hcondition : Renders (.expression 0 condition) cs) (hbody : Writes (.block body) bs)
    (he : e.kind = .keyword .elseKw) (hother : Writes (.block other) os)
    (ihbody : Recovers budget (.block body) bs) (ihother : Recovers budget (.block other) os) :
    Recovers budget (.conditional (.ifElse condition body other pos))
      (i :: (cs ++ (bs ++ e :: os))) := by
  refine ⟨i, cs ++ (bs ++ e :: os), rfl, hi, fun fuel k m n rest pos' hfuel hk hm hn _ => ?_⟩
  obtain ⟨m, rfl⟩ := Nat.exists_eq_add_one_of_ne_zero (show m ≠ 0 by omega)
  have hfirst : Recalls Expr.unplaced budget n (expression fuel (unary fuel)) cs
      (bs ++ e :: (os ++ rest)) condition :=
    recalls_expression hcondition (by grind) (by grind) (closes_of_next (next_block hbody _) rfl)
  have hthen := ihbody fuel k n (e :: (os ++ rest)) (by grind) (by grind) (by grind)
  have helse := ihother fuel k n rest (by grind) (by grind) (by grind)
  have hblock : (⟨os ++ rest, n⟩ : Cursor).sees (.keyword .ifKw) = false :=
    sees_of_next (next_block hother rest) (by simp)
  show Meets budget ⟨(cs ++ (bs ++ e :: os)) ++ rest, n⟩ _ _
  rw [List.append_assoc, List.append_assoc, List.cons_append]
  refine hfirst.bind fun e' he' => hthen.bind fun b hb => Meets.accept_bind he (by simp) ?_
  refine Meets.peek_bind (Meets.refuse_bind hblock (helse.bind fun o ho => Meets.pure ⟨?_, rfl⟩))
  rw [Stmt.unplaced_ifElse, Stmt.unplaced_ifElse, he', hb, ho]

/-- An if with another one after its else, one level of nesting deeper. -/
theorem recovers_elseIf {i e : Token} {condition : Expr} {body : List Stmt} {chained : Stmt}
    {pos : Position} {cs bs os : List Token} (hi : i.kind = .keyword .ifKw)
    (hcondition : Renders (.expression 0 condition) cs) (hbody : Writes (.block body) bs)
    (he : e.kind = .keyword .elseKw) (ihbody : Recovers budget (.block body) bs)
    (ihother : Recovers budget (.conditional chained) os) :
    Recovers budget (.conditional (.ifElse condition body [chained] pos))
      (i :: (cs ++ (bs ++ e :: os))) := by
  obtain ⟨i', os, rfl, hi', hchained⟩ := ihother
  refine ⟨i, cs ++ (bs ++ e :: i' :: os), rfl, hi, ?_⟩
  intro fuel k m n rest pos' hfuel hk hm hn hrest
  obtain ⟨m, rfl⟩ := Nat.exists_eq_add_one_of_ne_zero (show m ≠ 0 by omega)
  have hfirst : Recalls Expr.unplaced budget n (expression fuel (unary fuel)) cs
      (bs ++ e :: i' :: (os ++ rest)) condition :=
    recalls_expression hcondition (by grind) (by grind) (closes_of_next (next_block hbody _) rfl)
  have hthen := ihbody fuel k n (e :: i' :: (os ++ rest)) (by grind) (by grind) (by grind)
  have helse := hchained fuel k m (n + 1) rest i'.pos (by grind) (by grind) (by grind)
    (by grind) hrest
  show Meets budget ⟨(cs ++ (bs ++ e :: i' :: os)) ++ rest, n⟩ _ _
  rw [List.append_assoc, List.append_assoc, List.cons_append, List.cons_append]
  refine hfirst.bind fun e' he' => hthen.bind fun b hb => Meets.accept_bind he (by simp) ?_
  refine Meets.peek_bind (Meets.accept_bind hi' (by simp) ?_)
  refine (helse.nested (by grind)).bind fun s hs => Meets.pure ⟨?_, rfl⟩
  rw [Stmt.unplaced_ifElse, Stmt.unplaced_ifElse, he', hb]
  rw [List.map_singleton, List.map_singleton, hs]

/-! ## Statements -/

/- One lemma for each way of writing a statement, in the order of the grammar.  Each runs the
rule on the tokens it is written as; what has to be checked is that no other rule takes the
first token, and that the parts are followed by tokens which end them. -/

/-- A statement takes the semicolon after it. -/
theorem recovers_ended {s : Stmt} {ts : List Token} {t : Token} (ht : t.kind = .semicolon)
    (ih : Recovers budget (.bare s) ts) : Recovers budget (.statement s) (ts ++ [t]) := by
  intro fuel k n rest hfuel hk hn
  obtain ⟨k, rfl⟩ := Nat.exists_eq_add_one_of_ne_zero (show k ≠ 0 by omega)
  have hread := ih fuel k n (t :: rest) (by grind) (by grind) (by grind) ht
  show Meets budget ⟨(ts ++ [t]) ++ rest, n⟩ _ _
  rw [List.append_assoc]
  refine hread.bind fun s' hs' => Meets.discard_bind (Meets.accept_bind ht (by simp) ?_)
  exact Meets.pure ⟨hs', rfl⟩

/-- The parameters of a function are read up to the parenthesis after them. -/
theorem meets_parameters {params : List String} {ps : List Token} (h : Parameters params ps)
    {k n : Nat} {rest : List Token} (hk : params.length ≤ k) (hrest : next rest = .rightParen) :
    Meets budget ⟨ps ++ rest, n⟩
      (separated .fewerParameters (expect .identifier .parameterName) k) fun ts c =>
        ts.map Token.lexeme = params ∧ c = ⟨rest, n⟩ := by
  induction h generalizing k with
  | @last t ht =>
      obtain ⟨k, rfl⟩ := Nat.exists_eq_add_one_of_ne_zero (show k ≠ 0 by grind)
      have hcomma : (⟨rest, n⟩ : Cursor).sees .comma = false := sees_of_next hrest (by simp)
      exact Meets.expect_bind ht (by simp) (Meets.refuse_bind hcomma (Meets.pure ⟨rfl, rfl⟩))
  | @next t c names ts ht hc _ ih =>
      obtain ⟨k, rfl⟩ := Nat.exists_eq_add_one_of_ne_zero (show k ≠ 0 by grind)
      have hothers := ih (k := k) (by grind)
      refine Meets.expect_bind ht (by simp) (Meets.accept_bind hc (by simp) ?_)
      refine hothers.bind fun ts' c' hts' => Meets.pure ?_
      exact ⟨by rw [List.map_cons, hts'.1], hts'.2⟩

/-- The parser of a function without parameters: what is left of it is the body. -/
theorem meets_thunk {f name l r : Token} {us : List Token} {fuel n : Nat} {expr : Parser Expr}
    {blocks : Parser (List Stmt)} {Q : Stmt → Cursor → Prop} (hf : f.kind = .keyword .functionKw)
    (hname : name.kind = .identifier) (hl : l.kind = .leftParen) (hr : r.kind = .rightParen)
    (h : Meets budget ⟨us, n⟩ blocks fun body c => Q (.function name.lexeme [] body f.pos) c) :
    Meets budget ⟨f :: name :: l :: r :: us, n⟩ (statementBody fuel expr blocks) Q := by
  refine Meets.peek_bind ?_
  rw [current_kind, next_cons, hf]
  refine Meets.discard_bind (Meets.advance_bind (by simp [hf]) ?_)
  refine Meets.expect_bind hname (by simp) (Meets.discard_bind (Meets.expect_bind hl (by simp) ?_))
  refine Meets.sees_bind (Meets.ite_pos (Cursor.sees_cons hr (by simp)) ?_)
  refine Meets.discard_bind (Meets.expect_bind hr (by simp) ?_)
  exact h.bind fun body c hbody => Meets.pure hbody

/-- A function without parameters. -/
theorem recovers_thunk {f name l r : Token} {body : List Stmt} {pos : Position} {bs : List Token}
    (hf : f.kind = .keyword .functionKw) (hname : name.kind = .identifier)
    (hl : l.kind = .leftParen) (hr : r.kind = .rightParen)
    (ihbody : Recovers budget (.block body) bs) :
    Recovers budget (.bare (.function name.lexeme [] body pos)) (f :: name :: l :: r :: bs) := by
  intro fuel k n rest hfuel hk hn _
  have hbody := ihbody fuel k n rest (by grind) (by grind) (by grind)
  refine meets_thunk hf hname hl hr (Meets.mono hbody fun b c hb => ⟨?_, hb.2⟩)
  rw [Stmt.unplaced_function, Stmt.unplaced_function, hb.1]

/-- A function with parameters, no more of them than a list may have. -/
theorem recovers_function {f name l r : Token} {params : List String} {body : List Stmt}
    {pos : Position} {ps bs : List Token} (hf : f.kind = .keyword .functionKw)
    (hname : name.kind = .identifier) (hl : l.kind = .leftParen) (hparams : Parameters params ps)
    (hcount : params.length ≤ listLimit) (hr : r.kind = .rightParen)
    (ihbody : Recovers budget (.block body) bs) :
    Recovers budget (.bare (.function name.lexeme params body pos))
      (f :: name :: l :: (ps ++ r :: bs)) := by
  intro fuel k n rest hfuel hk hn _
  have hread : Meets budget ⟨ps ++ r :: (bs ++ rest), n⟩ _ _ := meets_parameters hparams hcount hr
  have hbody := ihbody fuel k n rest (by grind) (by grind) (by grind)
  have hsome : (⟨ps ++ r :: (bs ++ rest), n⟩ : Cursor).sees .rightParen = false :=
    sees_of_next (next_parameters hparams _) (by simp)
  show Meets budget ⟨f :: name :: l :: ((ps ++ r :: bs) ++ rest), n⟩ _ _
  rw [List.append_assoc, List.cons_append]
  refine Meets.peek_bind ?_
  rw [current_kind, next_cons, hf]
  refine Meets.discard_bind (Meets.advance_bind (by simp [hf]) ?_)
  refine Meets.expect_bind hname (by simp) (Meets.discard_bind (Meets.expect_bind hl (by simp) ?_))
  refine Meets.sees_bind (Meets.ite_neg (Bool.eq_false_iff.mp hsome) ?_)
  refine hread.bind fun ts c hts => ?_
  rw [hts.2]
  refine Meets.discard_bind (Meets.expect_bind hr (by simp) ?_)
  refine hbody.bind fun b hb => Meets.pure ⟨?_, rfl⟩
  rw [Stmt.unplaced_function, Stmt.unplaced_function, hb, hts.1]

/-- A conditional as a statement. -/
theorem recovers_choice {s : Stmt} {ts : List Token} (ih : Recovers budget (.conditional s) ts) :
    Recovers budget (.bare s) ts := by
  obtain ⟨i, us, rfl, hi, hread⟩ := ih
  intro fuel k n rest hfuel hk hn hrest
  refine Meets.peek_bind ?_
  rw [current_kind, List.cons_append, next_cons, hi]
  refine Meets.discard_bind (Meets.advance_bind (by simp [hi]) ?_)
  exact hread fuel k fuel n rest i.pos (by grind) (by grind) (by grind) (by grind) hrest

/-- A while loop. -/
theorem recovers_whileLoop {w : Token} {condition : Expr} {body : List Stmt} {pos : Position}
    {cs bs : List Token} (hw : w.kind = .keyword .whileKw)
    (hcondition : Renders (.expression 0 condition) cs) (hbody : Writes (.block body) bs)
    (ihbody : Recovers budget (.block body) bs) :
    Recovers budget (.bare (.whileLoop condition body pos)) (w :: (cs ++ bs)) := by
  intro fuel k n rest hfuel hk hn _
  have hfirst : Recalls Expr.unplaced budget n (expression fuel (unary fuel)) cs (bs ++ rest)
      condition :=
    recalls_expression hcondition (by grind) (by grind) (closes_of_next (next_block hbody rest) rfl)
  have hloop := ihbody fuel k n rest (by grind) (by grind) (by grind)
  refine Meets.peek_bind ?_
  rw [current_kind, List.cons_append, next_cons, hw, List.append_assoc]
  refine Meets.discard_bind (Meets.advance_bind (by simp [hw]) ?_)
  refine hfirst.bind fun e he => hloop.bind fun b hb => Meets.pure ⟨?_, rfl⟩
  rw [Stmt.unplaced_whileLoop, Stmt.unplaced_whileLoop, he, hb]

/-- A for loop. -/
theorem recovers_forLoop {f var i : Token} {items : Expr} {body : List Stmt} {pos : Position}
    {is bs : List Token} (hf : f.kind = .keyword .forKw) (hvar : var.kind = .identifier)
    (hi : i.kind = .keyword .inKw) (hitems : Renders (.expression 0 items) is)
    (hbody : Writes (.block body) bs) (ihbody : Recovers budget (.block body) bs) :
    Recovers budget (.bare (.forLoop var.lexeme items body pos)) (f :: var :: i :: (is ++ bs)) := by
  intro fuel k n rest hfuel hk hn _
  have hfirst : Recalls Expr.unplaced budget n (expression fuel (unary fuel)) is (bs ++ rest)
      items :=
    recalls_expression hitems (by grind) (by grind) (closes_of_next (next_block hbody rest) rfl)
  have hloop := ihbody fuel k n rest (by grind) (by grind) (by grind)
  show Meets budget ⟨f :: var :: i :: ((is ++ bs) ++ rest), n⟩ _ _
  rw [List.append_assoc]
  refine Meets.peek_bind ?_
  rw [current_kind, next_cons, hf]
  refine Meets.discard_bind (Meets.advance_bind (by simp [hf]) ?_)
  refine Meets.expect_bind hvar (by simp) (Meets.discard_bind (Meets.expect_bind hi (by simp) ?_))
  refine hfirst.bind fun e he => hloop.bind fun b hb => Meets.pure ⟨?_, rfl⟩
  rw [Stmt.unplaced_forLoop, Stmt.unplaced_forLoop, he, hb]

/-- A return whose value is left out: the semicolon is seen first. -/
theorem recovers_giveNothing {r : Token} {pos : Position} (hr : r.kind = .keyword .returnKw) :
    Recovers budget (.bare (.giveBack none pos)) [r] := by
  intro fuel k n rest _ _ _ hrest
  have hnone : ((⟨rest, n⟩ : Cursor).sees .rightBrace || (⟨rest, n⟩ : Cursor).sees .semicolon ||
      (⟨rest, n⟩ : Cursor).atEnd) = true := by
    simp [Cursor.sees, Cursor.atEnd, current_kind, hrest]
  refine Meets.peek_bind ?_
  rw [current_kind, List.cons_append, next_cons, hr]
  refine Meets.discard_bind (Meets.advance_bind (by simp [hr]) ?_)
  refine Meets.sees_bind (Meets.sees_bind (Meets.atEnd_bind (Meets.ite_pos hnone ?_)))
  exact Meets.pure ⟨rfl, rfl⟩

/-- What starts an expression does not end a `return`. -/
theorem not_end_of_opens {c : Cursor} (h : opens c.current.kind = true) :
    (c.sees .rightBrace || c.sees .semicolon || c.atEnd) = false := by
  unfold Cursor.sees Cursor.atEnd
  cases hkind : c.current.kind <;> simp_all [opens]

/-- A return with a value. -/
theorem recovers_giveBack {r : Token} {e : Expr} {pos : Position} {ts : List Token}
    (hr : r.kind = .keyword .returnKw) (h : Renders (.expression 0 e) ts) :
    Recovers budget (.bare (.giveBack (some e) pos)) (r :: ts) := by
  intro fuel k n rest hfuel hk hn hrest
  have hvalue : Recalls Expr.unplaced budget n (expression fuel (unary fuel)) ts rest e :=
    recalls_expression h (by grind) (by grind) (closes_of_next hrest rfl)
  have hsome := not_end_of_opens (c := ⟨ts ++ rest, n⟩) ((opens_of_renders h).opens_next rest)
  refine Meets.peek_bind ?_
  rw [current_kind, List.cons_append, next_cons, hr]
  refine Meets.discard_bind (Meets.advance_bind (by simp [hr]) ?_)
  refine Meets.sees_bind (Meets.sees_bind (Meets.atEnd_bind ?_))
  refine Meets.ite_neg (Bool.eq_false_iff.mp hsome) ?_
  refine hvalue.bind fun e' he' => Meets.pure ⟨?_, rfl⟩
  rw [Stmt.unplaced_giveBack, Stmt.unplaced_giveBack, Option.map_some, Option.map_some, he']

/-- Whether the second token is an equals sign. -/
theorem Meets.assignFollows_bind {ts : List Token} {n : Nat} {f : Bool → Parser β}
    {Q : β → Cursor → Prop} {b : Bool} (hb : (next ts.tail = .operator .assign) ↔ b = true)
    (h : Meets budget ⟨ts, n⟩ (f b) Q) : Meets budget ⟨ts, n⟩ (assignFollows >>= f) Q := by
  have hfollows : assignFollows ⟨ts, n⟩ = .ok b ⟨ts, n⟩ := by
    have hvalue : (ts.tail.head?.any fun t => t.kind = .operator .assign) = b := by
      rw [Bool.eq_iff_iff, ← hb]
      cases ts.tail with
      | nil => simp [next, Token.finish]
      | cons t ts => simp [next]
    rw [← hvalue]
    rfl
  exact Meets.bind_ok hfollows h

/-- An assignment: the equals sign is seen behind the name. -/
theorem recovers_assign {name eq : Token} {e : Expr} {pos : Position} {ts : List Token}
    (hname : name.kind = .identifier) (heq : eq.kind = .operator .assign)
    (h : Renders (.expression 0 e) ts) :
    Recovers budget (.bare (.assign name.lexeme e pos)) (name :: eq :: ts) := by
  intro fuel k n rest hfuel hk hn hrest
  have hvalue : Recalls Expr.unplaced budget n (expression fuel (unary fuel)) ts rest e :=
    recalls_expression h (by grind) (by grind) (closes_of_next hrest rfl)
  refine Meets.peek_bind ?_
  rw [current_kind, List.cons_append, next_cons, hname]
  refine Meets.assignFollows_bind (b := true) (by simp [heq]) ?_
  refine Meets.advance_bind (by simp [hname]) ?_
  refine Meets.discard_bind (Meets.expect_bind heq (by simp) ?_)
  refine hvalue.bind fun e' he' => Meets.pure ⟨?_, rfl⟩
  rw [Stmt.unplaced_assign, Stmt.unplaced_assign, he']

/-- What starts as an expression is read as one. -/
theorem Meets.statementBody_bare {ts rest : List Token} {fuel n : Nat} {expr : Parser Expr}
    {block : Parser (List Stmt)} {Q : Stmt → Cursor → Prop} (hts : Opens ts)
    (hrest : next rest ≠ .operator .assign) (h : Meets budget ⟨ts ++ rest, n⟩ (bare expr) Q) :
    Meets budget ⟨ts ++ rest, n⟩ (statementBody fuel expr block) Q := by
  have hopens := hts.opens_next rest
  have hassign : next (ts ++ rest) = .identifier → next (ts ++ rest).tail ≠ .operator .assign := by
    intro hkind
    obtain ⟨t, ts, rfl⟩ := List.exists_cons_of_ne_nil hts.ne_nil
    exact hts.noAssign_tail hkind rest hrest
  refine Meets.peek_bind ?_
  rw [current_kind]
  generalize next (ts ++ rest) = kind at hopens hassign
  split
  iterate 5 contradiction
  · exact Meets.assignFollows_bind (b := false) (by simp [hassign rfl]) h
  · exact h

/-- An expression as a statement; no equals sign comes second in it. -/
theorem recovers_expression {e : Expr} {ts : List Token} (h : Renders (.expression 0 e) ts) :
    Recovers budget (.bare (.expression e)) ts := by
  intro fuel k n rest hfuel hk hn hrest
  have hstart := opens_of_renders h
  have hvalue : Recalls Expr.unplaced budget n (expression fuel (unary fuel)) ts rest e :=
    recalls_expression h hfuel (by grind) (closes_of_next hrest rfl)
  refine Meets.statementBody_bare hstart (by simp [hrest]) ?_
  refine hvalue.bind fun e' he' => Meets.pure ⟨?_, rfl⟩
  rw [Stmt.unplaced_expression, Stmt.unplaced_expression, he']

/-! ## Renderings -/

/-- Every rendering gives what it is to give. -/
theorem recovers {sentence : Sentence} {ts : List Token} (h : Writes sentence ts) :
    Recovers budget sentence ts := by
  induction h with
  | ended _ ht ih => exact recovers_ended ht ih
  | thunk hf hname hl hr _ ih => exact recovers_thunk hf hname hl hr ih
  | function hf hname hl hparams hcount hr _ ih =>
      exact recovers_function hf hname hl hparams hcount hr ih
  | choice _ ih => exact recovers_choice ih
  | whileLoop hw hcondition hbody ih => exact recovers_whileLoop hw hcondition hbody ih
  | forLoop hf hvar hi hitems hbody ih => exact recovers_forLoop hf hvar hi hitems hbody ih
  | giveNothing hr => exact recovers_giveNothing hr
  | giveBack hr h => exact recovers_giveBack hr h
  | assign hname heq h => exact recovers_assign hname heq h
  | expression h => exact recovers_expression h
  | ifThen hi hcondition hbody ih => exact recovers_ifThen hi hcondition hbody ih
  | ifElse hi hcondition hbody he hother ihbody ihother =>
      exact recovers_ifElse hi hcondition hbody he hother ihbody ihother
  | elseIf hi hcondition hbody he _ ihbody ihother =>
      exact recovers_elseIf hi hcondition hbody he ihbody ihother
  | block hl _ hr ih => exact recovers_block hl hr ih
  | nothing => exact recovers_nothing
  | next hs _ ihs ihrest => exact recovers_next hs ihs ihrest

/-- A rendering with an end of input after it is read as the whole of a program. -/
theorem meets_wholeProgram {program : List Stmt} {ts : List Token} {eoi : Token}
    (h : Writes (.sequence program) ts) (heoi : eoi.kind = .endOfInput) :
    Meets (ts.length + 1) ⟨ts ++ [eoi], 0⟩ (wholeProgram ((ts ++ [eoi]).length + 1))
      fun program' _ => program'.map Stmt.unplaced = program.map Stmt.unplaced := by
  have hstop : (⟨[eoi], 0⟩ : Cursor).atEnd = true := by simp [Cursor.atEnd, Cursor.current, heoi]
  have hrecovers : Recovers (ts.length + 1) (.sequence program) ts := recovers h
  have hread := hrecovers Cursor.atEnd ((ts ++ [eoi]).length + 1) ((ts ++ [eoi]).length + 1)
    ((ts ++ [eoi]).length + 1) 0 [eoi] (by omega) (by omega) (by omega)
    (by omega) (by simp [next_cons, heoi]) hstop not_atEnd_of_begins
  rw [wholeProgram, program_eq]
  exact Meets.mono hread fun _ _ hb => hb.1

/-- What a terminated token sequence is read as, if it can be read. -/
theorem parseTokens_of_meets {ts : List Token} {eoi : Token} {Q : List Stmt → Cursor → Prop}
    (heoi : eoi.kind = .endOfInput)
    (h : Meets budget ⟨ts ++ [eoi], 0⟩ (wholeProgram ((ts ++ [eoi]).length + 1)) Q) :
    (∃ program c, parseTokens (ts ++ [eoi]) = .ok program ∧ Q program c) ∨
      (nestingLimit ≤ budget ∧ ∃ what t,
        parseTokens (ts ++ [eoi]) = .error (.atToken (.shallower what) t)) := by
  have hterminated : terminated (ts ++ [eoi]) = true := terminated_concat heoi
  unfold Meets at h
  unfold parseTokens run
  rw [if_pos hterminated]
  generalize wholeProgram _ _ = result at h
  cases result with
  | ok program c => exact .inl ⟨program, c, rfl, h⟩
  | error stop c =>
      obtain ⟨hlimit, what, t, rfl⟩ := h
      exact .inr ⟨hlimit, what, t, rfl⟩

end Parse

/-! ## Round trip -/

/-- **Reading undoes writing.**  A program that can be written has renderings.
Each of them, with an end of input after it, is read as the same program up to
places or meets the nesting limit, and it takes more than 250 tokens to meet the
limit. -/
theorem parseTokens_writes {program : List Stmt} (hprogram : Stmt.AllRenderable program) :
    (∃ ts, Grammar.Writes (.sequence program) ts) ∧
      ∀ ts eoi, Grammar.Writes (.sequence program) ts → eoi.kind = .endOfInput →
        (∃ program', parseTokens (ts ++ [eoi]) = .ok program' ∧
          program'.map Stmt.unplaced = program.map Stmt.unplaced) ∨
        (250 < ts.length ∧ ∃ what t,
          parseTokens (ts ++ [eoi]) = .error (.atToken (.shallower what) t)) := by
  refine ⟨Grammar.exists_writes program hprogram, fun ts eoi h heoi => ?_⟩
  obtain ⟨program', c, hok, hplaces⟩ | ⟨hlimit, what, t, herror⟩ :=
    Parse.parseTokens_of_meets heoi (Parse.meets_wholeProgram h heoi)
  · exact .inl ⟨program', hok, hplaces⟩
  · have hlong : 250 < ts.length := by
      unfold nestingLimit at hlimit
      omega
    exact .inr ⟨hlong, what, t, herror⟩

open Grammar in
/-- The tokens of `((a) + b) * -c;` are read as a product. -/
theorem parseTokens_writes_product :
    let sum : Expr := .binary .add (.variable "a" .first) (.variable "b" .first) .first
    let negation : Expr := .unary .negate (.variable "c" .first) .first
    let product : Stmt := .expression (.binary .multiply sum negation .first)
    let tokens : List Token :=
      [symbolToken .leftParen, symbolToken .leftParen, nameToken "a", symbolToken .rightParen,
        symbolToken (.operator .plus), nameToken "b", symbolToken .rightParen,
        symbolToken (.operator .star), symbolToken (.operator .minus), nameToken "c",
        symbolToken .semicolon]
    Stmt.AllRenderable [product] ∧ Writes (.sequence [product]) tokens ∧
      ∃ program', parseTokens (tokens ++ [.finish .first]) = .ok program' ∧
        program'.map Stmt.unplaced = [product] := by
  intro sum negation product tokens
  have hproduct : Stmt.AllRenderable [product] := ⟨⟨⟨trivial, trivial⟩, trivial⟩, trivial⟩
  have hsum : Renders (.expression 4 sum) _ :=
    .group (symbolToken_kind _)
      (.binary (Nat.zero_le _)
        (.group (symbolToken_kind _) (.name (nameToken_kind "a")) (symbolToken_kind _))
        (t := symbolToken _) .add (.name (nameToken_kind "b")))
      (symbolToken_kind _)
  have hnegation : Renders (.expression 5 negation) _ :=
    .unary (t := symbolToken _) .negate (.name (nameToken_kind "c"))
  have hbare : Renders (.expression 0 (.binary .multiply sum negation .first)) _ :=
    .binary (Nat.zero_le _) hsum (t := symbolToken _) .multiply hnegation
  have hwrites : Writes (.sequence [product]) tokens :=
    .next (.ended (.expression hbare) (symbolToken_kind _)) .nothing
  have hread := (parseTokens_writes hproduct).2 tokens (.finish .first) hwrites rfl
  refine ⟨hproduct, hwrites, hread.resolve_right fun hlong => ?_⟩
  exact absurd hlong.1 (by decide)

end Abacus
