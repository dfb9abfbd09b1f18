import Abacus.Proofs.Parse.RoundTrip
import Abacus.Proofs.Token.Scanned
import Abacus.Proofs.Tree.Height

/-!
# Abacus.Proofs.Parse.Tower

Aggregates over aggregates.  A tower is a chain of sums that are each the body of
the one before.  Its bounds are names, so that no storey opens more than one
construct at a time, and a tower of any number of storeys is read with one level
of nesting (`meets_tower`).  As a tower has a text, there are source texts that
are accepted and whose trees are as high as one likes
(`exists_parseSource_spine`).

A source of one statement, or of one expression, is read as a program as soon as the
statement or the expression is read up to the end (`meets_wholeProgram_single`,
`meets_wholeProgram_expression`).
-/

namespace Abacus

namespace Tower

open Scan

/-! ## Texts of towers -/

/-- The text of one storey, without its body. -/
def storeyText : List Char := ['∑', '(', 'i', '=', 'i', ' ', 't', 'o', ' ', 'i', ')']

/-- The text of a tower of `n` storeys. -/
def text : Nat → List Char
  | 0 => ['i']
  | n + 1 => storeyText ++ text n

/-- The tokens of a tower of `n` storeys. -/
inductive Storeys : Nat → List Token → Prop where
  | roof {t : Token} (ht : t.kind = .identifier) : Storeys 0 [t]
  | storey {n : Nat} {symbol l var eq a word b r : Token} {ts : List Token}
      (hsymbol : symbol.kind = .operator .sum) (hl : l.kind = .leftParen)
      (hvar : var.kind = .identifier) (heq : eq.kind = .operator .assign)
      (ha : a.kind = .identifier) (hto : word.kind = .keyword .toKw) (hb : b.kind = .identifier)
      (hr : r.kind = .rightParen) (h : Storeys n ts) :
      Storeys (n + 1) (symbol :: l :: var :: eq :: ([a] ++ word :: ([b] ++ r :: ts)))

/-- Eight tokens and two blanks stand for one storey. -/
theorem itemsFrom_storey (fuel : Nat) (p : Position) (cs : List Char) :
    ∃ us q, itemsFrom (fuel + 10) p (storeyText ++ cs) = us.map .ok ++ itemsFrom fuel q cs ∧
      ∀ n ts, Storeys n ts → Storeys (n + 1) (us ++ ts) := by
  refine ⟨[⟨.operator .sum, "∑", _⟩, ⟨.leftParen, "(", _⟩, ⟨.identifier, "i", _⟩,
    ⟨.operator .assign, "=", _⟩, ⟨.identifier, "i", _⟩, ⟨.keyword .toKw, "to", _⟩,
    ⟨.identifier, "i", _⟩, ⟨.rightParen, ")", _⟩], _, rfl, fun n ts h => ?_⟩
  exact .storey rfl rfl rfl rfl rfl rfl rfl rfl h

/-- The text of a tower is scanned as its tokens. -/
theorem itemsFrom_text {n fuel : Nat} (p : Position) (hfuel : (text n).length ≤ fuel) :
    ∃ ts q, itemsFrom fuel p (text n) = (ts ++ [Token.finish q]).map .ok ∧ Storeys n ts := by
  induction n generalizing fuel p with
  | zero =>
      obtain ⟨fuel, rfl⟩ : ∃ j, fuel = j + 1 := ⟨fuel - 1, by simp [text] at hfuel; omega⟩
      refine ⟨[⟨.identifier, "i", p⟩], p.advance ['i'], ?_, .roof rfl⟩
      show .ok ⟨.identifier, "i", p⟩ :: itemsFrom fuel (p.advance ['i']) [] = _
      rw [itemsFrom]
      rfl
  | succ n ih =>
      simp only [text, storeyText, List.length_append, List.length_cons, List.length_nil] at hfuel
      obtain ⟨fuel, rfl⟩ : ∃ j, fuel = j + 10 := ⟨fuel - 10, by omega⟩
      obtain ⟨us, q, hitems, hstorey⟩ := itemsFrom_storey fuel p (text n)
      obtain ⟨ts, q', hrest, hts⟩ := ih q (show (text n).length ≤ fuel by omega)
      refine ⟨us ++ ts, q', ?_, hstorey n ts hts⟩
      rw [text, hitems, hrest, List.append_assoc, ← List.map_append]

theorem kind_ne_newline {n : Nat} {ts : List Token} (h : Storeys n ts) :
    ∀ t ∈ ts, t.kind ≠ .newline := by
  induction h with
  | roof ht => simp [ht]
  | storey hsymbol hl hvar heq ha hto hb hr _ ih =>
      simp [hsymbol, hl, hvar, heq, ha, hto, hb, hr]
      exact ih

/-- The tokens of the text of a tower. -/
theorem tokenize_text (n : Nat) :
    ∃ ts q, tokenize (String.ofList (text n)) = .ok (ts ++ [Token.finish q]) ∧ Storeys n ts := by
  obtain ⟨ts, q, hitems, hts⟩ := itemsFrom_text (n := n) .first (Nat.le_refl _)
  refine ⟨ts, q, tokenize_of_scan ?_ ?_, hts⟩
  · rw [scan, String.toList_ofList]
    exact hitems
  · simp only [List.forall_mem_append, List.forall_mem_singleton]
    exact ⟨kind_ne_newline hts, by simp [Token.finish]⟩

end Tower

namespace Parse

open Grammar Tower

variable {budget : Nat}

/-! ## Reading towers -/

/-- A name as a whole expression, one level deeper. -/
theorem consumes_name {t : Token} {fuel : Nat} {rest : List Token} (ht : t.kind = .identifier)
    (hfuel : rest.length + 1 < fuel) (hrest : Closes Level.all (next rest)) :
    Consumes (nestingLimit - 1) 1 (expression fuel (unary fuel)) [t] rest
      (.variable t.lexeme t.pos) := by
  have hunary : Derives (.unary (.variable t.lexeme t.pos)) [t] := .plain (.name ht)
  have hname : Complete (nestingLimit - 1) (.expression (.variable t.lexeme t.pos)) [t] :=
    complete (hunary.chain Level.all)
  exact hname.expression fuel 1 rest (by simpa using hfuel) (by simp [nestingLimit]) hrest

/-- A tower of any number of storeys is read inside one level of nesting. -/
theorem meets_tower {n : Nat} {ts : List Token} (h : Storeys n ts) {fuel : Nat}
    {rest : List Token} (hfuel : (ts ++ rest).length < fuel) (hrest : Closes [] (next rest)) :
    Meets (nestingLimit - 1) ⟨ts ++ rest, 1⟩ (unary fuel) fun e c =>
      e.spine = n ∧ c = ⟨rest, 1⟩ := by
  induction h generalizing fuel with
  | @roof t ht =>
      have hname : Complete (nestingLimit - 1) (.chain [] (.variable t.lexeme t.pos)) [t] :=
        complete (.operand (.plain (.name ht)))
      have hread := hname .nil fuel 1 rest hfuel (by simp [nestingLimit]) hrest
      refine hread.mono fun e c he => ?_
      rw [he.1]
      exact ⟨rfl, he.2⟩
  | @storey n symbol l var eq a word b r ts hsymbol hl hvar heq ha hto hb hr _ ih =>
      obtain ⟨fuel, rfl⟩ := Nat.exists_eq_add_one_of_ne_zero (show fuel ≠ 0 by omega)
      have hstart : Consumes (nestingLimit - 1) 1 (expression fuel (unary fuel)) [a]
          (word :: ([b] ++ r :: (ts ++ rest))) _ :=
        consumes_name ha (by grind) (closes_of_next hto rfl)
      have hstop : Consumes (nestingLimit - 1) 1 (expression fuel (unary fuel)) [b]
          (r :: (ts ++ rest)) _ :=
        consumes_name hb (by grind) (closes_of_next hr rfl)
      have hdenotes : Denotes symbol.kind .sum := by
        rw [hsymbol]
        exact .sum
      show Meets _ ⟨symbol :: l :: var :: eq :: ([a] ++ word :: ([b] ++ r :: (ts ++ rest))), 1⟩ _ _
      refine Meets.peek_bind ?_
      rw [current_kind, next_cons, hsymbol]
      refine meets_aggregate hdenotes hl hvar heq hto hr hstart hstop ?_
      refine (ih (by grind)).bind fun body c hbody => Meets.ite_neg (by simp) (Meets.pure ?_)
      exact ⟨by rw [Expr.spine, hbody.1], hbody.2⟩

/-- Where no operator follows, an operand is the whole of a chain. -/
theorem meets_climb {levels : List Level} {fuel n : Nat} {c : Cursor} {rest : List Token}
    {P : Expr → Prop} (hfuel : 0 < fuel) (hrest : Closes levels (next rest))
    (h : Meets budget c (unary fuel) fun e c' => P e ∧ c' = ⟨rest, n⟩) :
    Meets budget c (climb fuel (unary fuel) levels) fun e c' => P e ∧ c' = ⟨rest, n⟩ := by
  obtain ⟨fuel, rfl⟩ := Nat.exists_eq_add_one_of_ne_zero (show fuel ≠ 0 by omega)
  induction levels with
  | nil => exact h
  | cons level tighter ih =>
      have hnone := hrest.operator?_eq_none level List.mem_cons_self
      refine (ih hrest.tail).bind fun e c' he => ?_
      obtain ⟨he, rfl⟩ := he
      refine Meets.peek_bind ?_
      rw [current_kind, hnone]
      exact Meets.pure ⟨he, rfl⟩

theorem opens_tower {n : Nat} {ts : List Token} (h : Storeys n ts) : Opens ts := by
  cases h with
  | roof ht => exact opens_cons (by rw [ht]; rfl) fun _ _ h => h
  | storey hsymbol => exact opens_symbol _ hsymbol rfl (by simp)

/-! ## Single statements -/

/-- A statement without a semicolon after it. -/
theorem meets_statement {budget fuel k n : Nat} {expr : Parser Expr} {ts rest : List Token}
    {P : Stmt → Prop} (hrest : next rest ≠ .semicolon)
    (h : Meets budget ⟨ts, n⟩ (statementBody fuel expr (block fuel (statement fuel expr k)))
      fun s c => P s ∧ c = ⟨rest, n⟩) :
    Meets budget ⟨ts, n⟩ (statement fuel expr (k + 1)) fun s c => P s ∧ c = ⟨rest, n⟩ := by
  refine h.bind fun s c hs => ?_
  obtain ⟨hs, rfl⟩ := hs
  exact Meets.discard_bind (Meets.refuse_bind (Cursor.sees_of_ne hrest) (Meets.pure ⟨hs, rfl⟩))

section

variable {ts rest : List Token} {fuel n : Nat} {statement : Parser Stmt} {P : Stmt → Prop}
variable (h : Meets budget ⟨ts ++ rest, n⟩ statement fun s c => P s ∧ c = ⟨rest, n⟩)
variable (hfuel : 0 < fuel) (hbegins : begins (next (ts ++ rest)) = true)

include h hfuel hbegins

/-- One statement, up to where a sequence stops. -/
theorem meets_single {stop : Cursor → Bool} {k : Nat} (hrest : next rest ≠ .semicolon)
    (hstop : stop ⟨rest, n⟩ = true) (hgo : ∀ c, begins c.current.kind = true → stop c = false) :
    Meets budget ⟨ts ++ rest, n⟩ (statementsUntil stop fuel statement (k + 2)) fun stmts c =>
      (∃ s, stmts = [s] ∧ P s) ∧ c = ⟨rest, n⟩ := by
  have hstart := ne_semicolon_of_begins hbegins
  have hstay : stop ⟨ts ++ rest, n⟩ = false := hgo _ hbegins
  refine Meets.skip_bind hfuel hstart (Meets.get_bind ?_)
  refine Meets.ite_neg (Bool.eq_false_iff.mp hstay) (h.bind fun s c hs => ?_)
  obtain ⟨hs, rfl⟩ := hs
  have hnothing : Meets budget ⟨rest, n⟩ (statementsUntil stop fuel statement (k + 1))
      fun stmts c => stmts = [] ∧ c = ⟨rest, n⟩ := by
    refine Meets.skip_bind hfuel hrest (Meets.get_bind ?_)
    exact Meets.ite_pos hstop (Meets.pure ⟨rfl, rfl⟩)
  refine hnothing.bind fun stmts c hstmts => Meets.pure ⟨⟨s, ?_, hs⟩, hstmts.2⟩
  rw [hstmts.1]

end

section

variable {ts : List Token} {eoi : Token} {fuel : Nat} (heoi : eoi.kind = .endOfInput)

include heoi

/-- One statement as a program of its own. -/
theorem meets_wholeProgram_single {P : Stmt → Prop} (hfuel : 1 < fuel)
    (hbegins : begins (next (ts ++ [eoi])) = true)
    (h : Meets budget ⟨ts ++ [eoi], 0⟩ (statement fuel (expression fuel (unary fuel)) fuel)
      fun s c => P s ∧ c = ⟨[eoi], 0⟩) :
    Meets budget ⟨ts ++ [eoi], 0⟩ (wholeProgram fuel) fun program _ =>
      ∃ s, program = [s] ∧ P s := by
  have hstop : (⟨[eoi], 0⟩ : Cursor).atEnd = true := by simp [Cursor.atEnd, Cursor.current, heoi]
  obtain ⟨k, rfl⟩ : ∃ j, fuel = j + 2 := ⟨fuel - 2, by omega⟩
  rw [wholeProgram, program_eq]
  have hrest : next [eoi] ≠ .semicolon := by simp [heoi]
  refine (meets_single h (Nat.succ_pos _) hbegins hrest hstop not_atEnd_of_begins).mono ?_
  exact fun _ _ hprogram => hprogram.1

/-- One expression as a program of its own. -/
theorem meets_wholeProgram_expression {P : Expr → Prop} (hopens : Opens ts)
    (hfuel : (ts ++ [eoi]).length < fuel)
    (h : Meets budget ⟨ts ++ [eoi], 0⟩ (expression fuel (unary fuel)) fun e c =>
      P e ∧ c = ⟨[eoi], 0⟩) :
    Meets budget ⟨ts ++ [eoi], 0⟩ (wholeProgram fuel) fun program _ =>
      ∃ e, program = [.expression e] ∧ P e := by
  have hassign : next [eoi] ≠ .operator .assign := by simp [heoi]
  have hsemicolon : next [eoi] ≠ .semicolon := by simp [heoi]
  have hbare : Meets budget ⟨ts ++ [eoi], 0⟩ (bare (expression fuel (unary fuel))) fun s c =>
      (∃ e, s = .expression e ∧ P e) ∧ c = ⟨[eoi], 0⟩ :=
    h.bind fun e c he => Meets.pure ⟨⟨e, rfl, he.1⟩, he.2⟩
  have hstatement : ∀ k, Meets budget ⟨ts ++ [eoi], 0⟩
      (statement fuel (expression fuel (unary fuel)) (k + 1)) fun s c =>
        (∃ e, s = .expression e ∧ P e) ∧ c = ⟨[eoi], 0⟩ :=
    fun _ => meets_statement hsemicolon (Meets.statementBody_bare hopens hassign hbare)
  have hlength : 1 < fuel := by
    rw [List.length_append, List.length_singleton] at hfuel
    have hpos := List.length_pos_iff.mpr hopens.ne_nil
    omega
  obtain ⟨k, rfl⟩ : ∃ j, fuel = j + 1 := ⟨fuel - 1, by omega⟩
  have hbegins := begins_of_opens (hopens.opens_next [eoi])
  refine (meets_wholeProgram_single heoi hlength hbegins (hstatement k)).mono fun program _ hs => ?_
  obtain ⟨s, rfl, e, rfl, he⟩ := hs
  exact ⟨e, rfl, he⟩

/-- A tower as a whole expression at the end of input. -/
theorem meets_expression_tower {n : Nat} (h : Storeys n ts) (hfuel : (ts ++ [eoi]).length < fuel) :
    Meets (nestingLimit - 1) ⟨ts ++ [eoi], 0⟩ (expression fuel (unary fuel)) fun e c =>
      e.spine = n ∧ c = ⟨[eoi], 0⟩ := by
  have hcloses : ∀ levels, Closes levels (next [eoi]) := fun _ => closes_of_next heoi rfl
  have htower := meets_tower h hfuel (hcloses [])
  have hclimb := meets_climb (by omega) (hcloses Level.all) htower
  refine Meets.nested (Nat.zero_le _) (hclimb.mono fun e c he => ?_)
  rw [he.2]
  exact ⟨he.1, rfl⟩

end

end Parse

/-- **Trees as high as one likes**: for every number there is a source text that
is accepted as one expression with a longer chain of aggregates. -/
theorem exists_parseSource_spine (n : Nat) :
    ∃ source e, parseSource source = .ok [.expression e] ∧ e.spine = n := by
  obtain ⟨ts, q, htokens, hts⟩ := Tower.tokenize_text n
  have hfinish : (Token.finish q).kind = .endOfInput := rfl
  have hfuel := Nat.lt_succ_self (ts ++ [Token.finish q]).length
  have hmeets := Parse.meets_wholeProgram_expression hfinish (Parse.opens_tower hts) hfuel
    (Parse.meets_expression_tower hfinish hts hfuel)
  obtain ⟨program, c, hok, e, rfl, he⟩ | ⟨hlimit, _⟩ := Parse.parseTokens_of_meets hfinish hmeets
  · refine ⟨String.ofList (Tower.text n), e, ?_, he⟩
    simp only [parseSource, htokens, hok]
  · exact absurd hlimit (by decide)

end Abacus
