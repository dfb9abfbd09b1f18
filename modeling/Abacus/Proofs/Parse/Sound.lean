import Abacus.Proofs.Parse.Grammar
import Abacus.Proofs.Parse.Reads
import Abacus.Proofs.Tree.Equality

/-!
# Abacus.Proofs.Parse.Sound

Soundness of the parser.  Whatever a rule gives is the tree of a derivation
whose yield is the tokens that the rule took (`reads_*`), for every cursor and
every fuel.  A token sequence that is accepted is therefore the yield of a
derivation of its statements, with every token used once (`parseTokens_sound`).
-/

namespace Abacus

namespace Parse

open Grammar

/-! ## Expressions -/

/-- The operators of a level after an operand. -/
theorem reads_operators {level : Level} {tighter : List Level} {operand : Parser Expr}
    (hoperand : ∀ c, Reads c operand fun e ts => Derives (.chain tighter e) ts) (n : Nat)
    (left : Expr) (c : Cursor) :
    Reads c (operators level operand n left) fun e ts =>
      Derives (.folds level tighter left e) ts := by
  induction n generalizing left c with
  | zero => exact Reads.exhausted
  | succ n ih =>
      refine Reads.peek_bind ?_
      cases hop : level.operator? c.current.kind with
      | none => exact Reads.pure .done
      | some op =>
          have hconnects := operator?_eq_some_iff.mp hop
          have hc := Cursor.atEnd_of_current_kind rfl hconnects.ne_endOfInput
          refine Reads.discard_bind (Reads.advance_bind hc ?_)
          refine Reads.nested fun _ => (hoperand _).bind fun right ts c' _ _ hright => ?_
          exact (ih _ c').mono fun e us hfolds => .fold hconnects hright hfolds

/-- A chain of operands between the operators of some levels. -/
theorem reads_climb {fuel : Nat} {operand : Parser Expr}
    (hoperand : ∀ c, Reads c operand fun e ts => Derives (.unary e) ts) (levels : List Level)
    (c : Cursor) :
    Reads c (climb fuel operand levels) fun e ts => Derives (.chain levels e) ts := by
  induction levels generalizing c with
  | nil => exact (hoperand c).mono fun _ _ h => .operand h
  | cons level tighter ih =>
      refine (ih c).bind fun left ts c' _ _ hleft => ?_
      exact (reads_operators ih fuel left c').mono fun e us hfolds => .level hleft hfolds

/-- An expression is a chain of all levels. -/
theorem reads_expression {fuel : Nat} {operand : Parser Expr}
    (hoperand : ∀ c, Reads c operand fun e ts => Derives (.unary e) ts) (c : Cursor) :
    Reads c (expression fuel operand) fun e ts => Derives (.expression e) ts :=
  Reads.nested fun _ => reads_climb hoperand Level.all _

/-- Arguments with commas between them, no more than are allowed. -/
theorem reads_arguments {expr : Parser Expr}
    (hexpr : ∀ c, Reads c expr fun e ts => Derives (.expression e) ts) (n : Nat) (c : Cursor) :
    Reads c (separated .fewerArguments expr n) fun es ts =>
      Derives (.arguments es) ts ∧ es.length ≤ n :=
  Reads.separated (fun c _ => hexpr c) (fun _ _ h => .lastArgument h)
    (fun _ _ _ _ _ h hc hes => .argument h hc hes) n c rfl

/-- A call from its opening parenthesis on. -/
theorem reads_call {expr : Parser Expr}
    (hexpr : ∀ c, Reads c expr fun e ts => Derives (.expression e) ts) {t l : Token}
    (ht : t.kind = .identifier) (hl : l.kind = .leftParen) (c : Cursor) :
    Reads c (arguments expr) fun args us =>
      Derives (.primary (.call t.lexeme args t.pos)) (t :: l :: us) := by
  refine Reads.sees_bind (Reads.ite (fun _ => ?_) fun _ => ?_)
  · refine Reads.discard_bind (Reads.expect_bind fun hr => Reads.pure ?_)
    exact .emptyCall ht hl hr
  · refine (reads_arguments hexpr listLimit c).bind fun args ts c' _ _ hargs => ?_
    refine Reads.discard_bind (Reads.expect_bind fun hr => Reads.pure ?_)
    exact .call ht hl hargs.1 hargs.2 hr

/-- A differential, or none. -/
theorem reads_differential (var : String) (c : Cursor) :
    Reads c (differential var) fun _ ts => Differential .integral var ts := by
  refine Reads.sees_bind (Reads.ite (fun hsees => ?_) fun _ => Reads.pure .absent)
  refine Reads.peek_bind (Reads.ite (fun hlexeme => ?_) fun _ => Reads.pure .absent)
  rw [Stateful.discard_eq]
  refine Reads.advance_bind (Cursor.atEnd_of_sees hsees) (Reads.pure ?_)
  exact .present c.current rfl (Cursor.current_kind_of_sees hsees) hlexeme

/-- An aggregate from its symbol on. -/
theorem reads_aggregate {expr unary : Parser Expr}
    (hexpr : ∀ c, Reads c expr fun e ts => Derives (.expression e) ts)
    (hunary : ∀ c, Reads c unary fun e ts => Derives (.unary e) ts) {kind : Aggregate}
    {c : Cursor} (hsymbol : Denotes c.current.kind kind) (hc : c.atEnd = false) :
    Reads c (aggregate expr unary kind) fun e ts => Derives (.primary e) ts := by
  refine Reads.advance_bind hc ?_
  refine Reads.discard_bind (Reads.expect_bind fun hl => Reads.expect_bind fun hvar => ?_)
  refine Reads.discard_bind (Reads.expect_bind fun heq => ?_)
  refine (hexpr _).bind fun start ss c₁ _ _ hstart => ?_
  refine Reads.discard_bind (Reads.expect_bind fun hto => ?_)
  refine (hexpr _).bind fun stop us c₂ _ _ hstop => ?_
  refine Reads.discard_bind (Reads.expect_bind fun hr => ?_)
  refine (hunary _).bind fun body bs c₃ _ _ hbody => ?_
  refine Reads.ite (fun hkind => ?_) fun _ => Reads.pure ?_
  · subst hkind
    refine (reads_differential _ c₃).bind fun _ ds _ _ _ hd => Reads.pure ?_
    rw [List.append_nil]
    exact .aggregate hsymbol hl hvar heq hstart hto hstop hr hbody hd
  · exact .aggregate hsymbol hl hvar heq hstart hto hstop hr hbody .absent

/-- A primary expression: a case for each kind of its first token. -/
theorem reads_primary {expr unary : Parser Expr}
    (hexpr : ∀ c, Reads c expr fun e ts => Derives (.expression e) ts)
    (hunary : ∀ c, Reads c unary fun e ts => Derives (.unary e) ts) (c : Cursor) :
    Reads c (primary expr unary) fun e ts => Derives (.primary e) ts := by
  refine Reads.peek_bind ?_
  have hc : ∀ kind, c.current.kind = kind → kind ≠ .endOfInput → c.atEnd = false :=
    fun _ => Cursor.atEnd_of_current_kind
  split
  · next ht =>
      refine Reads.discard_bind (Reads.advance_bind (hc _ ht (by simp)) ?_)
      split
      · next n hn => exact Reads.pure (.number ht hn)
      · exact Reads.throw _
  · next s ht =>
      exact Reads.discard_bind (Reads.advance_bind (hc _ ht (by simp)) (Reads.pure (.string ht)))
  · next ht =>
      exact Reads.discard_bind (Reads.advance_bind (hc _ ht (by simp)) (Reads.pure (.true ht)))
  · next ht =>
      exact Reads.discard_bind (Reads.advance_bind (hc _ ht (by simp)) (Reads.pure (.false ht)))
  · next ht =>
      refine Reads.discard_bind (Reads.advance_bind (hc _ ht (by simp)) ?_)
      refine Reads.accept_bind (fun hl => ?_) (Reads.pure (.name ht))
      refine (reads_call hexpr ht hl _).bind fun args ts _ _ _ hcall => Reads.pure ?_
      rw [List.append_nil]
      exact hcall
  · next hl =>
      refine Reads.discard_bind (Reads.advance_bind (hc _ hl (by simp)) ?_)
      refine (hexpr _).bind fun e ts _ _ _ he => ?_
      exact Reads.discard_bind (Reads.expect_bind fun hr => Reads.pure (.group hl he hr))
  · next o ho =>
      split
      · next kind hkind =>
          have hsymbol : Denotes c.current.kind kind := by
            rw [ho]
            exact aggregate_ofOperator?_eq_some_iff.mp hkind
          exact reads_aggregate hexpr hunary hsymbol (hc _ ho (by simp))
      · exact Reads.fail _
  · exact Reads.fail _

/-- Unary expressions, by induction on the fuel. -/
theorem reads_unary (n : Nat) (c : Cursor) :
    Reads c (unary n) fun e ts => Derives (.unary e) ts := by
  induction n generalizing c with
  | zero => exact Reads.exhausted
  | succ n ih =>
      refine Reads.peek_bind ?_
      split
      · next op hop =>
          have hprecedes := unaryOp?_eq_some_iff.mp hop
          have hc := Cursor.atEnd_of_current_kind rfl hprecedes.ne_endOfInput
          refine Reads.discard_bind (Reads.advance_bind hc ?_)
          refine (Reads.nested fun _ => ih _).bind fun e ts _ _ _ he => Reads.pure ?_
          rw [List.append_nil]
          exact .operator hprecedes he
      · exact (reads_primary (reads_expression ih) ih c).mono fun _ _ h => .plain h

/-! ## Statements -/

/- The rules in the order of the grammar; a statement and its blocks go together, by induction
on how deep it may nest.  Semicolons are part of the yield, so loops over statements collect
them. -/

/-- Semicolons may be put in front of statements. -/
theorem forms_separators {stmts : List Stmt} {ts us : List Token}
    (hts : ∀ t ∈ ts, t.kind = .semicolon) (h : Forms (.sequence stmts) us) :
    Forms (.sequence stmts) (ts ++ us) := by
  induction ts with
  | nil => exact h
  | cons t ts ih =>
      exact .separator (hts t List.mem_cons_self)
        (ih fun u hu => hts u (List.mem_cons_of_mem t hu))

/-- Statements up to a stop, with semicolons between them. -/
theorem reads_sequence {stop : Cursor → Bool} {fuel : Nat} {statement : Parser Stmt}
    (hstatement : ∀ c, Reads c statement fun s ts => Forms (.statement s) ts) (n : Nat)
    (c : Cursor) :
    Reads c (statementsUntil stop fuel statement n) fun stmts ts => Forms (.sequence stmts) ts :=
  Reads.statementsUntil (fun c _ => hstatement c) .nothing (fun _ _ _ => forms_separators)
    (fun _ _ _ _ hs hrest => .next hs hrest) n c rfl

/-- A block in its braces. -/
theorem reads_block {fuel : Nat} {statement : Parser Stmt}
    (hstatement : ∀ c, Reads c statement fun s ts => Forms (.statement s) ts) (c : Cursor) :
    Reads c (block fuel statement) fun body ts => Forms (.block body) ts := by
  refine Reads.discard_bind (Reads.expect_bind fun hl => Reads.nested fun _ => ?_)
  rw [statements_eq]
  refine (reads_sequence hstatement fuel _).bind fun body ts _ _ _ hbody => ?_
  exact Reads.discard_bind (Reads.expect_bind fun hr => Reads.pure (.block hl hbody hr))

/-- Parameters with commas between them, no more than are allowed. -/
theorem reads_parameters (n : Nat) (c : Cursor) :
    Reads c (separated .fewerParameters (expect .identifier .parameterName) n) fun names ts =>
      Parameters (names.map Token.lexeme) ts ∧ names.length ≤ n := by
  refine Reads.separated (S := fun names ts => Parameters (names.map Token.lexeme) ts)
    (fun _ _ => Reads.expect) ?_ ?_ n c rfl
  · rintro t ts ⟨rfl, ht⟩
    exact .last ht
  · rintro t ts u names us ⟨rfl, ht⟩ hu hnames
    exact .next ht hu hnames

section

variable {expr : Parser Expr} {blocks : Parser (List Stmt)}
variable (hexpr : ∀ c, Reads c expr fun e ts => Derives (.expression e) ts)
variable (hblock : ∀ c, Reads c blocks fun body ts => Forms (.block body) ts)

include hblock in
/-- A function definition after its keyword. -/
theorem reads_definition {f : Token} (hf : f.kind = .keyword .functionKw) (c : Cursor) :
    Reads c (definition blocks f.pos) fun s ts => Forms (.bare s) (f :: ts) := by
  refine Reads.expect_bind fun hname => Reads.discard_bind (Reads.expect_bind fun hl => ?_)
  refine Reads.sees_bind (Reads.ite (fun _ => ?_) fun _ => ?_)
  · refine Reads.discard_bind (Reads.expect_bind fun hr => ?_)
    refine (hblock _).bind fun body bs _ _ _ hbody => Reads.pure ?_
    rw [List.append_nil]
    exact .thunk hf hname hl hr hbody
  · refine (reads_parameters listLimit _).bind fun params ps _ _ _ hparams => ?_
    refine Reads.discard_bind (Reads.expect_bind fun hr => ?_)
    refine (hblock _).bind fun body bs _ _ _ hbody => Reads.pure ?_
    rw [List.append_nil]
    have hcount : (params.map Token.lexeme).length ≤ listLimit := by
      rw [List.length_map]
      exact hparams.2
    exact .function hf hname hl hparams.1 hcount hr hbody

include hexpr hblock in
/-- A conditional after its keyword. -/
theorem reads_conditional {i : Token} (hi : i.kind = .keyword .ifKw) (n : Nat) (c : Cursor) :
    Reads c (conditional expr blocks n i.pos) fun s ts => Forms (.conditional s) (i :: ts) := by
  induction n generalizing i c with
  | zero => exact Reads.exhausted
  | succ n ih =>
      refine (hexpr c).bind fun condition cs c₁ _ _ hcondition => ?_
      refine (hblock c₁).bind fun body bs c₂ _ _ hbody => ?_
      refine Reads.accept_bind (fun he => Reads.peek_bind (Reads.accept_bind (fun hif => ?_) ?_)) ?_
      · refine (Reads.nested fun _ => ih hif _).bind fun chained os _ _ _ hchained => Reads.pure ?_
        rw [List.append_nil]
        exact .elseIf hi hcondition hbody he hchained
      · refine (hblock _).bind fun other os _ _ _ hother => Reads.pure ?_
        rw [List.append_nil]
        exact .ifElse hi hcondition hbody he hother
      · refine Reads.pure ?_
        rw [List.append_nil]
        exact .ifThen hi hcondition hbody

include hexpr hblock in
/-- A loop over items after its keyword. -/
theorem reads_iteration {f : Token} (hf : f.kind = .keyword .forKw) (c : Cursor) :
    Reads c (iteration expr blocks f.pos) fun s ts => Forms (.bare s) (f :: ts) := by
  refine Reads.expect_bind fun hvar => Reads.discard_bind (Reads.expect_bind fun hin => ?_)
  refine (hexpr _).bind fun items is c₁ _ _ hitems => ?_
  refine (hblock c₁).bind fun body bs _ _ _ hbody => Reads.pure ?_
  rw [List.append_nil]
  exact .forLoop hf hvar hin hitems hbody

include hexpr in
/-- What a `return` gives back. -/
theorem reads_giveBack {r : Token} (hr : r.kind = .keyword .returnKw) (c : Cursor) :
    Reads c (giveBack expr r.pos) fun s ts => Forms (.bare s) (r :: ts) := by
  refine Reads.sees_bind (Reads.sees_bind (Reads.atEnd_bind (Reads.ite (fun _ => ?_) fun _ => ?_)))
  · exact Reads.pure (.giveNothing hr)
  · refine (hexpr c).bind fun e ts _ _ _ he => Reads.pure ?_
    rw [List.append_nil]
    exact .giveBack hr he

include hexpr in
/-- An assignment whose name was seen. -/
theorem reads_assignment {c : Cursor} (hname : c.current.kind = .identifier) :
    Reads c (assignment expr) fun s ts => Forms (.bare s) ts := by
  refine Reads.advance_bind (Cursor.atEnd_of_current_kind hname (by simp)) ?_
  refine Reads.discard_bind (Reads.expect_bind fun heq => ?_)
  refine (hexpr _).bind fun e ts _ _ _ he => Reads.pure ?_
  rw [List.append_nil]
  exact .assign hname heq he

include hexpr in
/-- An expression as a statement. -/
theorem reads_bare (c : Cursor) : Reads c (bare expr) fun s ts => Forms (.bare s) ts := by
  refine (hexpr c).bind fun e ts _ _ _ he => Reads.pure ?_
  rw [List.append_nil]
  exact .expression he

include hexpr hblock in
/-- The body of a statement: a case for each keyword. -/
theorem reads_statementBody (fuel : Nat) (c : Cursor) :
    Reads c (statementBody fuel expr blocks) fun s ts => Forms (.bare s) ts := by
  refine Reads.peek_bind ?_
  have hc : ∀ kind, c.current.kind = kind → kind ≠ .endOfInput → c.atEnd = false :=
    fun _ => Cursor.atEnd_of_current_kind
  split
  · next hf =>
      refine Reads.discard_bind (Reads.advance_bind (hc _ hf (by simp)) ?_)
      exact reads_definition hblock hf _
  · next hi =>
      refine Reads.discard_bind (Reads.advance_bind (hc _ hi (by simp)) ?_)
      exact (reads_conditional hexpr hblock hi fuel _).mono fun _ _ h => .choice h
  · next hw =>
      refine Reads.discard_bind (Reads.advance_bind (hc _ hw (by simp)) ?_)
      refine (hexpr _).bind fun condition cs c₁ _ _ hcondition => ?_
      refine (hblock c₁).bind fun body bs _ _ _ hbody => Reads.pure ?_
      rw [List.append_nil]
      exact .whileLoop hw hcondition hbody
  · next hf =>
      refine Reads.discard_bind (Reads.advance_bind (hc _ hf (by simp)) ?_)
      exact reads_iteration hexpr hblock hf _
  · next hr =>
      refine Reads.discard_bind (Reads.advance_bind (hc _ hr (by simp)) ?_)
      exact reads_giveBack hexpr hr _
  · next hname =>
      refine Reads.assignFollows_bind fun b => Reads.ite (fun _ => ?_) fun _ => ?_
      · exact reads_assignment hexpr hname
      · exact reads_bare hexpr c
  · exact reads_bare hexpr c

end

/-- A statement with the semicolon after it, by induction on how deep it may nest. -/
theorem reads_statement {fuel : Nat} {expr : Parser Expr}
    (hexpr : ∀ c, Reads c expr fun e ts => Derives (.expression e) ts) (n : Nat) (c : Cursor) :
    Reads c (statement fuel expr n) fun s ts => Forms (.statement s) ts := by
  induction n generalizing c with
  | zero => exact Reads.exhausted
  | succ n ih =>
      refine (reads_statementBody hexpr (reads_block ih) fuel c).bind fun s ts _ _ _ hs => ?_
      refine Reads.discard_bind (Reads.accept_bind (fun ht => Reads.pure ?_) (Reads.pure ?_))
      · exact .ended hs ht
      · rw [List.append_nil]
        exact .unended hs

/-! ## Programs -/

/-- The statements of a program. -/
theorem reads_wholeProgram (fuel : Nat) (c : Cursor) :
    Reads c (wholeProgram fuel) fun stmts ts => Forms (.sequence stmts) ts := by
  rw [wholeProgram, program_eq]
  exact reads_sequence (reads_statement (reads_expression (reads_unary fuel)) fuel) fuel c

/-- Statements are read until the cursor is where they stop. -/
theorem stop_of_statementsUntil {stop : Cursor → Bool} {fuel n : Nat} {statement : Parser Stmt}
    {stmts : List Stmt} {c c' : Cursor}
    (h : statementsUntil stop fuel statement n c = .ok stmts c') : stop c' = true := by
  induction n generalizing c stmts with
  | zero => contradiction
  | succ n ih =>
      obtain ⟨_, c₁, _, h⟩ := Stateful.bind_eq_ok h
      obtain ⟨_, _, hget, h⟩ := Stateful.bind_eq_ok h
      cases hget
      cases hstop : stop c₁ with
      | true =>
          rw [hstop, if_pos rfl] at h
          cases h
          exact hstop
      | false =>
          rw [hstop, if_neg Bool.false_ne_true] at h
          obtain ⟨s, c₃, _, h⟩ := Stateful.bind_eq_ok h
          obtain ⟨rest, c₄, hrest, h⟩ := Stateful.bind_eq_ok h
          cases h
          exact ih hrest

/-- A program is read up to the end of input. -/
theorem atEnd_of_program_eq_ok {fuel n : Nat} {statement : Parser Stmt} {stmts : List Stmt}
    {c c' : Cursor} (h : program fuel statement n c = .ok stmts c') : c'.atEnd = true := by
  rw [program_eq] at h
  exact stop_of_statementsUntil h

/-- Where the only end of input is the last token, the tokens up to a cursor at
the end of input are all tokens before it. -/
theorem eq_of_atEnd {body ts : List Token} {eoi : Token} {c : Cursor}
    (hbody : ∀ t ∈ body, t.kind ≠ .endOfInput) (hts : ∀ t ∈ ts, t.kind ≠ .endOfInput)
    (hsplit : body ++ [eoi] = ts ++ c.rest) (heoi : eoi.kind = .endOfInput)
    (hend : c.atEnd = true) : ts = body := by
  induction body generalizing ts with
  | nil =>
      cases ts with
      | nil => rfl
      | cons t ts =>
          have ht : eoi = t := (List.cons.inj hsplit).1
          exact absurd heoi (ht ▸ hts t List.mem_cons_self)
  | cons b body ih =>
      cases ts with
      | nil =>
          have hcurrent : c.current = b := by
            unfold Cursor.current
            rw [show c.rest = b :: (body ++ [eoi]) from hsplit.symm]
            rfl
          have hkind : c.current.kind = .endOfInput := by simpa [Cursor.atEnd] using hend
          exact absurd (hcurrent ▸ hkind) (hbody b List.mem_cons_self)
      | cons t ts =>
          obtain ⟨rfl, htail⟩ := List.cons.inj hsplit
          rw [ih (fun u hu => hbody u (List.mem_cons_of_mem b hu))
            (fun u hu => hts u (List.mem_cons_of_mem b hu)) htail]

/-- What an accepted token sequence was read as. -/
theorem run_of_parseTokens_eq_ok {tokens : List Token} {program : List Stmt}
    (h : parseTokens tokens = .ok program) : ∃ c, run tokens = .ok program c := by
  unfold parseTokens at h
  split at h
  · split at h
    · next stmts c hrun =>
        cases h
        exact ⟨c, hrun⟩
    · contradiction
    · contradiction
  · contradiction

/-- What is read up to the only end of input is derived from all tokens before it. -/
theorem forms_of_run {body : List Token} {eoi : Token} {program : List Stmt} {c : Cursor}
    (hbody : ∀ t ∈ body, t.kind ≠ .endOfInput) (heoi : eoi.kind = .endOfInput)
    (h : run (body ++ [eoi]) = .ok program c) : Forms (.sequence program) body := by
  obtain ⟨ts, hrest, _, hends, hforms⟩ := reads_wholeProgram _ _ program c h
  have hts : ts = body := eq_of_atEnd hbody hends hrest heoi (atEnd_of_program_eq_ok h)
  rw [← hts]
  exact hforms

end Parse

/-- **Soundness of the parser**: if a token sequence whose only end of input is
its last token is accepted, the tokens before it are the yield of a derivation
of the statements that it is read as. -/
theorem parseTokens_sound {body : List Token} {eoi : Token} {program : List Stmt}
    (hbody : ∀ t ∈ body, t.kind ≠ .endOfInput) (heoi : eoi.kind = .endOfInput)
    (h : parseTokens (body ++ [eoi]) = .ok program) : Grammar.Forms (.sequence program) body := by
  obtain ⟨c, hrun⟩ := Parse.run_of_parseTokens_eq_ok h
  exact Parse.forms_of_run hbody heoi hrun

/-- An assignment of an integral with its differential, and two semicolons. -/
theorem parseTokens_sound_integral :
    let tok (column : Nat) (kind : Kind) (lexeme : String) : Token := ⟨kind, lexeme, ⟨1, column⟩⟩
    let body : List Token :=
      [tok 1 .identifier "s", tok 3 (.operator .assign) "=", tok 5 (.operator .integral) "∫",
        tok 6 .leftParen "(", tok 7 .identifier "x", tok 9 (.operator .assign) "=",
        tok 11 .identifier "a", tok 13 (.keyword .toKw) "to", tok 16 .identifier "b",
        tok 17 .rightParen ")", tok 19 (.operator .minus) "-", tok 20 .identifier "x",
        tok 22 .identifier "dx", tok 24 .semicolon ";", tok 25 .semicolon ";"]
    let program : List Stmt :=
      [.assign "s" (.aggregate .integral "x" (.variable "a" ⟨1, 11⟩) (.variable "b" ⟨1, 16⟩)
        (.unary .negate (.variable "x" ⟨1, 20⟩) ⟨1, 19⟩) ⟨1, 5⟩) ⟨1, 1⟩]
    parseTokens (body ++ [.finish ⟨1, 26⟩]) = .ok program ∧
      Grammar.Forms (.sequence program) body := by
  intro tok body program
  have h : parseTokens (body ++ [.finish ⟨1, 26⟩]) = .ok program := by decide +kernel
  exact ⟨h, parseTokens_sound (by decide) rfl h⟩

end Abacus
