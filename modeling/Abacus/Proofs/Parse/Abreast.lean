import Abacus.Proofs.Parse.Complete
import Abacus.Proofs.Parse.Coupling
import Abacus.Proofs.Parse.Sound
import Mathlib.Data.Nat.Basic
import Mathlib.Order.Basic

/-!
# Abacus.Proofs.Parse.Abreast

The rules of the grammar side by side.  Every rule is abreast of itself in a coupled
sequence, whatever the places and whatever the fuel, as long as it exceeds the number of
tokens left; so nothing runs out of it.

A semicolon closes a construct as the end of input does.  Only where semicolons are
taken does a cut sequence run ahead: after a statement (`settles_statement`).  Inside of
a block this does not matter, since the first sequence then lacks a brace
(`abreast_block`); at the outermost level the statements before the cut are read as they
are of the first sequence, and the others from there on (`program_of_cut`).
-/

namespace Abacus

namespace Parse

open Coupling

variable {A : Coupling} {k : Nat}

/-! ## Expressions -/

/-- The operators of a level, by induction on the fuel of one side. -/
theorem abreast_operators (level : Level) {operand operand' : Parser Expr}
    (h : A.Abreast k A.exprs operand operand') {n n' : Nat} (hn : k < n) (hn' : k < n')
    {left left' : Expr} (hleft : A.exprs left left') :
    A.Abreast k A.exprs (operators level operand n left) (operators level operand' n' left') := by
  induction n generalizing k n' left left' with
  | zero => contradiction
  | succ n ih =>
      obtain ⟨n', rfl⟩ := Nat.exists_eq_succ_of_ne_zero (Nat.ne_zero_of_lt hn')
      refine Abreast.peek_bind (fun kind lexeme pos pos' hpos => ?_) ?_
      · dsimp only
        cases level.operator? kind with
        | none => exact (Abreast.pure hleft).inside
        | some op =>
            refine Inside.take_bind fun j hj => Abreast.nested _ ?_
            have hright := h.mono hj.le
            refine hright.bind fun right right' he => ih hright (by omega) (by omega) ?_
            simp only [exprs, Expr.relocate] at hleft he ⊢
            rw [hleft, he, hpos]
      · rintro _ _ _ _ _ (rfl | rfl)
        · exact Abreast.pure hleft
        · exact Abreast.pure hleft

/-- All levels, by induction on their list. -/
theorem abreast_climb {fuel fuel' : Nat} {operand operand' : Parser Expr}
    (h : A.Abreast k A.exprs operand operand') (hfuel : k < fuel) (hfuel' : k < fuel')
    (levels : List Level) :
    A.Abreast k A.exprs (climb fuel operand levels) (climb fuel' operand' levels) := by
  induction levels with
  | nil => exact h
  | cons level tighter ih =>
      exact ih.bind fun _ _ hleft => abreast_operators level ih hfuel hfuel' hleft

/-- An expression with its guard against deep nesting. -/
theorem abreast_expression {fuel fuel' : Nat} {unary unary' : Parser Expr}
    (h : A.Abreast k A.exprs unary unary') (hfuel : k < fuel) (hfuel' : k < fuel') :
    A.Abreast k A.exprs (expression fuel unary) (expression fuel' unary') :=
  Abreast.nested _ (abreast_climb h hfuel hfuel' Level.all)

/-- The differential that an integral may end in. -/
theorem abreast_differential (var : String) :
    A.Abreast k Eq (differential var) (differential var) := by
  have hwhole : ∀ x : Parser PUnit, x = x >>= fun _ => pure PUnit.unit :=
    fun x => (bind_pure x).symm
  refine Abreast.sees_bind (by simp) ?_ (Abreast.pure rfl)
  refine Inside.peek_bind fun kind lexeme pos pos' _ => Inside.ite ?_ (Abreast.pure rfl).inside
  rw [hwhole (Functor.discard advance)]
  exact Inside.take_bind fun _ _ => Abreast.pure rfl

section expressions

variable {expr expr' unary unary' : Parser Expr}

/-- The arguments of a call. -/
theorem abreast_arguments (hexpr : A.Abreast k A.exprs expr expr') :
    A.Abreast k (fun es es' => es.map (Expr.relocate A.left) = es'.map (Expr.relocate A.right))
      (arguments expr) (arguments expr') := by
  have hclose : ∀ es es' : List Expr,
      es.map (Expr.relocate A.left) = es'.map (Expr.relocate A.right) →
      A.Abreast k (fun es es' => es.map (Expr.relocate A.left) = es'.map (Expr.relocate A.right))
        (do discard (expect .rightParen .closeArguments); return es)
        (do discard (expect .rightParen .closeArguments); return es') := fun es es' hes =>
    Abreast.skip_bind (by simp) _ fun _ _ => Abreast.pure hes
  refine Abreast.sees_bind (by simp) (hclose [] [] rfl).inside ?_
  exact (Abreast.separated hexpr _ _).bind hclose

/-- An aggregate after its symbol, which was taken: its parts are closer to the end. -/
theorem abreast_aggregate (hexpr : ∀ j < k, A.Abreast j A.exprs expr expr')
    (hunary : ∀ j < k, A.Abreast j A.exprs unary unary') (kind : Aggregate) :
    A.Inside k A.exprs (aggregate expr unary kind) (aggregate expr' unary' kind) := by
  refine Inside.advance_bind fun j hj symbol symbol' hsymbol => ?_
  have hexpr := hexpr j hj
  have hunary := hunary j hj
  have hpos := (tokens_iff.mp hsymbol).2.2
  refine Abreast.skip_bind (by simp) _ fun j₁ h₁ => ?_
  refine Abreast.expect_bind (by simp) _ fun j₂ h₂ var _ _ _ => ?_
  refine Abreast.skip_bind (by simp) _ fun j₃ h₃ => ?_
  refine (hexpr.mono (by omega)).bind fun start start' hstart => ?_
  refine Abreast.skip_bind (by simp) _ fun j₄ h₄ => ?_
  refine (hexpr.mono (by omega)).bind fun stop stop' hstop => ?_
  refine Abreast.skip_bind (by simp) _ fun j₅ h₅ => ?_
  refine (hunary.mono (by omega)).bind fun body body' hbody => ?_
  have htree : A.exprs (.aggregate kind var start stop body symbol.pos)
      (.aggregate kind var start' stop' body' symbol'.pos) := by
    simp only [exprs, Expr.relocate] at hstart hstop hbody ⊢
    rw [hstart, hstop, hbody, hpos]
  refine Abreast.ite ?_ (Abreast.pure htree)
  exact (abreast_differential var).bind_eq fun _ => Abreast.pure htree

/-- A primary expression: a case for each kind of its first token. -/
theorem abreast_primary (hexpr : ∀ j < k, A.Abreast j A.exprs expr expr')
    (hunary : ∀ j < k, A.Abreast j A.exprs unary unary') :
    A.Abreast k A.exprs (primary expr unary) (primary expr' unary') := by
  refine Abreast.peek_bind (fun kind lexeme pos pos' hpos => ?_) ?_
  · dsimp only
    split
    · refine Inside.take_bind fun j hj => ?_
      cases Number.read? lexeme with
      | some n => exact Abreast.pure rfl
      | none => exact fun _ _ _ _ _ => .fault (relocate_atToken (tokens_mk hpos) _)
    · exact Inside.take_bind fun _ _ => Abreast.pure rfl
    · exact Inside.take_bind fun _ _ => Abreast.pure rfl
    · exact Inside.take_bind fun _ _ => Abreast.pure rfl
    · refine Inside.take_bind fun j hj => Abreast.accept_bind (by simp) (fun i hi => ?_) ?_
      · refine (abreast_arguments (hexpr i (by omega))).bind fun es es' hes => Abreast.pure ?_
        rw [exprs, Expr.relocate_call, Expr.relocate_call, hes, hpos]
      · refine Abreast.pure ?_
        simp only [exprs, Expr.relocate, hpos]
    · refine Inside.take_bind fun j hj => (hexpr j hj).bind fun e e' he => ?_
      exact Abreast.skip_bind (by simp) _ fun _ _ => Abreast.pure he
    · split
      · exact abreast_aggregate hexpr hunary _
      · exact (Abreast.fail _).inside
    · exact (Abreast.fail _).inside
  · rintro _ _ _ _ _ (rfl | rfl)
    · exact Abreast.fail _
    · exact Abreast.fail _

end expressions

/-- Unary expressions, by induction on the fuel of one side. -/
theorem abreast_unary {n n' : Nat} (hn : k < n) (hn' : k < n') :
    A.Abreast k A.exprs (unary n) (unary n') := by
  induction n generalizing k n' with
  | zero => contradiction
  | succ n ih =>
      obtain ⟨n', rfl⟩ := Nat.exists_eq_succ_of_ne_zero (Nat.ne_zero_of_lt hn')
      have hunary : ∀ j < k, A.Abreast j A.exprs (unary n) (unary n') :=
        fun j hj => ih (by omega) (by omega)
      have hprimary : A.Abreast k A.exprs (primary (expression n (unary n)) (unary n))
          (primary (expression n' (unary n')) (unary n')) :=
        abreast_primary (fun j hj => abreast_expression (hunary j hj) (by omega) (by omega)) hunary
      refine Abreast.peek_bind (fun kind lexeme pos pos' hpos => ?_) ?_
      · dsimp only
        cases kind.unaryOp? with
        | some op =>
            refine Inside.take_bind fun j hj => ?_
            refine (Abreast.nested _ (hunary j hj)).bind fun e e' he => Abreast.pure ?_
            simp only [exprs, Expr.relocate] at he ⊢
            rw [he, hpos]
        | none => exact hprimary.inside
      · rintro _ _ _ _ _ (rfl | rfl)
        · exact hprimary.mono (Nat.zero_le k)
        · exact hprimary.mono (Nat.zero_le k)

/-! ## Statements -/

section statements

variable {expr expr' : Parser Expr} {block block' : Parser (List Stmt)}

/-- A function definition after its keyword. -/
theorem abreast_definition (hblock : A.Abreast k A.bodies block block') {pos pos' : Position}
    (hpos : A.left pos = A.right pos') :
    A.Abreast k A.stmts (definition block pos) (definition block' pos') := by
  refine Abreast.expect_bind (by simp) _ fun j₁ h₁ name _ _ _ => ?_
  refine Abreast.skip_bind (by simp) _ fun j₂ h₂ => ?_
  have hbody : ∀ params params' : List Token,
      params.map (Token.relocate A.left) = params'.map (Token.relocate A.right) →
      A.Abreast j₂ A.stmts
        (do
          discard (expect .rightParen .closeParameters)
          let body ← block
          return .function name (params.map Token.lexeme) body pos)
        (do
          discard (expect .rightParen .closeParameters)
          let body ← block'
          return .function name (params'.map Token.lexeme) body pos') := by
    intro params params' hparams
    have hnames : params.map Token.lexeme = params'.map Token.lexeme := by
      have hlexemes := congrArg (List.map Token.lexeme) hparams
      rwa [List.map_map, List.map_map] at hlexemes
    refine Abreast.skip_bind (by simp) _ fun j₃ h₃ => ?_
    refine (hblock.mono (by omega)).bind fun body body' hbody => Abreast.pure ?_
    rw [bodies] at hbody
    rw [stmts, Stmt.relocate_function, Stmt.relocate_function, hnames, hbody, hpos]
  refine Abreast.sees_bind (by simp) (hbody [] [] rfl).inside ?_
  exact (Abreast.separated (Abreast.expect (by simp) _) _ _).bind hbody

/-- A conditional, by induction on the fuel of one side. -/
theorem abreast_conditional (hexpr : A.Abreast k A.exprs expr expr')
    (hblock : A.Abreast k A.bodies block block') {n n' : Nat} (hn : k < n) (hn' : k < n')
    {pos pos' : Position} (hpos : A.left pos = A.right pos') :
    A.Abreast k A.stmts (conditional expr block n pos) (conditional expr' block' n' pos') := by
  induction n generalizing k n' pos pos' with
  | zero => contradiction
  | succ n ih =>
      obtain ⟨n', rfl⟩ := Nat.exists_eq_succ_of_ne_zero (Nat.ne_zero_of_lt hn')
      refine hexpr.bind fun e e' he => hblock.bind fun body body' hbody => ?_
      rw [exprs] at he
      rw [bodies] at hbody
      refine Abreast.accept_bind (by simp) (fun j hj => ?_) (Abreast.pure ?_)
      · have hother : A.Abreast j A.stmts
            (do let other ← block; return .ifElse e body other pos)
            (do let other ← block'; return .ifElse e' body' other pos') := by
          refine (hblock.mono hj.le).bind fun other other' hother => Abreast.pure ?_
          rw [bodies] at hother
          rw [stmts, Stmt.relocate_ifElse, Stmt.relocate_ifElse, he, hbody, hother, hpos]
        refine Abreast.peek_bind (fun _ _ next next' hnext => ?_) ?_
        · refine (Abreast.accept_bind (by simp) (fun i hi => ?_) hother).inside
          have hchained := ih (hexpr.mono (by omega)) (hblock.mono (by omega))
            (show i < n by omega) (show i < n' by omega) hnext
          refine (Abreast.nested _ hchained).bind fun s s' hs => Abreast.pure ?_
          rw [stmts] at hs
          simp only [stmts, Stmt.relocate_ifElse, he, hbody, List.map_cons, List.map_nil, hs, hpos]
        · -- at the end no conditional follows, so its place is not used
          intro _ _ _ _ _ _
          exact Abreast.accept_bind (by simp) (fun i hi => by contradiction)
            (hother.mono (Nat.zero_le j))
      · rw [stmts, Stmt.relocate_ifThen, Stmt.relocate_ifThen, he, hbody, hpos]

/-- A while or for loop after its keyword. -/
theorem abreast_iteration (hexpr : A.Abreast k A.exprs expr expr')
    (hblock : A.Abreast k A.bodies block block') {pos pos' : Position}
    (hpos : A.left pos = A.right pos') :
    A.Abreast k A.stmts (iteration expr block pos) (iteration expr' block' pos') := by
  refine Abreast.expect_bind (by simp) _ fun j₁ h₁ var _ _ _ => ?_
  refine Abreast.skip_bind (by simp) _ fun j₂ h₂ => ?_
  refine (hexpr.mono (by omega)).bind fun e e' he => ?_
  refine (hblock.mono (by omega)).bind fun body body' hbody => Abreast.pure ?_
  rw [exprs] at he
  rw [bodies] at hbody
  rw [stmts, Stmt.relocate_forLoop, Stmt.relocate_forLoop, he, hbody, hpos]

/-- A return takes a value on both sides or on neither. -/
theorem abreast_giveBack (hexpr : A.Abreast k A.exprs expr expr') {pos pos' : Position}
    (hpos : A.left pos = A.right pos') :
    A.Abreast k A.stmts (giveBack expr pos) (giveBack expr' pos') := by
  have hnothing : A.Abreast k A.stmts (pure (.giveBack none pos)) (pure (.giveBack none pos')) := by
    refine Abreast.pure ?_
    simp only [stmts, Stmt.relocate, hpos, Option.map_none]
  have hvalue : A.Abreast k A.stmts (do let value ← expr; return .giveBack (some value) pos)
      (do let value ← expr'; return .giveBack (some value) pos') := by
    refine hexpr.bind fun e e' he => Abreast.pure ?_
    rw [exprs] at he
    simp only [stmts, Stmt.relocate, hpos, Option.map_some, he]
  intro j hj c c' hc
  have hlook : ∀ (expr : Parser Expr) (pos : Position) (c : Cursor), giveBack expr pos c =
      (if c.sees .rightBrace || c.sees .semicolon || c.atEnd then pure (.giveBack none pos)
        else do let value ← expr; return .giveBack (some value) pos : Parser Stmt) c :=
    fun _ _ _ => rfl
  rw [hlook, hlook, ← hc.returns_eq]
  exact Abreast.ite hnothing hvalue j hj c c' hc

/-- An assignment whose name is seen. -/
theorem abreast_assignment (hexpr : A.Abreast k A.exprs expr expr') :
    A.Inside k A.stmts (assignment expr) (assignment expr') := by
  refine Inside.advance_bind fun j hj name name' hname => ?_
  refine Abreast.skip_bind (by simp) _ fun i hi => ?_
  refine (hexpr.mono (by omega)).bind fun e e' he => Abreast.pure ?_
  obtain ⟨_, hlexeme, hpos⟩ := tokens_iff.mp hname
  rw [exprs] at he
  simp only [stmts, Stmt.relocate, he, hlexeme, hpos]

/-- An expression as a statement. -/
theorem abreast_bare (hexpr : A.Abreast k A.exprs expr expr') :
    A.Abreast k A.stmts (bare expr) (bare expr') := by
  refine hexpr.bind fun e e' he => Abreast.pure ?_
  rw [exprs] at he
  simp only [stmts, Stmt.relocate, he]

/-- The body of a statement: a case for each kind of its first token. -/
theorem abreast_statementBody (hexpr : A.Abreast k A.exprs expr expr')
    (hblock : A.Abreast k A.bodies block block') {fuel fuel' : Nat} (hfuel : k < fuel)
    (hfuel' : k < fuel') :
    A.Abreast k A.stmts (statementBody fuel expr block) (statementBody fuel' expr' block') := by
  refine Abreast.peek_bind (fun kind lexeme pos pos' hpos => ?_) ?_
  · dsimp only
    split
    · exact Inside.take_bind fun j hj => abreast_definition (hblock.mono hj.le) hpos
    · refine Inside.take_bind fun j hj => ?_
      exact abreast_conditional (hexpr.mono hj.le) (hblock.mono hj.le) (by omega) (by omega) hpos
    · refine Inside.take_bind fun j hj => (hexpr.mono hj.le).bind fun e e' he => ?_
      refine (hblock.mono hj.le).bind fun body body' hbody => Abreast.pure ?_
      rw [exprs] at he
      rw [bodies] at hbody
      rw [stmts, Stmt.relocate_whileLoop, Stmt.relocate_whileLoop, he, hbody, hpos]
    · exact Inside.take_bind fun j hj =>
        abreast_iteration (hexpr.mono hj.le) (hblock.mono hj.le) hpos
    · exact Inside.take_bind fun j hj => abreast_giveBack (hexpr.mono hj.le) hpos
    · exact Inside.assignFollows_bind fun _ =>
        Inside.ite (abreast_assignment hexpr) (abreast_bare hexpr).inside
    · exact (abreast_bare hexpr).inside
  · rintro _ _ _ _ _ (rfl | rfl)
    · exact (abreast_bare hexpr).mono (Nat.zero_le k)
    · exact (abreast_bare hexpr).mono (Nat.zero_le k)

end statements

/-! ## Loops over statements -/

/- The loops read semicolons, look for their end, and read a statement.  A cut sequence is
where they part: at its end the first sequence stops and the second goes on.  Inside of a
block `trails_statementsUntil` is enough, since the first sequence is then at fault.  At the
outermost level `statementsUntil_of_cut` says more: what the second loop gives is what the
first one gives, followed by what the rest is read as. -/

/-- With enough fuel every semicolon in front is taken. -/
theorem skipSeparators_eq {n : Nat} {c : Cursor} (h : c.rest.length < n) :
    skipSeparators n c = .ok () c.unseparated := by
  induction n generalizing c with
  | zero => contradiction
  | succ n ih =>
      obtain ⟨rest, m⟩ := c
      rw [skipSeparators]
      by_cases hsep : ∃ t ts, rest = t :: ts ∧ t.kind = .semicolon
      · obtain ⟨t, ts, rfl, ht⟩ := hsep
        have hsees : (⟨t :: ts, m⟩ : Cursor).sees .semicolon = true := Cursor.sees_cons ht (by simp)
        rw [Stateful.bind_of_ok _ (accept_of_sees hsees), Cursor.forward_cons (by simp [ht]),
          if_pos rfl, ih (by simpa using h), Cursor.unseparated, Cursor.unseparated,
          List.dropWhile_cons_of_pos (by simp [Token.isSeparator, ht])]
      · have hsees : (⟨rest, m⟩ : Cursor).sees .semicolon = false := by
          cases rest with
          | nil => rfl
          | cons t ts => exact Cursor.sees_of_ne fun ht => hsep ⟨t, ts, rfl, ht⟩
        have hdrop : rest.dropWhile Token.isSeparator = rest := by
          cases rest with
          | nil => rfl
          | cons t ts =>
              refine List.dropWhile_cons_of_neg fun ht => hsep ⟨t, ts, rfl, ?_⟩
              simpa [Token.isSeparator] using ht
        rw [Stateful.bind_of_ok _ (accept_of_not_sees hsees), if_neg Bool.false_ne_true,
          Cursor.unseparated, hdrop]
        rfl

/-- One round of the loop over statements, with enough fuel for the semicolons. -/
theorem statementsUntil_succ (stop : Cursor → Bool) {fuel : Nat} (statement : Parser Stmt) (n : Nat)
    {c : Cursor} (h : c.rest.length < fuel) :
    statementsUntil stop fuel statement (n + 1) c =
      (if stop c.unseparated then pure []
        else do
          let s ← statement
          let rest ← statementsUntil stop fuel statement n
          return s :: rest : Parser (List Stmt)) c.unseparated := by
  rw [statementsUntil, Stateful.bind_of_ok _ (skipSeparators_eq h)]
  rfl

/-- At the end no statement is read, whatever the fuel. -/
theorem statementsUntil_atEnd {stop : Cursor → Bool}
    (hstop : ∀ c : Cursor, c.atEnd = true → stop c = true) {fuel n : Nat}
    {statement : Parser Stmt} {c c' : Cursor} {ss : List Stmt} (hc : c.atEnd = true)
    (h : statementsUntil stop fuel statement n c = .ok ss c') : ss = [] ∧ c' = c := by
  cases n with
  | zero => contradiction
  | succ n =>
      obtain ⟨_, c₁, hskip, hrest⟩ := Stateful.bind_eq_ok h
      have hsees : c.sees .semicolon = false := by rw [Cursor.sees, hc]; rfl
      obtain rfl : c₁ = c := by
        cases fuel with
        | zero => contradiction
        | succ fuel =>
            rw [skipSeparators, Stateful.bind_of_ok _ (accept_of_not_sees hsees),
              if_neg Bool.false_ne_true] at hskip
            cases hskip
            rfl
      obtain ⟨_, _, hget, hrest⟩ := Stateful.bind_eq_ok hrest
      cases hget
      rw [hstop c₁ hc, if_pos rfl] at hrest
      cases hrest
      exact ⟨rfl, rfl⟩

section loops

variable {fuel fuel' : Nat} {statement statement' : Parser Stmt}

/-- Each statement takes a token and leaves the nesting as it was. -/
def Proceeds (statement : Parser Stmt) : Prop :=
  ∀ c s c', statement c = .ok s c' → c'.rest.length < c.rest.length ∧ c'.nesting = c.nesting

/-- After a statement at the end the first sequence stays there. -/
theorem trails_of_atEnd {stop : Cursor → Bool}
    (hend : ∀ c : Cursor, c.atEnd = true → stop c = true) (hcut : A.Cut) {n : Nat} {c : Cursor}
    (hc : c.atEnd = true) {s : Stmt} {r' : EStateM.Result ParseStop Cursor (List Stmt)} :
    A.Trails k A.bodies ((do
      let rest ← statementsUntil stop fuel statement n
      return s :: rest : Parser (List Stmt)) c) r' := by
  cases hr : statementsUntil stop fuel statement n c with
  | ok ss c' =>
      obtain ⟨rfl, rfl⟩ := statementsUntil_atEnd hend hc hr
      rw [Stateful.bind_of_ok _ hr]
      exact .ended hcut hc
  | error e c' =>
      rw [Stateful.bind_of_error _ hr]
      exact .agrees (.cut hcut)

/-- After a statement the loops trail if they do wherever both come to. -/
theorem trails_statement {loop loop' : Parser (List Stmt)} {i : Nat} {c c' : Cursor}
    (h : A.Settles i A.stmts (statement c) (statement' c'))
    (hloop : ∀ j s c₁ c₁', statement c = .ok s c₁ → A.Beside j c₁ c₁' →
      j ≤ k ∧ A.Trails j A.bodies (loop c₁) (loop' c₁'))
    (hended : ∀ s c₁ r', A.Cut → c₁.atEnd = true → A.Trails k A.bodies
      ((do let rest ← loop; return s :: rest : Parser (List Stmt)) c₁) r') :
    A.Trails k A.bodies
      ((do let s ← statement; let rest ← loop; return s :: rest : Parser (List Stmt)) c)
      ((do let s ← statement'; let rest ← loop'; return s :: rest : Parser (List Stmt)) c') := by
  generalize hr : statement c = r, hr' : statement' c' = r' at h
  cases h with
  | agrees h =>
      cases h with
      | ok _ hc₁ hs =>
          obtain ⟨hj, htrails⟩ := hloop _ _ _ _ hr hc₁
          rw [Stateful.bind_of_ok _ hr, Stateful.bind_of_ok _ hr']
          exact htrails.cons hj hs
      | fault he =>
          rw [Stateful.bind_of_error _ hr, Stateful.bind_of_error _ hr']
          exact .agrees (.fault he)
      | cut hcut =>
          rw [Stateful.bind_of_error _ hr]
          exact .agrees (.cut hcut)
  | past hcut hc₁ _ =>
      rw [Stateful.bind_of_ok _ hr]
      exact hended _ _ _ hcut hc₁

/-- Statements up to a brace are read abreast, unless the first sequence ends there. -/
theorem trails_statementsUntil {stop : Cursor → Bool}
    (hend : ∀ c : Cursor, c.atEnd = true → stop c = true)
    (hstop : ∀ k c c', A.Beside (k + 1) c c' → stop c = stop c')
    (hproceeds : Proceeds statement) {n n' : Nat} (hn : k < n) (hn' : k < n')
    (hfuel : A.Ample k fuel fuel')
    (hstatement : ∀ j ≤ k, ∀ c c', A.Beside j c c' →
      A.Settles j A.stmts (statement c) (statement' c')) {c c' : Cursor} (hc : A.Beside k c c') :
    A.Trails k A.bodies (statementsUntil stop fuel statement n c)
      (statementsUntil stop fuel' statement' n' c') := by
  induction n generalizing k n' c c' with
  | zero => contradiction
  | succ n ih =>
      obtain ⟨n', rfl⟩ := Nat.exists_eq_succ_of_ne_zero (Nat.ne_zero_of_lt hn')
      obtain ⟨hlength, hlength'⟩ := hc.rest.length
      rw [statementsUntil_succ stop statement n (hlength ▸ hfuel.left),
        statementsUntil_succ stop statement' n' (hlength' ▸ hfuel.right)]
      obtain ⟨i, hi, hc₁, hcut⟩ | ⟨hcut, hatEnd, _⟩ := hc.unseparated
      · generalize c.unseparated = c₁, c'.unseparated = c₁' at hc₁ ⊢
        cases i with
        | zero =>
            have hends : A.tokens A.ending A.ending' :=
              A.closes.resolve_right fun h => absurd (hcut h) (Nat.lt_irrefl 0)
            have hc₁' : c₁'.atEnd = true := by
              rw [Cursor.atEnd, hc₁.current_zero.2, ← (tokens_iff.mp hends).1, A.kind_ending]
              rfl
            rw [hend c₁ hc₁.atEnd_zero, hend c₁' hc₁', if_pos rfl, if_pos rfl]
            exact .agrees (.ok hi hc₁ rfl)
        | succ i =>
            rw [hstop i c₁ c₁' hc₁]
            cases stop c₁' with
            | true => exact .agrees (.ok hi hc₁ rfl)
            | false =>
                refine trails_statement (hstatement (i + 1) hi c₁ c₁' hc₁) ?_
                  fun s c₂ r' hcut hc₂ => trails_of_atEnd hend hcut hc₂
                intro j s c₂ c₂' hs hc₂
                have hlt := (hproceeds _ _ _ hs).1
                rw [hc₂.rest.length.1, hc₁.rest.length.1] at hlt
                have hle : j ≤ k := by omega
                exact ⟨hle, ih (by omega) (by omega) (hfuel.mono hle)
                  (fun j' hj' => hstatement j' (Nat.le_trans hj' hle)) hc₂⟩
      · rw [hend _ hatEnd, if_pos rfl]
        exact .ended hcut hatEnd

/-- Of statements that are cut, those before the cut are read as they are of the first
sequence, and the others after the semicolon. -/
theorem statementsUntil_of_cut (hcut : A.Cut) (hproceeds : Proceeds statement)
    (hfuel : A.Ample k fuel fuel')
    (hstatement : ∀ j ≤ k, ∀ c c', A.Beside j c c' →
      A.Settles j A.stmts (statement c) (statement' c'))
    {n n' : Nat} (hn' : k + 1 + A.beyond'.length < n') {c c' d : Cursor} (hc : A.Beside k c c')
    {ss : List Stmt} (h : statementsUntil Cursor.atEnd fuel statement n c = .ok ss d) :
    ∃ ss' m, A.bodies ss ss' ∧ A.beyond'.length < m ∧
      statementsUntil Cursor.atEnd fuel' statement' n' c' =
        (do
          let rest ← statementsUntil Cursor.atEnd fuel' statement' m
          return ss' ++ rest : Parser (List Stmt)) ⟨A.beyond', c'.nesting⟩ := by
  induction n generalizing k n' c c' ss with
  | zero => contradiction
  | succ n ih =>
      obtain ⟨n', rfl⟩ := Nat.exists_eq_succ_of_ne_zero (Nat.ne_zero_of_lt hn')
      obtain ⟨hlength, hlength'⟩ := hc.rest.length
      rw [statementsUntil_succ _ statement n (hlength ▸ hfuel.left)] at h
      rw [statementsUntil_succ _ statement' n' (hlength' ▸ hfuel.right)]
      obtain ⟨i, hi, hc₁, hpos⟩ | ⟨_, hatEnd, hpast⟩ := hc.unseparated
      · obtain ⟨i, rfl⟩ := Nat.exists_eq_succ_of_ne_zero (Nat.ne_zero_of_lt (hpos hcut))
        have hnesting : c.unseparated.nesting = c'.nesting := hc.nesting
        generalize c.unseparated = c₁, c'.unseparated = c₁' at hc₁ hnesting h ⊢
        rw [hc₁.atEnd_succ.1, if_neg Bool.false_ne_true] at h
        rw [hc₁.atEnd_succ.2, if_neg Bool.false_ne_true]
        obtain ⟨s, c₂, hs, h⟩ := Stateful.bind_eq_ok h
        obtain ⟨rest, c₃, hrest, h⟩ := Stateful.bind_eq_ok h
        cases h
        obtain ⟨hlt, hnesting₂⟩ := hproceeds _ _ _ hs
        have hsettles := hstatement (i + 1) hi c₁ c₁' hc₁
        rw [hs] at hsettles
        generalize hs' : statement' c₁' = r' at hsettles
        cases hsettles with
        | agrees hagrees =>
            cases hagrees with
            | @ok j _ s' _ c₂' _ hc₂ hss =>
                rw [hc₂.rest.length.1, hc₁.rest.length.1] at hlt
                have hle : j ≤ k := by omega
                obtain ⟨ss', m, hbodies, hm, hread⟩ := ih (hfuel.mono hle)
                  (fun j' hj' => hstatement j' (Nat.le_trans hj' hle))
                  (show j + 1 + A.beyond'.length < n' by omega) hc₂ hrest
                refine ⟨s' :: ss', m, bodies_cons hss hbodies, hm, ?_⟩
                rw [← hc₂.nesting, hnesting₂, hnesting] at hread
                rw [Stateful.bind_of_ok _ hs', Stateful.bind_of_eq _ hread]
                simp only [bind_assoc, pure_bind, List.cons_append]
        | @past _ s' _ _ hc₂ hss =>
            obtain ⟨rfl, _⟩ := statementsUntil_atEnd (fun _ h => h) hc₂ hrest
            refine ⟨[s'], n', bodies_cons hss rfl, by omega, ?_⟩
            rw [Stateful.bind_of_ok _ hs', hnesting₂, hnesting]
            rfl
      · rw [hatEnd, if_pos rfl] at h
        cases h
        have hlt : A.beyond'.length < fuel' := by have := hfuel.right; omega
        refine ⟨[], n' + 1, rfl, by omega, ?_⟩
        rw [hpast, ← statementsUntil_succ _ statement' n' hlt]
        simp only [List.nil_append, bind_pure]

theorem sees_rightBrace_or_atEnd {c : Cursor} (h : c.atEnd = true) :
    (c.sees .rightBrace || c.atEnd) = true := by
  rw [h, Bool.or_true]

/-- A block. If the second sequence is cut inside of it, the first one lacks the closing
brace, and nothing is said of the other. -/
theorem abreast_block (hproceeds : Proceeds statement) (hfuel : A.Ample k fuel fuel')
    (hstatement : ∀ j < k, ∀ c c', A.Beside j c c' →
      A.Settles j A.stmts (statement c) (statement' c')) :
    A.Abreast k A.bodies (block fuel statement) (block fuel' statement') := by
  have hstop : ∀ k c c', A.Beside (k + 1) c c' →
      (c.sees .rightBrace || c.atEnd) = (c'.sees .rightBrace || c'.atEnd) := by
    intro k c c' hc
    rw [hc.sees_succ, hc.atEnd_succ.1, hc.atEnd_succ.2]
  unfold block
  rw [statements_eq, statements_eq]
  refine Abreast.skip_bind (by simp) _ fun j hj => Abreast.nested _ fun i hi c c' hc => ?_
  have hample := hfuel.mono (show i ≤ k by omega)
  have hbody := trails_statementsUntil (fun _ => sees_rightBrace_or_atEnd) hstop hproceeds
    (show i < fuel by have := hample.left; omega) (show i < fuel' by have := hample.right; omega)
    hample (fun j' hj' => hstatement j' (by omega)) hc
  generalize hr : statementsUntil _ fuel statement fuel c = r,
    hr' : statementsUntil _ fuel' statement' fuel' c' = r' at hbody
  cases hbody with
  | agrees hbody =>
      cases hbody with
      | @ok i' body body' _ _ hi' hc₁ hss =>
          rw [Stateful.bind_of_ok _ hr, Stateful.bind_of_ok _ hr']
          have hclose : A.Abreast i' A.bodies
              (do discard (expect .rightBrace .closeBlock); return body)
              (do discard (expect .rightBrace .closeBlock); return body') :=
            Abreast.skip_bind (by simp) _ fun _ _ => Abreast.pure hss
          exact (hclose i' (Nat.le_refl i') _ _ hc₁).mono hi'
      | fault he =>
          rw [Stateful.bind_of_error _ hr, Stateful.bind_of_error _ hr']
          exact .fault he
      | cut hcut =>
          rw [Stateful.bind_of_error _ hr]
          exact .cut hcut
  | @ended _ c₁ _ hcut hc₁ =>
      -- the first sequence lacks the closing brace
      have hsees : c₁.sees .rightBrace = false := by rw [Cursor.sees, hc₁]; rfl
      rw [Stateful.bind_of_ok _ hr, Stateful.discard_bind,
        Stateful.bind_of_error _ (expect_of_not_sees .closeBlock hsees)]
      exact .cut hcut

end loops

/-! ## Progress -/

open Grammar in
/-- No expression is empty. -/
theorem ne_nil_of_derives {e : Expr} {ts : List Token} (h : Derives (.expression e) ts) : ts ≠ [] :=
  Opens.ne_nil (starts_of_derives h)

open Grammar in
/-- No conditional is empty. -/
theorem ne_nil_of_conditional {s : Stmt} {ts : List Token} (h : Forms (.conditional s) ts) :
    ts ≠ [] := by
  cases h <;> exact List.cons_ne_nil _ _

open Grammar in
/-- No statement is empty. -/
theorem ne_nil_of_bare {s : Stmt} {ts : List Token} (h : Forms (.bare s) ts) : ts ≠ [] := by
  cases h with
  | choice h => exact ne_nil_of_conditional h
  | expression h => exact ne_nil_of_derives h
  | _ => exact List.cons_ne_nil _ _

open Grammar in
/-- A statement has tokens. -/
theorem ne_nil_of_statement {s : Stmt} {ts : List Token} (h : Forms (.statement s) ts) :
    ts ≠ [] := by
  cases h with
  | unended h => exact ne_nil_of_bare h
  | ended h _ => exact List.append_ne_nil_of_left_ne_nil (ne_nil_of_bare h) _

open Grammar in
/-- A statement takes at least one token and gives back every level of nesting. -/
theorem proceeds_statement {fuel : Nat} {expr : Parser Expr}
    (hexpr : ∀ c, Reads c expr fun e ts => Derives (.expression e) ts) (n : Nat) :
    Proceeds (statement fuel expr n) := by
  intro c s c' h
  obtain ⟨ts, hrest, hnesting, _, hforms⟩ := reads_statement hexpr n c s c' h
  have hpos := List.length_pos_iff.mpr (ne_nil_of_statement hforms)
  refine ⟨?_, hnesting⟩
  rw [hrest, List.length_append]
  omega

/-! ## Whole programs -/

/-- The semicolon after a statement is taken on both sides or on none; at the end, only
one that cuts the second sequence is. -/
theorem settles_semicolon {i j : Nat} {c c' : Cursor} (hc : A.Beside i c c') (hi : i ≤ j)
    {s s' : Stmt} (hs : A.stmts s s') :
    A.Settles j A.stmts ((do discard (accept .semicolon); return s : Parser Stmt) c)
      ((do discard (accept .semicolon); return s' : Parser Stmt) c') := by
  rw [Stateful.discard_bind, Stateful.discard_bind]
  cases i with
  | succ i =>
      have hsame := hc.sees_succ .semicolon
      cases hsees : c.sees .semicolon with
      | true =>
          rw [Stateful.bind_of_ok _ (accept_of_sees hsees),
            Stateful.bind_of_ok _ (accept_of_sees (hsame ▸ hsees))]
          exact .agrees (.ok (by omega) hc.forward hs)
      | false =>
          rw [Stateful.bind_of_ok _ (accept_of_not_sees hsees),
            Stateful.bind_of_ok _ (accept_of_not_sees (hsame ▸ hsees))]
          exact .agrees (.ok hi hc hs)
  | zero =>
      have hsees : c.sees .semicolon = false := by rw [Cursor.sees, hc.atEnd_zero]; rfl
      rw [Stateful.bind_of_ok _ (accept_of_not_sees hsees)]
      obtain hends | hcut := A.closes
      · have hsees' := hc.sees_semicolon_of_tokens hends
        rw [Stateful.bind_of_ok _ (accept_of_not_sees hsees')]
        exact .agrees (.ok hi hc hs)
      · obtain ⟨hsees', hforward⟩ := hc.forward_of_cut hcut
        rw [Stateful.bind_of_ok _ (accept_of_sees hsees'), hforward]
        exact .past hcut hc.atEnd_zero hs

/-- A statement is read abreast, up to the semicolon after it. -/
theorem settles_statement {fuel fuel' : Nat} (hfuel : A.Ample k fuel fuel') {n n' : Nat}
    (hn : k < n) (hn' : k < n') {expr expr' : Parser Expr}
    (hreads : ∀ c, Reads c expr fun e ts => Grammar.Derives (.expression e) ts)
    (hexpr : A.Abreast k A.exprs expr expr') {j : Nat} (hj : j ≤ k) {c c' : Cursor}
    (hc : A.Beside j c c') :
    A.Settles j A.stmts (statement fuel expr n c) (statement fuel' expr' n' c') := by
  induction n generalizing k n' j c c' with
  | zero => contradiction
  | succ n ih =>
      obtain ⟨n', rfl⟩ := Nat.exists_eq_succ_of_ne_zero (Nat.ne_zero_of_lt hn')
      have hblock : A.Abreast k A.bodies (block fuel (statement fuel expr n))
          (block fuel' (statement fuel' expr' n')) :=
        abreast_block (proceeds_statement hreads n) hfuel fun i hi c c' hc =>
          ih (hfuel.mono hi.le) (by omega) (by omega) (hexpr.mono hi.le) (Nat.le_refl i) hc
      have hbody := abreast_statementBody hexpr hblock
        (show k < fuel by have := hfuel.left; omega)
        (show k < fuel' by have := hfuel.right; omega) j hj c c' hc
      rw [statement, statement]
      generalize hr : statementBody fuel expr _ c = r,
        hr' : statementBody fuel' expr' _ c' = r' at hbody
      cases hbody with
      | fault he =>
          rw [Stateful.bind_of_error _ hr, Stateful.bind_of_error _ hr']
          exact .agrees (.fault he)
      | cut hcut =>
          rw [Stateful.bind_of_error _ hr]
          exact .agrees (.cut hcut)
      | @ok i s s' c₁ c₁' hi hc₁ hs =>
          rw [Stateful.bind_of_ok _ hr, Stateful.bind_of_ok _ hr']
          exact settles_semicolon hc₁ hi hs

/-- The statements of programs are read abreast. -/
theorem settles_whole {fuel fuel' : Nat} (hfuel : A.Ample k fuel fuel') :
    Proceeds (statement fuel (expression fuel (unary fuel)) fuel) ∧
    ∀ j ≤ k, ∀ c c', A.Beside j c c' → A.Settles j A.stmts
      (statement fuel (expression fuel (unary fuel)) fuel c)
      (statement fuel' (expression fuel' (unary fuel')) fuel' c') := by
  have hlt : k < fuel := by have := hfuel.left; omega
  have hlt' : k < fuel' := by have := hfuel.right; omega
  have hreads : ∀ c, Reads c (expression fuel (unary fuel)) fun e ts =>
      Grammar.Derives (.expression e) ts := reads_expression (reads_unary fuel)
  have hexpr : A.Abreast k A.exprs (expression fuel (unary fuel))
      (expression fuel' (unary fuel')) :=
    abreast_expression (abreast_unary hlt hlt') hlt hlt'
  exact ⟨proceeds_statement hreads fuel, fun _ hj _ _ hc =>
    settles_statement hfuel hlt hlt' hreads hexpr hj hc⟩

/-- Programs that are not cut are read abreast. -/
theorem agrees_program (hends : A.tokens A.ending A.ending') {fuel fuel' : Nat}
    (hfuel : A.Ample k fuel fuel') {n n' : Nat} (hn : k < n) (hn' : k < n') {c c' : Cursor}
    (hc : A.Beside k c c') :
    A.Agrees k A.bodies
      (program fuel (statement fuel (expression fuel (unary fuel)) fuel) n c)
      (program fuel' (statement fuel' (expression fuel' (unary fuel')) fuel') n' c') := by
  obtain ⟨hproceeds, hstatement⟩ := settles_whole hfuel
  rw [program_eq, program_eq]
  have hstop : ∀ k c c', A.Beside (k + 1) c c' → c.atEnd = c'.atEnd :=
    fun _ _ _ hc => hc.atEnd_succ.1.trans hc.atEnd_succ.2.symm
  have htrails := trails_statementsUntil (fun _ h => h) hstop hproceeds hn hn' hfuel hstatement hc
  generalize statementsUntil _ fuel _ n c = r, statementsUntil _ fuel' _ n' c' = r' at htrails ⊢
  cases htrails with
  | agrees h => exact h
  | ended hcut _ => exact absurd hcut (not_cut_of_tokens hends)

/-- Of a program that is cut, the statements before the cut are those of the first
sequence, and the others are read after the semicolon. -/
theorem program_of_cut (hcut : A.Cut) {fuel fuel' : Nat} (hfuel : A.Ample k fuel fuel')
    {n n' : Nat} (hn' : k + 1 + A.beyond'.length < n') {c c' c₁ : Cursor} (hc : A.Beside k c c')
    {ss : List Stmt}
    (h : program fuel (statement fuel (expression fuel (unary fuel)) fuel) n c = .ok ss c₁) :
    ∃ ss' m, A.bodies ss ss' ∧ A.beyond'.length < m ∧
      program fuel' (statement fuel' (expression fuel' (unary fuel')) fuel') n' c' =
        (do
          let rest ← program fuel' (statement fuel' (expression fuel' (unary fuel')) fuel') m
          return ss' ++ rest : Parser (List Stmt)) ⟨A.beyond', c'.nesting⟩ := by
  obtain ⟨hproceeds, hstatement⟩ := settles_whole hfuel
  simp only [program_eq] at h ⊢
  exact statementsUntil_of_cut hcut hproceeds hfuel hstatement hn' hc h

end Parse

/-- Token sequences that correspond up to their ends are read alike, up to places. -/
theorem parseTokens_coupled {A : Coupling} (hends : A.tokens A.ending A.ending') {k : Nat}
    {tokens tokens' : List Token} (h : A.Ahead k tokens tokens')
    (hterminated : Parse.terminated tokens = true)
    (hterminated' : Parse.terminated tokens' = true) :
    ((parseTokens tokens).map (List.map (Stmt.relocate A.left))).mapError
        (GrammarError.relocate A.left) =
      ((parseTokens tokens').map (List.map (Stmt.relocate A.right))).mapError
        (GrammarError.relocate A.right) := by
  obtain ⟨hlength, hlength'⟩ := h.length
  have hfuel : A.Ample k (tokens.length + 1) (tokens'.length + 1) := ⟨by omega, by omega⟩
  have hc : A.Beside k ⟨tokens, 0⟩ ⟨tokens', 0⟩ := ⟨h, rfl⟩
  have hrun := Parse.agrees_program hends hfuel (show k < tokens.length + 1 by omega)
    (show k < tokens'.length + 1 by omega) hc
  rw [parseTokens, parseTokens, if_pos hterminated, if_pos hterminated', Parse.run, Parse.run,
    Parse.wholeProgram, Parse.wholeProgram]
  generalize Parse.program _ _ _ ⟨tokens, 0⟩ = r, Parse.program _ _ _ ⟨tokens', 0⟩ = r' at hrun ⊢
  cases hrun with
  | ok _ _ hss => exact congrArg Except.ok hss
  | fault he => exact congrArg Except.error he
  | cut hcut => exact absurd hcut (Coupling.not_cut_of_tokens hends)

end Abacus
