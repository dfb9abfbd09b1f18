import Abacus.Proofs.Parse.Abreast
import Abacus.Proofs.Parse.Operands

/-!
# Abacus.Proofs.Parse.Sentences

The rules for statements are steady.  A statement may be followed by what ends a block or
the program; the sample that is put in for a block is the empty one, and nothing has to
be put in for the statements that are still to come.

A statement without a keyword is an assignment if an equals sign comes second.  In front
of a single name the token after it decides, but neither an assignment nor an expression
then has a fault right after the name (`along_name`); of longer sequences both tokens are
taken.
-/

namespace Abacus

namespace Parse

open Stateful

/-- What may follow a statement when it is completed. -/
def statementEnds : Set Kind := {.rightBrace, .endOfInput}

/-- What may follow a statement may follow an expression. -/
theorem statementEnds_subset : statementEnds ⊆ expressionEnds := by
  rintro _ (rfl | rfl) <;> simp [expressionEnds]

variable {b n : Nat}

/-! ## Semicolons and loops over statements -/

section loops

variable {S : Set Kind} {fuel : Nat} {fuels : Nat → Nat}

/-- The loop over semicolons has fuel for one step, or none at all. -/
theorem starved_skipSeparators (fuels : Nat → Nat) :
    Starved (fun i => skipSeparators (fuels i)) fun i => skipSeparators (fuels i - 1 + 1) :=
  starved_of_zero (fun _ m => skipSeparators m) (fun _ => rfl) fuels

/-- No semicolon has to be put in. -/
theorem feasible_skipSeparators (hS : .semicolon ∉ S) (fuels : Nat → Nat) :
    Feasible n S S fun i => skipSeparators (fuels i) := by
  refine .starved ⟨[], ⟨⟩, proper_nil, fun tail htail => ⟨htail, fun _ => .inl ?_⟩⟩
    (starved_skipSeparators fuels)
  exact accept_of_ne (c := ⟨tail, n⟩) (ne_of_mem hS htail)

/-- Semicolons are skipped up to the first other token. -/
theorem steady_skipSeparators (hS : .semicolon ∉ S) (m : Nat) (fuels : Nat → Nat) :
    Steady S (skipSeparators m) fun i => skipSeparators (fuels i) := by
  induction m generalizing fuels with
  | zero => exact .exhausted
  | succ m ih =>
      have hskip : Ready nestingLimit S S (skipSeparators m)
          fun i => skipSeparators (fuels i - 1) := ⟨ih _, fun _ _ => feasible_skipSeparators hS _⟩
      refine .starved ?_ (starved_skipSeparators fuels)
      exact .accept_bind (by simp) hS
        (hskip.viable (le_refl _)) (.pure _)

variable {stop : Cursor → Bool} {statement : Parser Stmt} {statements : Nat → Parser Stmt}

/-- A sequence of statements, one step of the loop written out. -/
theorem statementsUntil_eq (m : Nat) :
    statementsUntil stop fuel statement (m + 1) = skipSeparators fuel >>= fun _ =>
      haltAt stop [] (do
        let s ← statement
        let rest ← statementsUntil stop fuel statement m
        return s :: rest) := by
  rw [statementsUntil]
  refine congrArg _ (funext fun _ => funext fun c => ?_)
  show (if stop c then pure [] else _ : Parser (List Stmt)) c = _
  rw [haltAt]
  split <;> rfl

theorem starved_statementsUntil (fuels lengths : Nat → Nat) :
    Starved (fun i => statementsUntil stop (fuels i) (statements i) (lengths i))
      fun i => statementsUntil stop (fuels i) (statements i) (lengths i - 1 + 1) :=
  starved_of_zero (fun i m => statementsUntil stop (fuels i) (statements i) m)
    (fun _ => rfl) lengths

/-- No statement has to be put in. -/
theorem feasible_statementsUntil (hstop : ∀ c, stop c = true ↔ c.current.kind ∈ S)
    (hS : .semicolon ∉ S) (fuels lengths : Nat → Nat) :
    Feasible n S S fun i => statementsUntil stop (fuels i) (statements i) (lengths i) := by
  refine .starved ?_ (starved_statementsUntil fuels lengths)
  simp only [statementsUntil_eq]
  exact (feasible_skipSeparators hS fuels).bind fun _ => .halt hstop [] (subset_refl _)

/-- A sequence of statements, by induction on the fuel; at a fault the statement that
has it is completed. -/
theorem ready_statementsUntil (hstop : ∀ c, stop c = true ↔ c.current.kind ∈ S)
    (hS : .semicolon ∉ S) (hstatement : Steady S statement statements) (hstrict : Strict statement)
    (m : Nat) (lengths : Nat → Nat) (b : Nat) :
    Ready b S S (statementsUntil stop fuel statement m)
      fun i => statementsUntil stop (fuels i) (statements i) (lengths i) := by
  refine ⟨?_, fun _ _ => feasible_statementsUntil hstop hS fuels lengths⟩
  induction m generalizing lengths with
  | zero => exact .exhausted
  | succ m ih =>
      have hloop : Ready nestingLimit S S (statementsUntil stop fuel statement m)
          fun i => statementsUntil stop (fuels i) (statements i) (lengths i - 1) :=
        ⟨ih _, fun _ _ => feasible_statementsUntil hstop hS fuels _⟩
      have hrest : ∀ s, Ready nestingLimit S S
          (statementsUntil stop fuel statement m >>= fun rest => pure (s :: rest))
          fun i => statementsUntil stop (fuels i) (statements i) (lengths i - 1) >>= fun rest =>
            pure (s :: rest) :=
        fun s => hloop.wrap _ (subset_refl _)
      have hround := hstatement.bind hrest (le_refl _) (subset_refl _)
      refine .starved ?_ (starved_statementsUntil fuels lengths)
      simp only [statementsUntil_eq]
      exact (steady_skipSeparators hS fuel fuels).bind (fun _ => Ready.halt (b := nestingLimit)
        hstop [] (subset_refl _) hround (hstrict.bind fun s => (hrest s).toFalls))
        (le_refl _) (subset_refl _)

/-- A block; the sample is the empty one. -/
theorem ready_block (hstatement : Steady statementEnds statement statements)
    (hstrict : Strict statement) :
    Ready nestingLimit expressionEnds statementEnds (block fuel statement)
      fun i => block (fuels i) (statements i) := by
  refine .skip_bind (by simp) (by simp [expressionEnds]) (le_refl _) (Ready.nested ?_ (le_refl _))
  simp only [statements_eq]
  have hstop : ∀ c : Cursor, (c.sees .rightBrace || c.atEnd) = true ↔
      c.current.kind ∈ statementEnds := fun c => by
    simp only [statementEnds, Cursor.sees, Cursor.atEnd, Set.mem_insert_iff, Set.mem_singleton_iff]
    by_cases hc : c.current.kind = .endOfInput <;> simp [hc]
  refine ((ready_statementsUntil hstop (by simp [statementEnds]) hstatement hstrict fuel fuels
    (nestingLimit + 1)).mono (Set.subset_univ _) (subset_refl _)).bind (fun body => ?_)
    (Nat.le_succ _) (subset_refl _)
  exact .skip_bind (by simp) (by simp [statementEnds]) (Nat.le_succ _) (.pure (Set.subset_univ _) _)

end loops

/-! ## Statements with a keyword -/

section statements

variable {expr : Parser Expr} {exprs : Nat → Parser Expr}
variable {block : Parser (List Stmt)} {blocks : Nat → Parser (List Stmt)}

/-- A function definition: its name, its parameters in a list, and a block. -/
theorem ready_definition (hblock : Ready nestingLimit expressionEnds statementEnds block blocks)
    (pos : Position) :
    Ready nestingLimit .univ statementEnds (definition block pos)
      fun i => definition (blocks i) pos := by
  refine .expect_bind (by simp) trivial (le_refl _) fun name => ?_
  refine .skip_bind (by simp) trivial (le_refl _) ?_
  have hparam : Ready nestingLimit .univ expressionEnds (expect .identifier .parameterName)
      fun _ => expect .identifier .parameterName := by
    rw [← bind_pure (expect .identifier .parameterName)]
    exact .expect_bind (by simp) trivial (le_refl _) fun t => .pure (Set.subset_univ _) t
  have hbody : ∀ params : List Token, Ready nestingLimit .univ statementEnds
      (block >>= fun body => pure (Stmt.function name.lexeme (params.map Token.lexeme) body pos))
      fun i => blocks i >>= fun body =>
        pure (Stmt.function name.lexeme (params.map Token.lexeme) body pos) :=
    fun params => (hblock.wrap _ (subset_refl _)).mono (Set.subset_univ _) (subset_refl _)
  exact ready_listed hparam rfl statementEnds_subset hbody

/-- A while or for loop after its keyword. -/
theorem ready_iteration (hexpr : Ready nestingLimit .univ expressionEnds expr exprs)
    (hblock : Ready nestingLimit expressionEnds statementEnds block blocks) (pos : Position) :
    Ready nestingLimit .univ statementEnds (iteration expr block pos)
      fun i => iteration (exprs i) (blocks i) pos := by
  refine .expect_bind (by simp) trivial (le_refl _) fun var => ?_
  refine .skip_bind (by simp) trivial (le_refl _) ?_
  refine hexpr.bind (fun items => ?_) (le_refl _) statementEnds_subset
  exact hblock.wrap _ (subset_refl _)

/-- A return takes a value unless the statement ends. -/
theorem giveBack_eq (expr : Parser Expr) (pos : Position) : giveBack expr pos =
    haltAt (fun c => c.sees .rightBrace || c.sees .semicolon || c.atEnd) (.giveBack none pos)
      (do let value ← expr; return .giveBack (some value) pos) := by
  funext c
  show (if c.sees .rightBrace || c.sees .semicolon || c.atEnd then pure _ else _ :
    Parser Stmt) c = _
  rw [haltAt]
  split <;> rfl

/-- A return statement; nothing has to be put in for its value. -/
theorem ready_giveBack (hexpr : Ready nestingLimit .univ expressionEnds expr exprs)
    (hstrict : Strict expr) (pos : Position) :
    Ready nestingLimit statementEnds statementEnds (giveBack expr pos)
      fun i => giveBack (exprs i) pos := by
  have hstop : ∀ c : Cursor, (c.sees .rightBrace || c.sees .semicolon || c.atEnd) = true ↔
      c.current.kind ∈ ({.rightBrace, .semicolon, .endOfInput} : Set Kind) := fun c => by
    simp only [Cursor.sees, Cursor.atEnd, Set.mem_insert_iff, Set.mem_singleton_iff]
    by_cases hc : c.current.kind = .endOfInput <;> simp [hc]
  have hsubset : statementEnds ⊆ ({.rightBrace, .semicolon, .endOfInput} : Set Kind) := by
    rintro _ (rfl | rfl) <;> simp
  have hvalue := hexpr.toSteady.wrap (fun value => Stmt.giveBack (some value) pos)
    statementEnds_subset
  simp only [giveBack_eq]
  exact .halt hstop _ hsubset hvalue (hstrict.bind fun _ => .pure _)

/-- The other branch of a conditional, after `else`. -/
def otherwise (expr : Parser Expr) (block : Parser (List Stmt)) (m : Nat) (condition : Expr)
    (body : List Stmt) (pos : Position) : Parser Stmt := do
  let t ← peek
  if ← accept (.keyword .ifKw) then
    let chained ← nested .elseIfBranches (conditional expr block m t.pos)
    return .ifElse condition body [chained] pos
  else
    let other ← block
    return .ifElse condition body other pos

section otherwise

variable {m : Nat} {condition : Expr} {body : List Stmt} {pos : Position}

/-- After an else, an if starts a conditional of its own. -/
theorem otherwise_cons {t : Token} {ts : List Token} (ht : t.kind = .keyword .ifKw) :
    otherwise expr block m condition body pos ⟨t :: ts, n⟩ =
      (nested .elseIfBranches (conditional expr block m t.pos) >>= fun chained =>
        pure (.ifElse condition body [chained] pos)) ⟨ts, n⟩ := by
  rw [otherwise, peek_bind_apply, current_cons]
  exact accept_cons (by simp) ht

/-- After an else, anything but an if has to be a block. -/
theorem otherwise_of_ne {c : Cursor} (hc : c.current.kind ≠ .keyword .ifKw) :
    otherwise expr block m condition body pos c =
      (block >>= fun other => pure (.ifElse condition body other pos)) c := by
  rw [otherwise, peek_bind_apply]
  exact accept_of_ne hc

/-- The other branch; the sample is the empty block. -/
theorem ready_otherwise (hblock : Ready nestingLimit expressionEnds statementEnds block blocks)
    {lengths : Nat → Nat}
    (hchained : ∀ pos, Viable .univ statementEnds (conditional expr block m pos)
      fun i => conditional (exprs i) (blocks i) (lengths i) pos) :
    Ready nestingLimit expressionEnds statementEnds (otherwise expr block m condition body pos)
      fun i => otherwise (exprs i) (blocks i) (lengths i) condition body pos := by
  have hother := hblock.wrap (fun other => Stmt.ifElse condition body other pos) (subset_refl _)
  refine hother.choose (hother.toSteady.choose (fun t => ?_)
      (fun _ => otherwise_of_ne (by simp [Cursor.current, Token.finish]))
      (.inr fun _ _ hc => otherwise_of_ne (ne_of_mem (by simp [statementEnds]) hc)))
    fun _ _ hc => otherwise_of_ne (ne_of_mem (by simp [expressionEnds]) hc)
  by_cases ht : t.kind = .keyword .ifKw
  · have htree := (hchained t.pos).nested .elseIfBranches |>.wrap
      (fun chained => Stmt.ifElse condition body [chained] pos) (subset_refl _) (Set.subset_univ _)
    exact .taken _ _ htree (fun _ _ => otherwise_cons ht) fun _ _ _ => otherwise_cons ht
  · exact .left (fun _ _ => otherwise_of_ne ht) fun _ _ _ => otherwise_of_ne ht

end otherwise

/-- A conditional, by induction on the number of branches. -/
theorem viable_conditional (hexpr : Ready nestingLimit .univ expressionEnds expr exprs)
    (hblock : Ready nestingLimit expressionEnds statementEnds block blocks) (m : Nat)
    (lengths : Nat → Nat) (pos : Position) :
    Viable .univ statementEnds (conditional expr block m pos)
      fun i => conditional (exprs i) (blocks i) (lengths i) pos := by
  induction m generalizing lengths pos with
  | zero => exact .exhausted
  | succ m ih =>
      have hend : ∀ condition body, Ready nestingLimit statementEnds statementEnds
          (do
            if ← accept (.keyword .elseKw) then otherwise expr block m condition body pos
            else return .ifThen condition body pos)
          fun i => do
            if ← accept (.keyword .elseKw) then
              otherwise (exprs i) (blocks i) (lengths i - 1) condition body pos
            else return .ifThen condition body pos := fun condition body =>
        .accept_bind (by simp) (by simp [statementEnds]) (by simp [statementEnds])
          ((ready_otherwise hblock (ih _)).viable (le_refl _)) (.pure (subset_refl _) _)
      have hwhole := (hexpr.bind (fun condition => hblock.bind (hend condition) (le_refl _)
        (subset_refl _)) (le_refl _) statementEnds_subset).viable (le_refl _)
      exact Viable.starved hwhole (starved_of_zero
        (fun i m => conditional (exprs i) (blocks i) m pos) (fun _ => rfl) lengths)

/-! ## Assignments and bare expressions -/

/- The one place where two tokens are looked at.  If the sequence has both of them, the choice
is the same whatever follows.  If it ends after a name, it is not: `along_name` covers that
case, as neither an assignment nor an expression has its fault, or its end, right after the
name. -/

/-- An expression as a statement. -/
theorem steady_bare (hexpr : Ready nestingLimit .univ expressionEnds expr exprs) :
    Steady statementEnds (bare expr) fun i => bare (exprs i) :=
  hexpr.toSteady.wrap Stmt.expression statementEnds_subset

/-- An assignment after its name. -/
def assigned (expr : Parser Expr) (name : Token) : Parser Stmt := do
  discard (expect (.operator .assign) .assignSign)
  let value ← expr
  return .assign name.lexeme value name.pos

/-- An assignment takes its name first. -/
theorem assignment_cons {t : Token} {ts : List Token} (ht : t.kind ≠ .endOfInput) :
    assignment expr ⟨t :: ts, n⟩ = assigned expr t ⟨ts, n⟩ := by
  rw [assignment, bind_of_ok _ (advance_apply _), Cursor.forward_cons ht]
  rfl

/-- An assignment has to have its equals sign, and the end of input is none. -/
theorem assignment_of_atEnd {c : Cursor} (hc : c.current.kind = .endOfInput) :
    assignment expr c = (fail .assignSign : Parser Stmt) c := by
  have hend : c.atEnd = true := by simp [Cursor.atEnd, hc]
  rw [assignment, bind_of_ok _ (advance_apply _), Cursor.forward, if_pos hend, discard_bind]
  exact expect_of_ne (by simp [hc])

/-- What follows the name of an assignment. -/
theorem ready_assigned (hexpr : Ready nestingLimit .univ expressionEnds expr exprs) (name : Token) :
    Ready nestingLimit .univ statementEnds (assigned expr name)
      fun i => assigned (exprs i) name := by
  refine .skip_bind (by simp) trivial (le_refl _) ?_
  exact hexpr.wrap _ statementEnds_subset

/-- An assignment where a name was seen. -/
theorem steady_assignment (hexpr : Ready nestingLimit .univ expressionEnds expr exprs) :
    Steady statementEnds (assignment expr) fun i => assignment (exprs i) := by
  refine (Steady.fail .assignSign).choose (fun t => ?_) (fun _ => assignment_of_atEnd rfl)
    (.inl fun c a c' h => by contradiction)
  by_cases ht : t.kind = .endOfInput
  · exact .left (fun _ _ => assignment_of_atEnd ht) fun _ _ _ => assignment_of_atEnd ht
  · exact .taken _ _ ((ready_assigned hexpr t).viable (le_refl _)) (fun _ _ => assignment_cons ht)
      fun _ _ _ => assignment_cons ht

/-- After a name, a bare expression stops at a later token, or at a limit. -/
theorem bare_eq_error (hname : PassesName expr) {t : Token} {r : List Token} {c : Cursor}
    {e : GrammarError} (ht : t.kind = .identifier)
    (h : bare expr ⟨t :: r, n⟩ = .error (.fault e) c) :
    e.expected.isLimit = true ∨ c.rest.length < r.length := by
  obtain h | ⟨_, _, _, h⟩ := bind_eq_error h
  · exact hname ht h
  · contradiction

/-- Whether an assignment starts here: an equals sign comes second. -/
def assigns (ts : List Token) : Bool :=
  next ts = .identifier && next ts.tail = .operator .assign

/-- A statement without a keyword. -/
def simple (expr : Parser Expr) : Parser Stmt :=
  fun c => if assigns c.rest then assignment expr c else bare expr c

theorem simple_of_assigns {ts : List Token} (h : assigns ts = true) :
    simple expr ⟨ts, n⟩ = assignment expr ⟨ts, n⟩ := if_pos h

theorem simple_of_not_assigns {ts : List Token} (h : assigns ts = false) :
    simple expr ⟨ts, n⟩ = bare expr ⟨ts, n⟩ := if_neg (by simp [h])

/-- A statement without a keyword takes a token. -/
theorem strict_simple (hreads : ∀ c, Reads c expr fun e ts => Grammar.Derives (.expression e) ts) :
    Strict (simple expr) := by
  intro c s c' h
  obtain ⟨ts, hrest, hforms⟩ : ∃ ts, c.rest = ts ++ c'.rest ∧ Grammar.Forms (.bare s) ts := by
    cases hassigns : assigns c.rest with
    | true =>
        rw [simple_of_assigns hassigns] at h
        have hname : c.current.kind = .identifier := by
          simp only [assigns, Bool.and_eq_true, decide_eq_true_eq] at hassigns
          exact hassigns.1
        obtain ⟨ts, hrest, _, _, hforms⟩ := reads_assignment hreads hname s c' h
        exact ⟨ts, hrest, hforms⟩
    | false =>
        rw [simple_of_not_assigns hassigns] at h
        obtain ⟨ts, hrest, _, _, hforms⟩ := reads_bare hreads c s c' h
        exact ⟨ts, hrest, hforms⟩
  have hpos := List.length_pos_iff.mpr (ne_nil_of_bare hforms)
  rw [hrest, List.length_append]
  omega

/-- After a name, an expression is read unless an equals sign follows. -/
theorem simple_name_of_ne {t : Token} {r : List Token} (hr : next r ≠ .operator .assign) :
    simple expr ⟨t :: r, n⟩ = bare expr ⟨t :: r, n⟩ :=
  simple_of_not_assigns (by simp [assigns, hr])

/-- An assignment with its equals sign is read past it. -/
theorem length_lt_of_assigns (hexpr : Falls expr) {t : Token} {r : List Token}
    (ht : t.kind = .identifier) (hr : next r = .operator .assign) :
    (∀ s c, simple expr ⟨t :: r, n⟩ = .ok s c → c.rest.length < r.length) ∧
      ∀ e c, simple expr ⟨t :: r, n⟩ = .error e c → c.rest.length < r.length := by
  cases r with
  | nil => contradiction
  | cons u ts =>
      have hu : u.kind = .operator .assign := hr
      have hvalue : Falls (expr >>= fun value => pure (Stmt.assign t.lexeme value t.pos)) :=
        hexpr.bind fun _ => .pure _
      rw [simple_of_assigns (by simp [assigns, ht, hu]), assignment_cons (by simp [ht]), assigned,
        discard_bind, expect_cons (by simp) hu]
      exact ⟨fun s c h => Nat.lt_succ_of_le (hvalue.ok_rest h).1.length_le,
        fun e c h => Nat.lt_succ_of_le (hvalue.error_rest h).1.length_le⟩

/-- In front of a single name, the token after it decides between an assignment and an
expression; neither of them has a fault at that token, or a value before it. -/
theorem along_name (hexpr : Ready nestingLimit .univ expressionEnds expr exprs)
    (hreads : ∀ c, Reads c expr fun e ts => Grammar.Derives (.expression e) ts)
    (hname : PassesName expr) {t : Token} (ht : t.kind = .identifier) :
    Along statementEnds (simple expr) (fun i => simple (exprs i)) [t] := by
  have hsteady := (steady_bare hexpr).along [t]
  refine ⟨fun {us r r' n s} h hr' i => ?_, fun {us r r' n m e} hus h hlimit i => ?_,
    fun {r n m e} _ he _ h => ?_⟩
  · have hlength := strict_simple hreads _ _ _ h
    simp only [List.length_append, List.length_singleton] at hlength
    obtain rfl : us = [] := List.eq_nil_of_length_eq_zero (by omega)
    have hr : next r ≠ .operator .assign := fun hr =>
      Nat.lt_irrefl _ ((length_lt_of_assigns hexpr.toFalls ht hr).1 _ _ h)
    have hend : next r' ≠ .operator .assign := ne_of_mem (by simp [statementEnds]) (hr' rfl)
    rw [List.singleton_append, simple_name_of_ne hr] at h
    rw [List.singleton_append, simple_name_of_ne hend]
    exact hsteady.ok h hr' i
  · have hr : next r ≠ .operator .assign := fun hr => by
      have hlength := (length_lt_of_assigns hexpr.toFalls ht hr).2 _ _ h
      rw [List.length_append] at hlength
      exact absurd hlength (Nat.not_lt.mpr (Nat.le_add_left _ _))
    rw [List.singleton_append, simple_name_of_ne hr] at h
    -- a fault at the token after the name is a limit, and then that token stays
    have hlimited : e.expected.isLimit = true := (bare_eq_error hname ht h).resolve_right (by simp)
    rw [List.singleton_append, simple_name_of_ne (hlimit hlimited ▸ hr)]
    exact hsteady.fault hus h hlimit i
  · have hr : next r ≠ .operator .assign := fun hr =>
      Nat.lt_irrefl _ ((length_lt_of_assigns hexpr.toFalls ht hr).2 _ _ h)
    rw [List.singleton_append, simple_name_of_ne hr] at h
    obtain hlimited | hlength := bare_eq_error hname ht h
    · exact absurd (he.1.symm.trans hlimited) Bool.false_ne_true
    · exact absurd hlength (Nat.lt_irrefl _)

/-- A statement without a keyword is steady: in front of one name by `along_name`, in
front of more tokens as an assignment or an expression is. -/
theorem steady_simple (hexpr : Ready nestingLimit .univ expressionEnds expr exprs)
    (hreads : ∀ c, Reads c expr fun e ts => Grammar.Derives (.expression e) ts)
    (hname : PassesName expr) :
    Steady statementEnds (simple expr) fun i => simple (exprs i) := by
  have hassignment := steady_assignment hexpr
  have hbare := steady_bare hexpr
  have hfalls : Falls (simple expr) := .congr fun c => by
    cases h : assigns c.rest with
    | true => exact ⟨_, hassignment.toFalls, simple_of_assigns h⟩
    | false => exact ⟨_, hbare.toFalls, simple_of_not_assigns h⟩
  refine ⟨hfalls, fun ts => ?_⟩
  match ts with
  | [] =>
      exact .nil hfalls fun h _ => absurd (strict_simple hreads _ _ _ h) (Nat.lt_irrefl _)
  | [t] =>
      by_cases ht : t.kind = .identifier
      · exact along_name hexpr hreads hname ht
      · have hout : ∀ r, assigns (t :: r) = false := fun r => by simp [assigns, ht]
        exact (hbare.along [t]).congr (fun r _ => simple_of_not_assigns (hout r))
          fun _ r _ => simple_of_not_assigns (hout r)
  | t :: u :: ts =>
      -- both tokens that are looked at have been taken
      have hsame : ∀ r, assigns (t :: u :: (ts ++ r)) = assigns (t :: u :: ts) := fun _ => rfl
      cases h : assigns (t :: u :: ts) with
      | true =>
          exact (hassignment.along _).congr (fun r _ => simple_of_assigns ((hsame r).trans h))
            fun _ r _ => simple_of_assigns ((hsame r).trans h)
      | false =>
          exact (hbare.along _).congr (fun r _ => simple_of_not_assigns ((hsame r).trans h))
            fun _ r _ => simple_of_not_assigns ((hsame r).trans h)

/-! ## All statements -/

/-- A name starts a statement without a keyword. -/
theorem statementBody_identifier {fuel : Nat} {lexeme : String} {pos : Position} {ts : List Token} :
    statementBody fuel expr block ⟨⟨.identifier, lexeme, pos⟩ :: ts, n⟩ =
      simple expr ⟨⟨.identifier, lexeme, pos⟩ :: ts, n⟩ := by
  have hsecond : (ts.head?.any fun t => t.kind = .operator .assign) =
      assigns (⟨.identifier, lexeme, pos⟩ :: ts) := by
    cases ts <;> simp [assigns, next, Token.finish]
  show (if ts.head?.any fun t => t.kind = .operator .assign then assignment expr else bare expr)
    ⟨⟨.identifier, lexeme, pos⟩ :: ts, n⟩ = _
  rw [hsecond]
  cases h : assigns (⟨.identifier, lexeme, pos⟩ :: ts) with
  | true => rw [simple_of_assigns h, if_pos rfl]
  | false => rw [simple_of_not_assigns h, if_neg Bool.false_ne_true]

/-- The body of a statement: a case for each kind of its first token. -/
theorem steady_statementBody (hexpr : Ready nestingLimit .univ expressionEnds expr exprs)
    (hreads : ∀ c, Reads c expr fun e ts => Grammar.Derives (.expression e) ts)
    (hname : PassesName expr)
    (hblock : Ready nestingLimit expressionEnds statementEnds block blocks) (fuel : Nat)
    (fuels : Nat → Nat) :
    Steady statementEnds (statementBody fuel expr block)
      fun i => statementBody (fuels i) (exprs i) (blocks i) := by
  have hstrict : Strict expr := strict_of_reads hreads fun _ _ => ne_nil_of_derives
  refine (steady_simple hexpr hreads hname).choose (fun t => ?_) (fun _ => rfl)
    (.inl (strict_simple hreads))
  obtain ⟨kind, lexeme, pos⟩ := t
  cases kind with
  | identifier =>
      exact .left (fun _ _ => statementBody_identifier) fun _ _ _ => statementBody_identifier
  | keyword w =>
      cases w with
      | functionKw =>
          exact .taken _ _ ((ready_definition hblock pos).viable (le_refl _)) (fun _ _ => rfl)
            fun _ _ _ => rfl
      | ifKw =>
          exact .taken _ _ (viable_conditional hexpr hblock fuel fuels pos) (fun _ _ => rfl)
            fun _ _ _ => rfl
      | whileKw =>
          have hwhile := hexpr.bind (fun condition => hblock.wrap
            (fun body => Stmt.whileLoop condition body pos) (subset_refl _)) (le_refl _)
            statementEnds_subset
          exact .taken _ _ (hwhile.viable (le_refl _)) (fun _ _ => rfl) fun _ _ _ => rfl
      | forKw =>
          exact .taken _ _ ((ready_iteration hexpr hblock pos).viable (le_refl _)) (fun _ _ => rfl)
            fun _ _ _ => rfl
      | returnKw =>
          exact .taken _ _ ((ready_giveBack hexpr hstrict pos).viable (le_refl _)) (fun _ _ => rfl)
            fun _ _ _ => rfl
      | _ => exact .left (fun _ _ => rfl) fun _ _ _ => rfl
  | _ => exact .left (fun _ _ => rfl) fun _ _ _ => rfl

/-- A statement, by induction on how deep it may nest. -/
theorem steady_statement (hexpr : Ready nestingLimit .univ expressionEnds expr exprs)
    (hreads : ∀ c, Reads c expr fun e ts => Grammar.Derives (.expression e) ts)
    (hname : PassesName expr) (fuel : Nat) (fuels : Nat → Nat) (m : Nat) (depths : Nat → Nat) :
    Steady statementEnds (statement fuel expr m)
      fun i => statement (fuels i) (exprs i) (depths i) := by
  induction m generalizing depths with
  | zero => exact .exhausted
  | succ m ih =>
      have hstrict : Strict (statement fuel expr m) := fun c s c' h =>
        (proceeds_statement hreads m c s c' h).1
      have hblock : Ready nestingLimit expressionEnds statementEnds
          (Parse.block fuel (statement fuel expr m))
          fun i => Parse.block (fuels i) (statement (fuels i) (exprs i) (depths i - 1)) :=
        ready_block (ih _) hstrict
      have hbody := steady_statementBody hexpr hreads hname hblock fuel fuels
      refine .starved (hbody.bind (fun s => ?_) (le_refl nestingLimit) (subset_refl _))
        (starved_of_zero (fun i m => statement (fuels i) (exprs i) m) (fun _ => rfl) depths)
      simp only [discard_bind]
      exact .accept_bind (by simp) (by simp [statementEnds]) (by simp [statementEnds])
        ((Ready.pure (Set.subset_univ _) s).viable (le_refl nestingLimit)) (.pure (subset_refl _) s)

end statements

/-! ## Programs -/

/-- What follows a program. -/
def programEnds : Set Kind := {.endOfInput}

/-- Programs are read steadily, and can go on to their end at any time. -/
theorem ready_wholeProgram (fuel : Nat) :
    Ready nestingLimit programEnds programEnds (wholeProgram fuel) wholeProgram := by
  have hreads : ∀ c, Reads c (expression fuel (unary fuel)) fun e ts =>
      Grammar.Derives (.expression e) ts := reads_expression (reads_unary fuel)
  have hstatement := steady_statement (ready_whole fuel) hreads (passesName_whole fuel) fuel id
    fuel id
  have hstop : ∀ c : Cursor, c.atEnd = true ↔ c.current.kind ∈ programEnds := fun c => by
    simp [programEnds, Cursor.atEnd]
  have hstrict : Strict (statement fuel (expression fuel (unary fuel)) fuel) := fun c s c' h =>
    (proceeds_statement hreads fuel c s c' h).1
  have hwhole : ∀ fuel, wholeProgram fuel = statementsUntil Cursor.atEnd fuel
      (statement fuel (expression fuel (unary fuel)) fuel) fuel := fun fuel => program_eq _ _ _
  have hfamily : wholeProgram = fun i => statementsUntil Cursor.atEnd i
      (statement i (expression i (unary i)) i) i := funext hwhole
  rw [hwhole, hfamily]
  exact ready_statementsUntil hstop (by simp [programEnds])
    (hstatement.mono (by simp [programEnds, statementEnds])) hstrict fuel id nestingLimit

end Parse

end Abacus
