import Abacus.Proofs.Parse.Course
import Abacus.Proofs.Parse.Joined
import Abacus.Proofs.Parse.Sound

/-!
# Abacus.Proofs.Parse.Balanced

The nesting counter is balanced: every rule that succeeds leaves it as it found it
(`Balanced`), and on the course of a parse it stays within the limit and within one more
than the tokens taken.  So the limit depends on the constructs only that are still open
(`nesting_balanced`).
-/

namespace Abacus

namespace Parse

/-! ## Every rule is balanced -/

/- A rule that has been shown to read something leaves the nesting as it was, so the rules are
balanced by `balanced_of_reads`.  The rest is about parses with a chart, which say at which
constructs the limit is met and how many tokens were taken before. -/

variable {α β : Type} {p : Parser α}

/-- Wherever the parser gives a value, it leaves the nesting as it found it. -/
def Balanced (p : Parser α) : Prop := ∀ c a c', p c = .ok a c' → c'.nesting = c.nesting

theorem balanced_of_reads {D : Cursor → α → List Token → Prop} (h : ∀ c, Reads c p (D c)) :
    Balanced p := by
  intro c a c' hp
  obtain ⟨_, _, hnesting, _, _⟩ := h c a c' hp
  exact hnesting

/-- What comes after a balanced parser is read at the nesting from before it. -/
theorem Balanced.bind_eq (h : Balanced p) (f : α → Parser β) {c c' : Cursor} {a : α}
    (hp : p c = .ok a c') : (p >>= f) c = f a ⟨c'.rest, c.nesting⟩ := by
  rw [Stateful.bind_of_ok f hp, ← h c a c' hp]

theorem balanced_aggregate {expr unary : Parser Expr}
    (hexpr : ∀ c, Reads c expr fun e ts => Grammar.Derives (.expression e) ts)
    (hunary : ∀ c, Reads c unary fun e ts => Grammar.Derives (.unary e) ts) (kind : Aggregate) :
    Balanced (aggregate expr unary kind) := by
  intro c a c' h
  cases hend : c.atEnd with
  | true =>
      -- Nothing is taken at the end of input, so no parenthesis follows.
      have hforward : c.forward = c := by rw [Cursor.forward, hend, if_pos rfl]
      have hsees : c.sees .leftParen = false := by rw [Cursor.sees, hend]; rfl
      rw [aggregate, Stateful.bind_of_ok _ (advance_apply c), Stateful.discard_bind, hforward,
        Stateful.bind_of_error _ (expect_of_not_sees _ hsees)] at h
      contradiction
  | false =>
      have hreads : Reads c (aggregate expr unary kind) fun _ _ => True := by
        refine Reads.advance_bind hend (Reads.discard_bind (Reads.expect_bind fun _ => ?_))
        refine Reads.expect_bind fun _ => Reads.discard_bind (Reads.expect_bind fun _ => ?_)
        refine (hexpr _).bind fun _ _ _ _ _ _ => Reads.discard_bind (Reads.expect_bind fun _ => ?_)
        refine (hexpr _).bind fun _ _ _ _ _ _ => Reads.discard_bind (Reads.expect_bind fun _ => ?_)
        refine (hunary _).bind fun _ _ c' _ _ _ => ?_
        refine Reads.ite (fun _ => ?_) fun _ => Reads.pure trivial
        exact (reads_differential _ c').bind fun _ _ _ _ _ _ => Reads.pure trivial
      obtain ⟨_, _, hnesting, _, _⟩ := hreads a c' h
      exact hnesting

/-- The rules for expressions. -/
theorem balanced_expressions (fuel n : Nat) :
    Balanced (expression fuel (unary n)) ∧ (∀ levels, Balanced (climb fuel (unary n) levels)) ∧
      Balanced (unary n) ∧ Balanced (primary (expression fuel (unary n)) (unary n)) ∧
      Balanced (arguments (expression fuel (unary n))) ∧
      ∀ kind, Balanced (aggregate (expression fuel (unary n)) (unary n) kind) := by
  have hunary := reads_unary n
  have hexpr := @reads_expression fuel _ hunary
  refine ⟨balanced_of_reads hexpr, fun levels => balanced_of_reads (reads_climb hunary levels),
    balanced_of_reads hunary, balanced_of_reads (reads_primary hexpr hunary), ?_,
    balanced_aggregate hexpr hunary⟩
  let name : Token := ⟨.identifier, "", .first⟩
  let bracket : Token := ⟨.leftParen, "", .first⟩
  exact balanced_of_reads (reads_call hexpr (t := name) (l := bracket) rfl rfl)

/-- The rules for statements. -/
theorem balanced_statements {fuel : Nat} {expr : Parser Expr}
    (hexpr : ∀ c, Reads c expr fun e ts => Grammar.Derives (.expression e) ts) (m : Nat) :
    Balanced (statement fuel expr m) ∧ Balanced (block fuel (statement fuel expr m)) ∧
      ∀ i pos, Balanced (conditional expr (block fuel (statement fuel expr m)) i pos) := by
  have hstatement := @reads_statement fuel _ hexpr m
  have hblock := @reads_block fuel _ hstatement
  refine ⟨balanced_of_reads hstatement, balanced_of_reads hblock, fun i pos => ?_⟩
  let keyword : Token := ⟨.keyword .ifKw, "", pos⟩
  exact balanced_of_reads (reads_conditional hexpr hblock (i := keyword) rfl i)

end Parse

/-- The tokens of an accepted program and a semicolon do not matter to what comes after. -/
theorem parseTokens_append {body body' : List Token} {eoi eoi' semicolon : Token}
    {program : List Stmt} (hbody : ∀ t ∈ body, t.kind ≠ .endOfInput)
    (heoi : eoi.kind = .endOfInput) (hbody' : ∀ t ∈ body', t.kind ≠ .endOfInput)
    (heoi' : eoi'.kind = .endOfInput) (hsemicolon : semicolon.kind = .semicolon)
    (h : parseTokens (body ++ [eoi]) = .ok program) :
    parseTokens (body ++ semicolon :: (body' ++ [eoi'])) =
      (parseTokens (body' ++ [eoi'])).map (program ++ ·) := by
  have hjoined := parseTokens_joined hbody heoi hbody' heoi' hsemicolon h id
  rw [show Token.relocate id = id from rfl, List.map_id] at hjoined
  rw [hjoined]
  cases parseTokens (body' ++ [eoi']) with
  | ok others => simp [Except.map, Except.mapError, Stmt.map_relocate_id]
  | error e => rfl

/-- A parse with a chart has the outcome of the parser, and meets the limit only where as
many constructs are open as there may be. -/
theorem exists_course (tokens : List Token) : ∃ u : Course, u.Sound tokens ∧
    ((∃ program, Charted.run tokens = .ok program u ∧
        Parse.run tokens = .ok program u.here.cursor ∧ u.here.opened = []) ∨
      ∃ e, Charted.run tokens = .error (.stop e) u ∧ Parse.run tokens = .error e u.here.cursor ∧
        (e.AtLimit → u.here.opened.length = nestingLimit)) := by
  have haccords := Charted.accords_run tokens
  generalize Charted.run tokens = r, Parse.run tokens = r' at haccords
  cases haccords with
  | @ok program u hrest hopened hsound =>
      have hnone : u.here.opened = [] := hopened
      have hcursor : u.here.cursor = ⟨u.here.rest, 0⟩ := by rw [Waypoint.cursor, hnone]; rfl
      exact ⟨u, hsound, .inl ⟨program, rfl, by rw [hcursor]; rfl, hnone⟩⟩
  | @stop e u hsound hlimit => exact ⟨u, hsound, .inr ⟨e, rfl, rfl, hlimit⟩⟩

/-- The limit is met only after many tokens. -/
theorem nestingLimit_le_of_atLimit {tokens : List Token} {what : Construct} {found : String}
    {pos : Position} (h : parseTokens tokens = .error ⟨.shallower what, found, pos⟩) :
    nestingLimit ≤ tokens.length + 1 := by
  rw [parseTokens] at h
  split at h
  · obtain ⟨u, hsound, ⟨program, _, hrun, _⟩ | ⟨e, _, hrun, hlimit⟩⟩ := exists_course tokens
    · rw [hrun] at h
      contradiction
    · rw [hrun] at h
      have he : e.AtLimit := by
        cases e with
        | fault e => exact ⟨what, found, pos, congrArg ParseStop.fault (Except.error.inj h)⟩
        | exhausted => simp [GrammarError.atToken] at h
      obtain ⟨_, taken, htokens, hle⟩ := hsound _ List.mem_cons_self
      rw [hlimit he] at hle
      rw [htokens, List.length_append]
      omega
  · simp [Parse.unterminated] at h

/-- **The nesting counter is balanced.**  Every rule that succeeds, on any tokens and at any
nesting, leaves the nesting as it found it.  A parse from the start that keeps a chart has
the outcome of the parser, so it never gives back more than it has charged; at all of its
waypoints at most 256 constructs are open, and at most one more than tokens were taken.

So the limit depends on the constructs only that are still open.  The next one is opened
just if fewer than 256 are, and the parse stops for the limit only with 256 of them open;
what comes after a rule that is finished is read at the nesting from before it, and what
comes after the statements of a program and a semicolon as if it stood alone.  A program of
at most 250 tokens never meets the limit. -/
theorem nesting_balanced :
    (∀ fuel n m,
      let unary := Parse.unary n
      let expr := Parse.expression fuel unary
      let statement := Parse.statement fuel expr m
      let block := Parse.block fuel statement
      Parse.Balanced statement ∧ Parse.Balanced block ∧
      (∀ i pos, Parse.Balanced (Parse.conditional expr block i pos)) ∧
      Parse.Balanced expr ∧ (∀ levels, Parse.Balanced (Parse.climb fuel unary levels)) ∧
      Parse.Balanced unary ∧ Parse.Balanced (Parse.primary expr unary) ∧
      Parse.Balanced (Parse.arguments expr) ∧
      ∀ kind, Parse.Balanced (Parse.aggregate expr unary kind)) ∧
    (∀ tokens, ∃ u : Course,
      (∀ s ∈ u.waypoints, s.opened.length ≤ 256 ∧
        ∃ taken, tokens = taken ++ s.rest ∧ s.opened.length ≤ taken.length + 1) ∧
      ((∃ program, Charted.run tokens = .ok program u ∧
          Parse.run tokens = .ok program u.here.cursor ∧ u.here.opened = []) ∨
        ∃ e, Charted.run tokens = .error (.stop e) u ∧ Parse.run tokens = .error e u.here.cursor ∧
          (e.AtLimit → u.here.opened.length = 256))) ∧
    (∀ what (s : Waypoint),
      (s.opened.length < 256 ∧ Parse.enter what s.cursor = .ok () (s.enter what).cursor) ∨
      (256 ≤ s.opened.length ∧ ∃ e, Parse.enter what s.cursor = .error e s.cursor ∧ e.AtLimit)) ∧
    (∀ (α β : Type) (p : Parser α) (f : α → Parser β) c a c', Parse.Balanced p →
      p c = .ok a c' → (p >>= f) c = f a ⟨c'.rest, c.nesting⟩) ∧
    (∀ body body' eoi eoi' semicolon program, (∀ t ∈ body, t.kind ≠ .endOfInput) →
      eoi.kind = .endOfInput → (∀ t ∈ body', t.kind ≠ .endOfInput) →
      eoi'.kind = .endOfInput → semicolon.kind = .semicolon →
      parseTokens (body ++ [eoi]) = .ok program →
      parseTokens (body ++ semicolon :: (body' ++ [eoi'])) =
        (parseTokens (body' ++ [eoi'])).map (program ++ ·)) ∧
    ∀ tokens : List Token, tokens.length ≤ 250 → ∀ what found pos,
      parseTokens tokens ≠ .error ⟨.shallower what, found, pos⟩ := by
  refine ⟨fun fuel n m => ?_, fun tokens => ?_, fun what s => ?_, ?_, ?_, ?_⟩
  · have hexpr := @Parse.reads_expression fuel _ (Parse.reads_unary n)
    obtain ⟨hstatement, hblock, hconditional⟩ := Parse.balanced_statements hexpr m
    exact ⟨hstatement, hblock, hconditional, Parse.balanced_expressions fuel n⟩
  · obtain ⟨u, hsound, houtcome⟩ := exists_course tokens
    exact ⟨u, fun s hs => ⟨(hsound s hs).le, (hsound s hs).pays⟩, houtcome⟩
  · by_cases hlimit : s.opened.length < 256
    · exact .inl ⟨hlimit, Parse.enter_of_lt what hlimit⟩
    · have hle := Nat.not_lt.mp hlimit
      exact .inr ⟨hle, _, Parse.enter_of_le what hle, what, _, _, rfl⟩
  · exact fun _ _ _ f _ _ _ hp h => hp.bind_eq f h
  · exact fun _ _ _ _ _ _ => parseTokens_append
  · intro tokens hlength what found pos h
    have hle := nestingLimit_le_of_atLimit h
    unfold nestingLimit at hle
    omega

/-- Behind 256 parentheses the limit is met, with 256 expressions open.  It is met alike
after another statement; and a sign gives its level back. -/
theorem nesting_balanced_parentheses :
    let x : Token := ⟨.identifier, "x", ⟨1, 1⟩⟩
    let minus : Token := ⟨.operator .minus, "-", ⟨1, 1⟩⟩
    let semicolon : Token := ⟨.semicolon, ";", ⟨1, 1⟩⟩
    let eoi := Token.finish ⟨1, 1⟩
    let deep := List.replicate 256 ⟨.leftParen, "(", ⟨1, 1⟩⟩ ++ [x]
    let e : GrammarError := ⟨.shallower .expressions, "'x'", ⟨1, 1⟩⟩
    (∃ c, Parse.run (deep ++ [eoi]) = .error (.fault e) c) ∧
      (∃ u, Charted.run (deep ++ [eoi]) = .error (.stop (.fault e)) u ∧
        u.here.opened.length = 256) ∧
      (∀ t ∈ deep, t.kind ≠ .endOfInput) ∧ (∀ t ∈ [minus, x], t.kind ≠ .endOfInput) ∧
      parseTokens ([minus, x] ++ [eoi]) =
        .ok [.expression (.unary .negate (.variable "x" ⟨1, 1⟩) ⟨1, 1⟩)] ∧
      parseTokens ([minus, x] ++ semicolon :: (deep ++ [eoi])) = .error e ∧
      (∃ c, Parse.unary 3 ⟨[minus, x, eoi], 255⟩ =
          .ok (.unary .negate (.variable "x" ⟨1, 1⟩) ⟨1, 1⟩) c ∧ c.nesting = 255 ∧
        (Parse.unary 3 >>= fun _ => Parse.enter .operators) ⟨[minus, x, eoi], 255⟩ =
          Parse.enter .operators ⟨c.rest, 255⟩) ∧
      ∀ what found pos, parseTokens [minus, x, eoi] ≠ .error ⟨.shallower what, found, pos⟩ := by
  intro x minus semicolon eoi deep e
  obtain ⟨hrules, hcourse, -, hfinished, hearlier, hshort⟩ := nesting_balanced
  have hstop : (match Parse.run (deep ++ [eoi]) with
      | .ok _ _ => none
      | .error e _ => some e) = some (.fault e) := by decide +kernel
  have hdeep : ∀ t ∈ deep, t.kind ≠ .endOfInput := by decide +kernel
  clear_value deep
  have hplain : ∀ t ∈ [minus, x], t.kind ≠ .endOfInput := by decide
  have hread : parseTokens ([minus, x] ++ [eoi]) =
      .ok [.expression (.unary .negate (.variable "x" ⟨1, 1⟩) ⟨1, 1⟩)] := by decide +kernel
  obtain ⟨c, hrun⟩ : ∃ c, Parse.run (deep ++ [eoi]) = .error (.fault e) c := by
    generalize Parse.run (deep ++ [eoi]) = r at hstop
    cases r with
    | ok => contradiction
    | error _ c => exact ⟨c, by rw [Option.some.inj hstop]⟩
  have herror : parseTokens (deep ++ [eoi]) = .error e := by
    rw [parseTokens, if_pos (Parse.terminated_concat rfl), hrun]
  obtain ⟨-, -, -, -, -, hunary, -⟩ := hrules 3 3 3
  obtain ⟨c', hc'⟩ : ∃ c, Parse.unary 3 ⟨[minus, x, eoi], 255⟩ =
      .ok (.unary .negate (.variable "x" ⟨1, 1⟩) ⟨1, 1⟩) c := ⟨_, rfl⟩
  refine ⟨⟨c, hrun⟩, ?_, hdeep, hplain, hread, ?_, ⟨c', hc', hunary _ _ _ hc', ?_⟩, ?_⟩
  · obtain ⟨u, -, ⟨program, -, hread', -⟩ | ⟨e', hcharted, hstop', hlimit⟩⟩ :=
      hcourse (deep ++ [eoi])
    · rw [hrun] at hread'
      contradiction
    · rw [hrun] at hstop'
      cases hstop'
      exact ⟨u, hcharted, hlimit ⟨_, _, _, rfl⟩⟩
  · rw [hearlier _ _ _ _ _ _ hplain rfl hdeep rfl rfl hread, herror]
    rfl
  · exact hfinished _ _ _ _ _ _ _ hunary hc'
  · exact hshort _ (by decide)

end Abacus
