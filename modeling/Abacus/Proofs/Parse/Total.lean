import Abacus.Proofs.Parse.InBounds

/-!
# Abacus.Proofs.Parse.Total

The parser is total on every slice of tokens.  Read by index, a slice that does not end
in an end of input is refused at once; on every other slice the parser ends in a program
or a fault, with the cursor not beyond the first end of input, and never reads outside
the slice (`parser_total`).  Each rule that is read from a place up to there does so
too, and where it gives a value it has moved forward.
-/

namespace Abacus

namespace Indexed

variable {tokens : List Token} {α : Type} {fuel : Nat} {s : Place}

/-! ## Whole rules -/

/-- Read an expression, with the given fuel for every rule that calls itself. -/
def wholeExpression (tokens : List Token) (fuel : Nat) : Indexed Expr :=
  expression tokens fuel (unary tokens fuel)

/-- Read a statement. -/
def wholeStatement (tokens : List Token) (fuel : Nat) : Indexed Stmt :=
  statement tokens fuel (wholeExpression tokens fuel) fuel

/-- Read a block. -/
def wholeBlock (tokens : List Token) (fuel : Nat) : Indexed (List Stmt) :=
  block tokens fuel (wholeStatement tokens fuel)

/-- From every place that is not beyond the first end of input the reader gives a value
and has moved forward, or it ends in a fault; it does not pass the first end of input. -/
def Advances (tokens : List Token) (x : Indexed α) : Prop :=
  ∀ s : Place, s.current ≤ firstEnd tokens →
    (∃ a s', x s = .ok a s' ∧ s.current < s'.current ∧ s'.current ≤ firstEnd tokens ∧
      s'.nesting = s.nesting) ∨
    ∃ e s', x s = .error (.stop (.fault e)) s' ∧ s'.current ≤ firstEnd tokens

/-- A slice that ends in an end of input has a first one. -/
theorem firstEnd_lt_of_terminated (h : Parse.terminated tokens = true) :
    firstEnd tokens < tokens.length := by
  rw [Parse.terminated, Option.any_eq_true] at h
  obtain ⟨t, ht, hkind⟩ := h
  exact List.findIdx_lt_length_of_exists ⟨t, List.mem_of_getLast? ht, hkind⟩

/-! ## Slices side by side -/

/-- A slice beside the slice with other tokens after the first end of input. -/
def twin (hends : firstEnd tokens < tokens.length) (beyond : List Token) : Coupling where
  left := id
  right := id
  ending := tokens[firstEnd tokens]
  beyond := tokens.drop (firstEnd tokens + 1)
  ending' := tokens[firstEnd tokens]
  beyond' := beyond
  kind_ending := kind_firstEnd hends
  closes := .inl rfl

section rules

variable (hends : firstEnd tokens < tokens.length)

omit hends in
/-- In front of the first end of input there is none. -/
theorem kind_ne_of_mem_take {t : Token} (ht : t ∈ tokens.take (firstEnd tokens)) :
    t.kind ≠ .endOfInput := by
  obtain ⟨i, hi, rfl⟩ := List.mem_take_iff_getElem.mp ht
  have hnot := List.not_of_lt_findIdx (Nat.lt_min.mp hi).1
  exact of_decide_eq_false hnot

/-- From a place up to the first end of input, the other slice has the same tokens up to
there. -/
theorem drop_of_le (hs : s.current ≤ firstEnd tokens) (beyond : List Token) :
    (tokens.take (firstEnd tokens + 1) ++ beyond).drop s.current =
      (tokens.take (firstEnd tokens)).drop s.current ++ tokens[firstEnd tokens] :: beyond := by
  have hlength : (tokens.take (firstEnd tokens)).length = firstEnd tokens :=
    List.length_take_of_le hends.le
  rw [List.take_succ_eq_append_getElem hends, List.append_assoc, List.singleton_append,
    List.drop_append_of_le_length (by rw [hlength]; exact hs)]

/-- At such a place the slice and its twin stand before sequences that correspond. -/
theorem beside_twin (hs : s.current ≤ firstEnd tokens) (beyond : List Token) :
    (twin hends beyond).Beside (firstEnd tokens - s.current) ⟨tokens.drop s.current, s.nesting⟩
      ⟨(tokens.take (firstEnd tokens + 1) ++ beyond).drop s.current, s.nesting⟩ := by
  refine ⟨?_, rfl⟩
  have hleft := drop_of_le hends hs (tokens.drop (firstEnd tokens + 1))
  rw [List.take_append_drop] at hleft
  have hlength : ((tokens.take (firstEnd tokens)).drop s.current).length =
      firstEnd tokens - s.current := by
    rw [List.length_drop, List.length_take_of_le hends.le]
  rw [hleft, drop_of_le hends hs beyond, ← hlength]
  exact (twin hends beyond).ahead_of_map rfl fun t ht =>
    kind_ne_of_mem_take (List.mem_of_mem_drop ht)

theorem not_cut_twin (beyond : List Token) : ¬ (twin hends beyond).Cut :=
  Coupling.not_cut_of_tokens rfl

end rules

/-! ## Every rule is total -/

/-- A slice beside itself. -/
def self (hends : firstEnd tokens < tokens.length) : Coupling :=
  twin hends (tokens.drop (firstEnd tokens + 1))

section total

variable (hends : firstEnd tokens < tokens.length)

include hends

/-- A slice corresponds to itself. -/
theorem beside_self (hs : s.current ≤ firstEnd tokens) :
    (self hends).Beside (firstEnd tokens - s.current) ⟨tokens.drop s.current, s.nesting⟩
      ⟨tokens.drop s.current, s.nesting⟩ := by
  have h := beside_twin hends hs (tokens.drop (firstEnd tokens + 1))
  rwa [List.take_append_drop] at h

/-- Fuel for more than all tokens is ample. -/
theorem ample_self (hfuel : tokens.length < fuel) :
    (self hends).Ample (firstEnd tokens) fuel fuel := by
  have hlength : firstEnd tokens + 1 + (tokens.drop (firstEnd tokens + 1)).length < fuel := by
    rw [List.length_drop]
    omega
  exact ⟨hlength, hlength⟩

/-- A reader that tracks a parser advances, if the parser is abreast of itself and reads
some token wherever it gives a value. -/
theorem advances_of_tracks {x : Indexed α} {p : Parser α} {D : α → List Token → Prop}
    (V : α → α → Prop) (htracks : Tracks tokens x p) (hreads : ∀ c, Parse.Reads c p D)
    (hne : ∀ a ts, D a ts → ts ≠ [])
    (habreast : ∀ k ≤ firstEnd tokens, ∀ c, (self hends).Beside k c c →
      (self hends).Settles k V (p c) (p c)) : Advances tokens x := by
  intro s hs
  have hstands : Stands tokens s ⟨tokens.drop s.current, s.nesting⟩ := ⟨rfl, rfl, hs⟩
  have hsettles := habreast _ (Nat.sub_le _ _) _ (beside_self hends hs)
  have hsame := htracks s _ hstands
  generalize hr : x s = r, hr' : p _ = r' at hsame hsettles
  cases hsame with
  | @ok a s' c' h =>
      obtain ⟨ts, hrest, hnesting, _, hd⟩ := hreads _ a c' hr'
      refine .inl ⟨a, s', rfl, ?_, h.le, h.nesting.symm.trans hnesting⟩
      have hlength := congrArg List.length hrest
      have hpos := List.length_pos_iff.mpr (hne a ts hd)
      have hle := h.le
      rw [List.length_append, h.rest, List.length_drop, List.length_drop] at hlength
      omega
  | @stop e s' c' h =>
      cases e with
      | fault e => exact .inr ⟨e, s', rfl, h.le⟩
      | exhausted =>
          cases hsettles with
          | agrees hagrees =>
              cases hagrees with
              | cut hcut => exact absurd hcut (not_cut_twin hends _)

/-- The rule for unary expressions is abreast of itself, so it does not run out of fuel. -/
theorem abreast_unary_self (hfuel : tokens.length < fuel) :
    (self hends).Abreast (firstEnd tokens) (self hends).exprs (Parse.unary fuel)
      (Parse.unary fuel) :=
  Parse.abreast_unary (hends.trans hfuel) (hends.trans hfuel)

/-- Unary expressions advance: the reader tracks the parser, which gives a value or a
fault. -/
theorem advances_unary (hfuel : tokens.length < fuel) : Advances tokens (unary tokens fuel) := by
  refine advances_of_tracks hends (self hends).exprs (tracks_unary hends fuel)
    (Parse.reads_unary fuel) (fun _ _ h => Parse.Opens.ne_nil (Parse.starts_of_derives h))
    fun k hk c hc => .agrees ?_
  exact abreast_unary_self hends hfuel k hk c c hc

/-- Expressions advance, as they begin with a unary one. -/
theorem advances_expression (hfuel : tokens.length < fuel) :
    Advances tokens (wholeExpression tokens fuel) := by
  have hlt := hends.trans hfuel
  refine advances_of_tracks hends (self hends).exprs
    (tracks_expression hends fuel (tracks_unary hends fuel))
    (Parse.reads_expression (Parse.reads_unary fuel)) (fun _ _ => Parse.ne_nil_of_derives)
    fun k hk c hc => .agrees ?_
  exact Parse.abreast_expression (abreast_unary_self hends hfuel) hlt hlt k hk c c hc

/-- A statement by index is one of the parser. -/
theorem tracks_wholeStatement (fuel : Nat) :
    Tracks tokens (wholeStatement tokens fuel)
      (Parse.statement fuel (Parse.expression fuel (Parse.unary fuel)) fuel) :=
  tracks_statement hends fuel (tracks_expression hends fuel (tracks_unary hends fuel)) fuel

/-- Statements advance, for each of them takes a token. -/
theorem advances_statement (hfuel : tokens.length < fuel) :
    Advances tokens (wholeStatement tokens fuel) := by
  have hreads := @Parse.reads_expression fuel _ (Parse.reads_unary fuel)
  refine advances_of_tracks hends (self hends).stmts (tracks_wholeStatement hends fuel)
    (Parse.reads_statement hreads fuel) (fun _ _ => Parse.ne_nil_of_statement) ?_
  exact fun k hk c hc => (Parse.settles_whole (ample_self hends hfuel)).2 k hk c c hc

/-- Blocks advance, for they take their braces. -/
theorem advances_block (hfuel : tokens.length < fuel) :
    Advances tokens (wholeBlock tokens fuel) := by
  have hreads := @Parse.reads_expression fuel _ (Parse.reads_unary fuel)
  have hample := ample_self hends hfuel
  obtain ⟨hproceeds, hstatement⟩ := Parse.settles_whole hample
  refine advances_of_tracks hends (self hends).bodies
    (tracks_block hends fuel (tracks_wholeStatement hends fuel))
    (Parse.reads_block (Parse.reads_statement hreads fuel)) (fun _ _ h => ?_)
    fun k hk c hc => .agrees ?_
  · cases h
    exact List.cons_ne_nil _ _
  · have habreast := Parse.abreast_block hproceeds hample fun j hj => hstatement j hj.le
    exact habreast k hk c c hc

/-! ## Whole slices -/

/-- Statements that differ in no place are equal. -/
theorem bodies_eq {beyond : List Token} {b b' : List Stmt}
    (h : (twin hends beyond).bodies b b') : b = b' := by
  have hid : Stmt.relocate id = id := funext Stmt.relocate_id
  have hmap : b.map (Stmt.relocate id) = b'.map (Stmt.relocate id) := h
  rwa [hid, List.map_id, List.map_id] at hmap

/-- With enough fuel the program is read as it is with just enough. -/
theorem agrees_run (hfuel : tokens.length < fuel) :
    (self hends).Agrees (firstEnd tokens) (self hends).bodies (Parse.run tokens)
      (Parse.wholeProgram fuel ⟨tokens, 0⟩) := by
  have hsame : (self hends).tokens (self hends).ending (self hends).ending' := rfl
  have hample : (self hends).Ample (firstEnd tokens) (tokens.length + 1) fuel :=
    ⟨(ample_self hends (Nat.lt_succ_self _)).left, (ample_self hends hfuel).right⟩
  have hbeside := beside_self hends (s := ⟨0, 0⟩) (Nat.zero_le _)
  exact Parse.agrees_program hsame hample (hends.trans (Nat.lt_succ_self _)) (hends.trans hfuel)
    hbeside

/-- A cursor at the end of input stands at the first one. -/
theorem Stands.current_eq {c : Cursor} (h : Stands tokens s c) (hc : c.atEnd = true) :
    s.current = firstEnd tokens := by
  refine Nat.le_antisymm h.le (Nat.le_of_not_lt fun hlt => ?_)
  have hcurrent := h.getElem?_current hends
  have hmem : c.current ∈ tokens.take (firstEnd tokens) := by
    rw [← List.getElem?_take_of_lt hlt] at hcurrent
    exact List.mem_of_getElem? hcurrent
  exact kind_ne_of_mem_take hmem (by simpa [Cursor.atEnd] using hc)

/-- A slice with an end of input is read to a program, or to a fault, inside of it. -/
theorem parse_of_terminated (hterminated : Parse.terminated tokens = true)
    (hfuel : tokens.length < fuel) :
    ∃ s : Place, s.current ≤ firstEnd tokens ∧
      ((∃ program, parse tokens fuel ⟨0, 0⟩ = .ok program s ∧ s.current = firstEnd tokens ∧
          parseTokens tokens = .ok program) ∨
        ∃ e, parse tokens fuel ⟨0, 0⟩ = .error (.stop (.fault e)) s ∧
          parseTokens tokens = .error e) := by
  have hstands : Stands tokens ⟨0, 0⟩ ⟨tokens, 0⟩ := ⟨rfl, rfl, Nat.zero_le _⟩
  have hsame := tracks_program hends fuel (tracks_wholeStatement hends fuel) fuel _ _ hstands
  have hagrees := agrees_run hends hfuel
  rw [parse, if_pos hterminated, parseTokens, if_pos hterminated]
  rw [Parse.wholeProgram] at hagrees
  generalize hr : program tokens fuel _ fuel ⟨0, 0⟩ = r,
    hr' : Parse.program fuel _ fuel ⟨tokens, 0⟩ = r' at hsame hagrees
  generalize Parse.run tokens = just at hagrees ⊢
  cases hagrees with
  | ok _ _ hbodies =>
      obtain rfl := bodies_eq hends hbodies
      cases hsame with
      | @ok program s c hs =>
          have hend := hs.current_eq hends (Parse.atEnd_of_program_eq_ok hr')
          exact ⟨s, hs.le, .inl ⟨_, hr, hend, rfl⟩⟩
  | @fault e e' _ _ he =>
      obtain rfl : e = e' := he
      cases hsame with
      | @stop _ s _ hs => exact ⟨s, hs.le, .inr ⟨e, hr, rfl⟩⟩
  | cut hcut => exact absurd hcut (not_cut_twin hends _)

/-- What stands after the first end of input is not read. -/
theorem parseTokens_take (hterminated : Parse.terminated tokens = true) :
    parseTokens (tokens.take (firstEnd tokens + 1)) = parseTokens tokens := by
  have htake : tokens.take (firstEnd tokens + 1) =
      tokens.take (firstEnd tokens) ++ [tokens[firstEnd tokens]] :=
    List.take_succ_eq_append_getElem hends
  have hterminated' : Parse.terminated (tokens.take (firstEnd tokens + 1)) = true := by
    rw [htake]
    exact Parse.terminated_concat (kind_firstEnd hends)
  have hbeside := beside_twin hends (s := ⟨0, 0⟩) (Nat.zero_le _) []
  rw [List.append_nil] at hbeside
  have hsame : (twin hends []).tokens (twin hends []).ending (twin hends []).ending' := rfl
  have hcoupled := parseTokens_coupled hsame hbeside.rest hterminated hterminated'
  rw [show (twin hends []).left = id from rfl, show (twin hends []).right = id from rfl] at hcoupled
  have hid : ∀ r : Except GrammarError (List Stmt),
      (r.map (List.map (Stmt.relocate id))).mapError (GrammarError.relocate id) = r := by
    intro r
    rw [show Stmt.relocate id = id from funext Stmt.relocate_id, List.map_id_fun]
    cases r <;> rfl
  rw [hid, hid] at hcoupled
  exact hcoupled.symm

end total

end Indexed

/-- **The parser is total and stays in its slice.**  A slice that does not end in an end
of input is refused at once.  On every other slice, with fuel for every token, the parser
ends in a program, before the first end of input, or in a fault, not beyond it, and what
comes after is not read.  From every place up to there the token at the cursor can be
read, and taken unless it is the end of input; and every statement, block, expression or
unary expression that is read moves the cursor forward. -/
theorem parser_total (tokens : List Token) {fuel : Nat} (hfuel : tokens.length < fuel) :
    let firstEnd := Indexed.firstEnd tokens
    let outcome := Indexed.parse tokens fuel ⟨0, 0⟩
    (Parse.terminated tokens = false →
      outcome = .error (.stop (.fault (Parse.unterminated tokens))) ⟨0, 0⟩ ∧
        parseTokens tokens = .error (Parse.unterminated tokens)) ∧
    (Parse.terminated tokens = true →
      (∃ s : Place, s.current ≤ firstEnd ∧
        ((∃ program, outcome = .ok program s ∧ s.current = firstEnd ∧
            parseTokens tokens = .ok program) ∨
          ∃ e, outcome = .error (.stop (.fault e)) s ∧ parseTokens tokens = .error e)) ∧
      parseTokens (tokens.take (firstEnd + 1)) = parseTokens tokens ∧
      (∀ s : Place, s.current ≤ firstEnd → ∃ t, tokens[s.current]? = some t ∧
        Indexed.peek tokens s = .ok t s ∧
        if t.kind = .endOfInput then s.current = firstEnd
        else Indexed.advance tokens s = .ok t s.next ∧ s.next.current ≤ firstEnd) ∧
      Indexed.Advances tokens (Indexed.wholeStatement tokens fuel) ∧
      Indexed.Advances tokens (Indexed.wholeBlock tokens fuel) ∧
      Indexed.Advances tokens (Indexed.wholeExpression tokens fuel) ∧
      Indexed.Advances tokens (Indexed.unary tokens fuel)) := by
  intro firstEnd outcome
  constructor
  · intro h
    have hnot : ¬ Parse.terminated tokens = true := by simp [h]
    constructor
    · simp only [outcome, Indexed.parse, if_neg hnot]
      rfl
    · rw [parseTokens, if_neg hnot]
  · intro h
    have hends := Indexed.firstEnd_lt_of_terminated h
    refine ⟨Indexed.parse_of_terminated hends h hfuel, Indexed.parseTokens_take hends h,
      fun s hs => ?_, Indexed.advances_statement hends hfuel, Indexed.advances_block hends hfuel,
      Indexed.advances_expression hends hfuel, Indexed.advances_unary hends hfuel⟩
    have hstands : Indexed.Stands tokens s ⟨tokens.drop s.current, s.nesting⟩ := ⟨rfl, rfl, hs⟩
    refine ⟨_, hstands.getElem?_current hends, hstands.peek_eq hends, ?_⟩
    split
    · next hkind => exact hstands.current_eq hends (by simp [Cursor.atEnd, hkind])
    · next hkind =>
        have hatEnd := Cursor.atEnd_of_current_kind rfl hkind
        exact ⟨hstands.advance_eq hends hatEnd, (hstands.next hends hatEnd).le⟩

/-- An end of input in the middle of the slice: what stands before it is the program, and
the brace after it is not read. -/
theorem parser_total_early_end :
    let x : Token := ⟨.identifier, "x", ⟨1, 1⟩⟩
    let tokens : List Token := [x, ⟨.semicolon, ";", ⟨1, 2⟩⟩, .finish ⟨1, 3⟩,
      ⟨.rightBrace, "\x7d", ⟨1, 4⟩⟩, .finish ⟨1, 5⟩]
    tokens.length < 6 ∧ Parse.terminated tokens = true ∧
      (∃ s : Place, s.current = 2 ∧
        Indexed.parse tokens 6 ⟨0, 0⟩ = .ok [.expression (.variable "x" ⟨1, 1⟩)] s) ∧
      parseTokens (tokens.take 3) = parseTokens tokens ∧
      Indexed.Advances tokens (Indexed.wholeStatement tokens 6) := by
  intro x tokens
  have hprogram : parseTokens tokens = .ok [.expression (.variable "x" ⟨1, 1⟩)] := by decide +kernel
  obtain ⟨-, htotal⟩ := parser_total tokens (show tokens.length < 6 by decide)
  obtain ⟨⟨s, -, houtcome⟩, htake, -, hadvances, -⟩ := htotal (by decide)
  refine ⟨by decide, by decide, ⟨s, ?_⟩, htake, hadvances⟩
  obtain ⟨program, hrun, hs, hread⟩ | ⟨e, -, hread⟩ := houtcome
  · rw [hprogram] at hread
    cases hread
    exact ⟨hs, hrun⟩
  · rw [hprogram] at hread
    contradiction

end Abacus
