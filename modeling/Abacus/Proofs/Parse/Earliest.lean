import Abacus.Proofs.Parse.Joined
import Abacus.Proofs.Parse.Literal
import Abacus.Proofs.Parse.Sentences

/-!
# Abacus.Proofs.Parse.Earliest

A fault of the grammar is met at the earliest token possible.  Of tokens as the scanner
makes them, those before the fault are the front of a program, unless a limit was met or
there is no room to nest (`exists_program_of_run`); and together with the token at which
it is met they are the front of none, since the parser stops there whatever comes next
(`run_of_same_front`).

Programs are read steadily with any amount of fuel that lasts (`ready_wholeProgram`), and
a token sequence has fuel that lasts (`run_ne_exhausted`).
-/

namespace Abacus

namespace Parse

/-- Tokens as the scanner makes them: the last one and no other is the end of input, and
numbers are spelled as such. -/
def Scannable (tokens : List Token) : Prop :=
  ∃ body eoi, tokens = body ++ [eoi] ∧ Proper body ∧ eoi.kind = .endOfInput

theorem scannable_of_tokenize {source : String} {tokens : List Token}
    (h : tokenize source = .ok tokens) : Scannable tokens := by
  obtain ⟨body, p, rfl, hbody⟩ := tokenize_eq_append_finish h
  refine ⟨body, .finish p, rfl, fun t ht => ⟨(hbody t ht).1.ne_endOfInput, fun hkind => ?_⟩, rfl⟩
  have hspells := (hbody t ht).1
  rw [hkind] at hspells
  exact Scan.spells_iff_matches.mp hspells

variable {tokens : List Token}

namespace Scannable

theorem terminated (h : Scannable tokens) : Parse.terminated tokens = true := by
  obtain ⟨body, eoi, rfl, _, heoi⟩ := h
  exact terminated_concat heoi

theorem parseTokens_eq_ok (h : Scannable tokens) {program : List Stmt} {c : Cursor}
    (hrun : run tokens = .ok program c) : parseTokens tokens = .ok program := by
  rw [parseTokens, if_pos h.terminated, hrun]

theorem parseTokens_eq_error (h : Scannable tokens) {e : GrammarError} {c : Cursor}
    (hrun : run tokens = .error (.fault e) c) : parseTokens tokens = .error e := by
  rw [parseTokens, if_pos h.terminated, hrun]

end Scannable

/-! ## Fuel -/

/-- There is fuel enough for every token. -/
theorem run_ne_exhausted (h : Scannable tokens) (c : Cursor) :
    run tokens ≠ .error .exhausted c := by
  obtain ⟨body, eoi, rfl, hbody, heoi⟩ := h
  have hends : ∀ t ∈ body, t.kind ≠ .endOfInput := fun t ht => (hbody t ht).ne_endOfInput
  have hagrees := agrees_moved hends heoi id (Nat.lt_succ_self _) (Nat.lt_succ_self _)
  intro hrun
  rw [hrun] at hagrees
  cases hagrees with
  | cut hcut => exact absurd hcut (Coupling.not_cut_of_tokens rfl)

/-- What is yielded with any fuel is the outcome. -/
theorem run_of_yields (h : Scannable tokens) {r : Outcome (List Stmt)}
    (hyields : ∀ i, Yields (wholeProgram i ⟨tokens, 0⟩) r) : run tokens = r :=
  (hyields (tokens.length + 1)).resolve_right fun ⟨c, hc⟩ => run_ne_exhausted h c hc

/-! ## Where the parser stops -/

/-- The parser stops at a token, with a fault that is not about the text of a number. -/
theorem exists_split_of_run (h : Scannable tokens) {stop : ParseStop} {c : Cursor}
    (hrun : run tokens = .error stop c) :
    ∃ e ts t r, stop = .fault e ∧ e.expected ≠ .numericLiteral ∧ tokens = ts ++ t :: r ∧
      c.rest = t :: r ∧ Proper ts := by
  cases stop with
  | exhausted => exact absurd hrun (run_ne_exhausted h c)
  | fault e =>
      obtain ⟨body, eoi, rfl, hbody, heoi⟩ := h
      obtain ⟨ts, hsplit, hends, hblames⟩ := faults_wholeProgram _ _ (Int.le_refl 0) _ c hrun
      replace hsplit : body ++ [eoi] = ts ++ c.rest := hsplit
      have hproper : Proper ts := fun t ht => by
        have hmem : t ∈ body ++ [eoi] := hsplit ▸ List.mem_append_left _ ht
        obtain hmem | hmem := List.mem_append.mp hmem
        · exact hbody t hmem
        · obtain rfl := List.mem_singleton.mp hmem
          exact absurd heoi (hends t ht)
      have hliteral : e.expected ≠ .numericLiteral := by
        obtain ⟨hne, _⟩ | ⟨t, ht, hkind, hread, _⟩ := hblames.named
        · exact hne
        · have hsome := ((hproper t ht).spelled hkind).isSome_read?
          rw [hread] at hsome
          contradiction
      cases hrest : c.rest with
      | nil =>
          rw [hrest, List.append_nil] at hsplit
          exact absurd heoi (hends eoi (hsplit ▸ List.mem_append_right body List.mem_cons_self))
      | cons t r =>
          rw [hrest] at hsplit
          exact ⟨e, ts, t, r, rfl, hliteral, hsplit, rfl, hproper⟩

variable {ts r : List Token} {t : Token} {e : GrammarError} {n : Nat}

/-- What was read before a fault is the front of a program. -/
theorem exists_program_of_run (hts : Proper ts) (he : Avoidable e) (hn : n < nestingLimit)
    (hrun : run (ts ++ r) = .error (.fault e) ⟨r, n⟩) :
    ∃ others program, Scannable others ∧ ts <+: others ∧ parseTokens others = .ok program := by
  obtain ⟨us, program, hus, hcompletes⟩ :=
    ((ready_wholeProgram _).viable (le_refl _)).completes he hn hrun
  have hothers : Scannable (ts ++ (us ++ [.finish .first])) :=
    ⟨ts ++ us, .finish .first, (List.append_assoc ts us _).symm, hts.append hus, rfl⟩
  have hok := run_of_yields hothers (hcompletes [.finish .first] rfl).2
  exact ⟨_, program, hothers, List.prefix_append _ _, hothers.parseTokens_eq_ok hok⟩

/-- A fault that is no limit is met at the same token whatever comes after it. -/
theorem run_of_same_front (hlimit : e.expected.isLimit = false)
    (hrun : run (ts ++ t :: r) = .error (.fault e) ⟨t :: r, n⟩) {r' : List Token}
    (h : Scannable (ts ++ t :: r')) :
    run (ts ++ t :: r') = .error (.fault e) ⟨t :: r', n⟩ := by
  have halong := (ready_wholeProgram ((ts ++ t :: r).length + 1)).along (ts ++ [t])
  have hfront : ∀ r, ts ++ t :: r = ts ++ [t] ++ r := List.append_cons ts t
  have hstop : wholeProgram ((ts ++ t :: r).length + 1) ⟨ts ++ [t] ++ r, 0⟩ =
      .error (.fault e) ⟨[t] ++ r, n⟩ := hfront r ▸ hrun
  rw [hfront r'] at h ⊢
  refine run_of_yields h (halong.fault (List.cons_ne_nil t []) hstop fun hlimit' => ?_)
  exact absurd (hlimit.symm.trans hlimit') Bool.false_ne_true

end Parse

/-- **Faults of the grammar are met at the earliest token possible.**  If the parser
refuses a token sequence at the token `k` with a fault that is no limit, and there is room
to nest, then the `k` tokens before it are the front of a program; but every sequence that
starts with those and the token `k` is refused at `k` with the same fault. -/
theorem fault_at_earliest_token {tokens : List Token} {e : GrammarError} {stop : ParseStop}
    {c : Cursor} (htokens : Parse.Scannable tokens) (hparse : parseTokens tokens = .error e)
    (hrun : Parse.run tokens = .error stop c) (hlimit : e.expected.isLimit = false)
    (hnesting : c.nesting < nestingLimit) :
    ∃ k < tokens.length, c.rest = tokens.drop k ∧
      (∃ others program, Parse.Scannable others ∧ tokens.take k <+: others ∧
        parseTokens others = .ok program) ∧
      ∀ others, Parse.Scannable others → tokens.take (k + 1) <+: others →
        parseTokens others = .error e ∧
          Parse.run others = .error stop ⟨others.drop k, c.nesting⟩ := by
  obtain ⟨e', ts, t, r, rfl, hliteral, rfl, hrest, hts⟩ := Parse.exists_split_of_run htokens hrun
  obtain rfl : e' = e := Except.error.inj ((htokens.parseTokens_eq_error hrun).symm.trans hparse)
  obtain ⟨rest, n⟩ := c
  obtain rfl : rest = t :: r := hrest
  refine ⟨ts.length, by simp, by simp, ?_, fun others hothers hprefix => ?_⟩
  · rw [List.take_left]
    exact Parse.exists_program_of_run hts ⟨hlimit, hliteral⟩ hnesting hrun
  · rw [List.take_length_add_append, List.take_succ_cons, List.take_zero] at hprefix
    obtain ⟨r', rfl⟩ := hprefix
    rw [← List.append_cons] at hothers ⊢
    have hsame := Parse.run_of_same_front hlimit hrun hothers
    exact ⟨hothers.parseTokens_eq_error hsame, by rw [hsame, List.drop_left]⟩

/-- Two arguments without a comma: the second one is to blame, whatever follows it. -/
theorem fault_at_earliest_token_arguments :
    let front : List Token :=
      [⟨.identifier, "a", ⟨1, 1⟩⟩, ⟨.operator .assign, "=", ⟨1, 3⟩⟩, ⟨.identifier, "f", ⟨1, 5⟩⟩,
        ⟨.leftParen, "(", ⟨1, 6⟩⟩, ⟨.identifier, "x", ⟨1, 7⟩⟩]
    let second : Token := ⟨.number, "2", ⟨1, 9⟩⟩
    let tokens := front ++ [second, ⟨.rightParen, ")", ⟨1, 10⟩⟩, .finish ⟨1, 11⟩]
    let e : GrammarError := .atToken .closeArguments second
    Parse.Scannable tokens ∧ parseTokens tokens = .error e ∧
      Parse.run tokens = .error (.fault e) ⟨tokens.drop 5, 1⟩ ∧
      e.expected.isLimit = false ∧ 1 < nestingLimit ∧
      (∃ others program, Parse.Scannable others ∧ front <+: others ∧
        parseTokens others = .ok program) ∧
      ∀ others, Parse.Scannable others → front ++ [second] <+: others →
        parseTokens others = .error e ∧
          Parse.run others = .error (.fault e) ⟨others.drop 5, 1⟩ := by
  intro front second tokens e
  have hscan : tokenize "a = f(x 2)" = .ok tokens := by decide +kernel
  have htokens : Parse.Scannable tokens := Parse.scannable_of_tokenize hscan
  have hrun : Parse.run tokens = .error (.fault e) ⟨tokens.drop 5, 1⟩ := rfl
  have hparse : parseTokens tokens = .error e := htokens.parseTokens_eq_error hrun
  obtain ⟨k, hk, hrest, hfront, hsame⟩ :=
    fault_at_earliest_token htokens hparse hrun rfl (by decide)
  obtain rfl : k = 5 := by
    have hlength := congrArg List.length hrest
    have height : tokens.length = 8 := rfl
    simp only [List.length_drop] at hlength
    omega
  exact ⟨htokens, hparse, hrun, rfl, by decide, hfront, hsame⟩

end Abacus
