import Abacus.Proofs.Parse.Faults
import Abacus.Proofs.Token.Spacing

/-!
# Abacus.Proofs.Parse.Source

Sources and their tokens.  The tokens of a source end with the end of input, which
they have nowhere else.  An accepted source is derived from the tokens before it
(`forms_of_parseSource`), and a source that is refused for its grammar is so at one of
its tokens (`exists_pos_eq_of_parseSource`).
-/

namespace Abacus

open Grammar

/-- The tokens of a source up to the end of input. -/
structure TokensOf (source : String) (body : List Token) (eoi : Token) : Prop where
  tokenize_eq : tokenize source = .ok (body ++ [eoi])
  ne_endOfInput : ∀ t ∈ body, t.kind ≠ .endOfInput
  endOfInput : eoi.kind = .endOfInput

theorem exists_tokensOf {source : String} {tokens : List Token}
    (h : tokenize source = .ok tokens) :
    ∃ body eoi, tokens = body ++ [eoi] ∧ TokensOf source body eoi := by
  obtain ⟨body, p, rfl, hbody⟩ := tokenize_eq_append_finish h
  exact ⟨body, .finish p, rfl, h, fun t ht => (hbody t ht).1.ne_endOfInput, rfl⟩

/-- An accepted source is derived from its tokens. -/
theorem forms_of_parseSource {source : String} {program : List Stmt}
    (h : parseSource source = .ok program) :
    ∃ body eoi, TokensOf source body eoi ∧ Forms (.sequence program) body := by
  obtain ⟨tokens, htokens, hparse⟩ := parseSource_eq_ok h
  obtain ⟨body, eoi, rfl, hof⟩ := exists_tokensOf htokens
  obtain ⟨c, hrun⟩ := Parse.run_of_parseTokens_eq_ok hparse
  exact ⟨body, eoi, hof, Parse.forms_of_run hof.ne_endOfInput hof.endOfInput hrun⟩

/-- A source that is refused for its grammar is so at one of its tokens. -/
theorem exists_pos_eq_of_parseSource {source : String} {e : GrammarError}
    (h : parseSource source = .error (.grammar e)) :
    ∃ tokens, tokenize source = .ok tokens ∧ ∃ t ∈ tokens, t.pos = e.pos := by
  obtain ⟨tokens, htokens, hparse⟩ := parseSource_eq_error h
  obtain ⟨body, eoi, rfl, hof⟩ := exists_tokensOf htokens
  obtain ⟨ts, next, rest, hsplit, _, hblames⟩ := Parse.blames_of_parseTokens hof.endOfInput hparse
  refine ⟨_, htokens, ?_⟩
  rw [hsplit]
  obtain ⟨_, heq⟩ | ⟨t, ht, _, _, heq⟩ := hblames.named
  · exact ⟨next, List.mem_append_right _ List.mem_cons_self, by rw [heq]; rfl⟩
  · exact ⟨t, List.mem_append_left _ ht, by rw [heq]; rfl⟩

end Abacus
