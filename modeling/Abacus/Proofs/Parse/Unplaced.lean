import Abacus.Proofs.Parse.Abreast
import Abacus.Proofs.Token.Spacing

/-!
# Abacus.Proofs.Parse.Unplaced

Parsers do not look at places.  Two token sequences that differ only in their places
are coupled, with every place seen as the first one; so the trees that they are read as
differ only in their places, and so do their faults (`parseTokens_unplaced`).
-/

namespace Abacus

/-- The fault with its place at the start. -/
def GrammarError.unplaced (e : GrammarError) : GrammarError := { e with pos := .first }

/-- A terminated sequence has a first end of input. -/
theorem exists_ending {tokens : List Token} (h : Parse.terminated tokens = true) :
    ∃ ts ending beyond, tokens = ts ++ ending :: beyond ∧ ending.kind = .endOfInput ∧
      ∀ t ∈ ts, t.kind ≠ .endOfInput := by
  rw [Parse.terminated, Option.any_eq_true] at h
  obtain ⟨last, hlast, hkind⟩ := h
  have hsome : (tokens.find? fun t => t.kind = .endOfInput).isSome :=
    List.find?_isSome.mpr ⟨last, List.mem_of_getLast? hlast, hkind⟩
  obtain ⟨ending, hending⟩ := Option.isSome_iff_exists.mp hsome
  obtain ⟨hkind, ts, beyond, hsplit, hts⟩ := List.find?_eq_some_iff_append.mp hending
  exact ⟨ts, ending, beyond, hsplit, by simpa using hkind, by simpa using hts⟩

/-- Tokens that differ only in their places are read as the same program up to
places, or the same fault up to its place. -/
theorem parseTokens_unplaced {tokens tokens' : List Token}
    (h : tokens.map Token.unplaced = tokens'.map Token.unplaced) :
    ((parseTokens tokens).map (List.map Stmt.unplaced)).mapError GrammarError.unplaced =
      ((parseTokens tokens').map (List.map Stmt.unplaced)).mapError GrammarError.unplaced := by
  have hlast : ∀ ts : List Token, Parse.terminated ts =
      (ts.map Token.unplaced).getLast?.any fun t => t.kind = .endOfInput := by
    intro ts
    rw [List.getLast?_map, Option.any_map]
    rfl
  have hsame : Parse.terminated tokens' = Parse.terminated tokens := by rw [hlast, hlast, h]
  cases hterminated : Parse.terminated tokens with
  | false =>
      rw [parseTokens, parseTokens, hsame, hterminated]
      rfl
  | true =>
      obtain ⟨ts, ending, beyond, rfl, hkind, hts⟩ := exists_ending hterminated
      rw [List.map_append, List.map_cons, eq_comm] at h
      obtain ⟨ts', tail', rfl, hinit, htail⟩ := List.map_eq_append_iff.mp h
      obtain ⟨ending', beyond', rfl, hending, _⟩ := List.map_eq_cons_iff.mp htail
      let A : Coupling := ⟨fun _ => .first, fun _ => .first, ending, beyond, ending', beyond',
        hkind, .inl hending.symm⟩
      have hahead := A.ahead_of_map hinit.symm hts
      exact parseTokens_coupled (A := A) hending.symm hahead hterminated (hsame.trans hterminated)

/-! ## Sources -/

/-- The fault with its place at the start. -/
def LexicalError.unplaced : LexicalError → LexicalError
  | unexpectedChar c _ => unexpectedChar c .first
  | unterminatedString _ => unterminatedString .first
  | unknownEscape c _ => unknownEscape c .first

/-- The fault with its place at the start. -/
def SourceError.unplaced : SourceError → SourceError
  | lexical e => lexical e.unplaced
  | grammar e => grammar e.unplaced

/-- Sources with the same tokens up to places are read alike, up to places. -/
theorem parseSource_unplaced {source source' : String} {tokens tokens' : List Token}
    (htokens : tokenize source = .ok tokens) (htokens' : tokenize source' = .ok tokens')
    (h : tokens.map Token.unplaced = tokens'.map Token.unplaced) :
    ((parseSource source).map (List.map Stmt.unplaced)).mapError SourceError.unplaced =
      ((parseSource source').map (List.map Stmt.unplaced)).mapError SourceError.unplaced := by
  have hread := parseTokens_unplaced h
  rw [parseSource_of_tokenize htokens, parseSource_of_tokenize htokens']
  generalize parseTokens tokens = r, parseTokens tokens' = r' at hread ⊢
  have hgrammar : ∀ r : Except GrammarError (List Stmt),
      ((r.mapError SourceError.grammar).map (List.map Stmt.unplaced)).mapError
        SourceError.unplaced =
      ((r.map (List.map Stmt.unplaced)).mapError GrammarError.unplaced).mapError .grammar := by
    intro r
    cases r <;> rfl
  rw [hgrammar, hgrammar, hread]

end Abacus
