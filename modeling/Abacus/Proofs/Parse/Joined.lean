import Abacus.Proofs.Parse.Abreast
import Abacus.Proofs.Parse.Source
import Abacus.Proofs.Token.Joined

/-!
# Abacus.Proofs.Parse.Joined

Programs one after the other.  Where a program ends, a semicolon ends it as the end of
input does, and what follows is read as if it stood alone.  So the tokens of an accepted
program, a semicolon and the tokens of another one are read as the statements of the first
and then those of the second (`parseTokens_joined`), and a source is read so that is made of
two sources with a semicolon on a line of its own between them (`parseSource_joinTexts`).
-/

namespace Abacus

variable {body body' : List Token} {eoi eoi' : Token}

/-- A program up to the end of input is read also up to a semicolon, and the rest after
it. -/
theorem run_of_semicolon (hbody : ∀ t ∈ body, t.kind ≠ .endOfInput)
    (heoi : eoi.kind = .endOfInput) {semicolon : Token} (hsemicolon : semicolon.kind = .semicolon)
    {program : List Stmt} (h : parseTokens (body ++ [eoi]) = .ok program) (rest : List Token) :
    ∃ fuel m, (body ++ semicolon :: rest).length < fuel ∧ rest.length < m ∧
      Parse.run (body ++ semicolon :: rest) =
        (do
          let others ← Parse.program fuel
            (Parse.statement fuel (Parse.expression fuel (Parse.unary fuel)) fuel) m
          return program ++ others : Parser (List Stmt)) ⟨rest, 0⟩ := by
  let A : Coupling := ⟨id, id, eoi, [], semicolon, rest, heoi, .inr hsemicolon⟩
  have hahead : A.Ahead body.length (body ++ [eoi]) (body ++ semicolon :: rest) :=
    A.ahead_of_map rfl hbody
  obtain ⟨hlength, hlength'⟩ := hahead.length
  obtain ⟨c, hrun⟩ := Parse.run_of_parseTokens_eq_ok h
  have hfuel : A.Ample body.length ((body ++ [eoi]).length + 1)
    ((body ++ semicolon :: rest).length + 1) := ⟨by omega, by omega⟩
  have hc : A.Beside body.length ⟨body ++ [eoi], 0⟩ ⟨body ++ semicolon :: rest, 0⟩ := ⟨hahead, rfl⟩
  have hlt : body.length + 1 + A.beyond'.length < (body ++ semicolon :: rest).length + 1 := by omega
  obtain ⟨program', m, hsame, hm, hjoined⟩ :=
    Parse.program_of_cut (A := A) hsemicolon hfuel hlt hc hrun
  rw [Coupling.bodies, Stmt.map_relocate_id, Stmt.map_relocate_id] at hsame
  subst hsame
  exact ⟨_, m, Nat.lt_succ_self _, hm, hjoined⟩

/-- A sequence up to its end of input, and the same one at other places. -/
def Coupling.moved (f : Position → Position) (heoi : eoi.kind = .endOfInput) : Coupling :=
  ⟨f, id, eoi, [], eoi.relocate f, [], heoi, .inl rfl⟩

/-- Tokens at other places are read alike, with any fuel that is enough for them. -/
theorem agrees_moved (hbody : ∀ t ∈ body, t.kind ≠ .endOfInput) (heoi : eoi.kind = .endOfInput)
    (f : Position → Position) {fuel m : Nat} (hfuel : body.length + 1 < fuel)
    (hm : body.length < m) :
    (Coupling.moved f heoi).Agrees body.length (Coupling.moved f heoi).bodies
      (Parse.run (body ++ [eoi]))
      (Parse.program fuel (Parse.statement fuel (Parse.expression fuel (Parse.unary fuel)) fuel) m
        ⟨(body ++ [eoi]).map (Token.relocate f), 0⟩) := by
  have hahead : (Coupling.moved f heoi).Ahead body.length (body ++ [eoi])
      ((body ++ [eoi]).map (Token.relocate f)) := by
    rw [List.map_append]
    exact Coupling.ahead_of_map (A := .moved f heoi) (List.map_id' _).symm hbody
  have hlength : (body ++ [eoi]).length = body.length + 1 := List.length_append
  have hample : (Coupling.moved f heoi).Ample body.length ((body ++ [eoi]).length + 1) fuel :=
    ⟨by rw [hlength]; exact Nat.lt_succ_self _, hfuel⟩
  exact Parse.agrees_program (A := .moved f heoi) rfl hample (by omega) hm ⟨hahead, rfl⟩

/-- The tokens of an accepted program, a semicolon and more tokens, with other places,
are read as the program and what the others are read as. -/
theorem parseTokens_joined (hbody : ∀ t ∈ body, t.kind ≠ .endOfInput)
    (heoi : eoi.kind = .endOfInput) (hbody' : ∀ t ∈ body', t.kind ≠ .endOfInput)
    (heoi' : eoi'.kind = .endOfInput) {semicolon : Token}
    (hsemicolon : semicolon.kind = .semicolon) {program : List Stmt}
    (h : parseTokens (body ++ [eoi]) = .ok program) (f : Position → Position) :
    parseTokens (body ++ semicolon :: (body' ++ [eoi']).map (Token.relocate f)) =
      ((parseTokens (body' ++ [eoi'])).map fun others =>
        program ++ others.map (Stmt.relocate f)).mapError (GrammarError.relocate f) := by
  obtain ⟨fuel, m, hfuel, hm, hrun⟩ := run_of_semicolon hbody heoi hsemicolon h
    ((body' ++ [eoi']).map (Token.relocate f))
  simp only [List.length_append, List.length_cons, List.length_map, List.length_nil] at hfuel hm
  have hagrees := agrees_moved hbody' heoi' f (show body'.length + 1 < fuel by omega)
    (show body'.length < m by omega)
  have hterminated : Parse.terminated (body' ++ [eoi']) = true := Parse.terminated_concat heoi'
  have hterminated' : Parse.terminated
      (body ++ semicolon :: (body' ++ [eoi']).map (Token.relocate f)) = true := by
    rw [List.map_append, ← List.cons_append, ← List.append_assoc]
    exact Parse.terminated_concat heoi'
  rw [parseTokens, parseTokens, if_pos hterminated, if_pos hterminated', hrun]
  generalize Parse.run (body' ++ [eoi']) = r,
    hr' : Parse.program _ _ _ ⟨(body' ++ [eoi']).map (Token.relocate f), 0⟩ = r' at hagrees ⊢
  cases hagrees with
  | ok _ _ hothers =>
      rw [Coupling.bodies, Coupling.moved, Stmt.map_relocate_id] at hothers
      rw [Stateful.bind_of_ok _ hr', ← hothers]
      rfl
  | fault he =>
      rw [Stateful.bind_of_error _ hr']
      exact congrArg Except.error he.symm
  | cut hcut => exact absurd hcut (Coupling.not_cut_of_tokens rfl)

/-! ## Sources -/

/-- The fault at another place. -/
def SourceError.relocate (f : Position → Position) : SourceError → SourceError
  | lexical e => lexical (e.relocate f)
  | grammar e => grammar (e.relocate f)

/-- An accepted source and another one after a semicolon are read as the statements of the
first and those of the second further down, or refused for the fault of the second further
down. -/
theorem parseSource_joinTexts {first : String} {program : List Stmt}
    (h : parseSource first = .ok program) (second : String) :
    parseSource (joinTexts first second) =
      ((parseSource second).map fun others =>
        program ++ others.map (Stmt.relocate (.down (linesBefore first)))).mapError
        (SourceError.relocate (.down (linesBefore first))) := by
  obtain ⟨tokens, htokens, hparse⟩ := parseSource_eq_ok h
  obtain ⟨body, eoi, rfl, hof⟩ := exists_tokensOf htokens
  have hjoined := tokenize_joinTexts htokens second
  cases hsecond : tokenize second with
  | error e =>
      rw [hsecond] at hjoined
      rw [parseSource, hjoined, parseSource, hsecond]
      rfl
  | ok tokens' =>
      obtain ⟨body', eoi', rfl, hof'⟩ := exists_tokensOf hsecond
      rw [hsecond] at hjoined
      rw [parseSource_of_tokenize hjoined, parseSource_of_tokenize hsecond,
        parseTokens_joined hof.ne_endOfInput hof.endOfInput hof'.ne_endOfInput hof'.endOfInput rfl
          hparse]
      cases parseTokens (body' ++ [eoi']) <;> rfl

end Abacus
