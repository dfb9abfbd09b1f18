import Abacus.Proofs.Eval.Coherence
import Abacus.Proofs.Eval.Placed
import Abacus.Proofs.Parse.Source
import Abacus.Proofs.Session.Limit
import Abacus.Proofs.Token.Longest

/-!
# Abacus.Proofs.Session.Cause

Errors point at their cause.  What a source is refused for stands at the place that is
reported: a character, an opening quote, an escape or a token.  What a run of it fails
with is reported at a token which can have met the fault (`error_points_at_cause`):
the places of the tokens go into the tree, with the tree into the closures that scopes
hold, and from there into the error, wherever the closure is called.
-/

namespace Abacus

/-! ## Faults of the spelling -/

namespace Scan

/-- A text after `before` goes on with `rest` where one of its pieces starts. -/
inductive Leads : Position → List Char → List Char → Prop
  | here (p : Position) (rest : List Char) : Leads p [] rest
  | piece {p : Position} {text before rest : List Char} {item : Option Item}
      (h : Starts p text (before ++ rest) item) (hrest : Leads (p.advance text) before rest) :
      Leads p (text ++ before) rest

/-- A fault of a text starts one of its pieces. -/
theorem Lexes.exists_starts {p : Position} {cs : List Char} {items : List Item}
    {e : LexicalError} (h : Lexes p cs items) (he : .error e ∈ items) :
    ∃ before text rest, cs = before ++ (text ++ rest) ∧ Leads p before (text ++ rest) ∧
      Starts (p.advance before) text rest (some (.error e)) := by
  induction h with
  | finish p => simp at he
  | @piece p text rest item items h _ ih =>
      obtain he | he := List.mem_append.mp he
      · obtain rfl : item = some (.error e) := by simpa using he
        exact ⟨[], text, rest, rfl, .here p _, h⟩
      · obtain ⟨before, text', rest', rfl, hleads, hstarts⟩ := ih he
        refine ⟨text ++ before, text', rest', by simp, .piece h hleads, ?_⟩
        rwa [Position.advance_append]

end Scan

theorem mem_of_firstErrorOr {ε α : Type} {results : List (Except ε α)} {e : ε}
    (h : firstErrorOr results = .error e) : .error e ∈ results := by
  fun_induction firstErrorOr results with
  | case1 => contradiction
  | case2 e' rest =>
      cases h
      exact List.mem_cons_self
  | case3 a rest ih =>
      cases hrest : firstErrorOr rest with
      | error e' =>
          rw [hrest] at h
          cases h
          exact List.mem_cons_of_mem _ (ih hrest)
      | ok as =>
          rw [hrest] at h
          contradiction

/-! ## Causes -/

/-- The text stands at a place of the source. -/
def TextAt (source : String) (p : Position) (text : List Char) : Prop :=
  ∃ before rest, source.toList = before ++ (text ++ rest) ∧ p = .after before

/-- A quote at a place of the source opens a string. -/
def QuoteOpensAt (source : String) (p : Position) : Prop :=
  ∃ before rest, source.toList = before ++ '"' :: rest ∧ p = .after before ∧
    Scan.Leads .first before ('"' :: rest)

/-- The tokens that may meet a fault. -/
def RuntimeFault.MetBy (t : Token) : RuntimeFault → Prop
  | undefinedName name => t.kind = .identifier ∧ t.lexeme = name
  | arity _ _ _ | domain _ _ => t.kind = .identifier
  | divisionByZero => t.kind = .operator .slash ∨ t.kind = .operator .percent
  | notIterable _ => t.kind = .keyword .forKw
  | returnOutsideFunction => t.kind = .keyword .returnKw
  | type _ | recursionLimit _ => True

/-- What stands in the source where an error is reported. -/
def Error.CausedIn (source : String) : Error → Prop
  | .source (.lexical (.unexpectedChar c p)) => TextAt source p [c]
  | .source (.lexical (.unterminatedString p)) => QuoteOpensAt source p
  | .source (.lexical (.unknownEscape c p)) => TextAt source p ['\\', c]
  | .source (.grammar e) =>
    ∃ tokens, tokenize source = .ok tokens ∧ ∃ t ∈ tokens, t.pos = e.pos
  | .runtime fault p =>
    ∃ tokens, tokenize source = .ok tokens ∧ ∃ t ∈ tokens, t.pos = p ∧ fault.MetBy t
  | .io _ => False

theorem causedIn_of_tokenize {source : String} {e : LexicalError}
    (h : tokenize source = .error e) : (Error.source (.lexical e)).CausedIn source := by
  have hmem : .error e ∈ scan source := List.mem_of_mem_filter (mem_of_firstErrorOr h)
  obtain ⟨before, text, rest, hsource, hleads, hstarts⟩ :=
    ((Scan.lexes_iff source _).mpr rfl).exists_starts hmem
  rw [Position.first_advance] at hstarts
  cases hstarts with
  | unexpectedChar _ _ => exact ⟨before, rest, hsource, rfl⟩
  | unterminatedString _ _ =>
      rw [List.append_nil] at hsource hleads
      exact ⟨before, _, hsource, rfl, hleads⟩
  | @unknownEscape _ text _ c _ _ _ =>
      -- the place is that of the backslash, after the quote and what the string has so far
      rw [Position.after_advance]
      exact ⟨before ++ '"' :: text, rest, by simp [hsource], rfl⟩

theorem Raised.metBy {t : Token} {site : Site} {fault : RuntimeFault} (h : Raised site fault)
    (ht : t.Marks site) : fault.MetBy t := by
  cases h with
  | recursionLimit _ _ => trivial
  | returnOutsideFunction =>
      cases ht with
      | keyword hkind => exact hkind
  | met hmet =>
      cases hmet with
      | type _ _ => trivial
      | undefinedName _ =>
          cases ht with
          | name hkind => exact ⟨hkind, rfl⟩
      | arity _ _ _ _ | domain _ _ _ =>
          cases ht with
          | name hkind => exact hkind
      | notIterable _ =>
          cases ht with
          | keyword hkind => exact hkind
      | divisionByZero hop =>
          cases ht with
          | operation hconnects =>
              generalize hkind : t.kind = kind at hconnects
              obtain rfl | rfl := hop
              · cases hconnects
                exact .inl hkind
              · cases hconnects
                exact .inr hkind

/-! ## Runs -/

/-- An error of a source that is run in a fresh session is caused by it, unless it is
one of the output. -/
theorem causedIn_of_runSource {host : Host} (hhost : host.Blind) {fuel : Nat} {source : String}
    {sink : Sink} {e : Error} {m' : Machine}
    (h : runSource host fuel source (.fresh sink) = .error (.failed e) m')
    (hio : ∀ failure, e ≠ .io failure) : e.CausedIn source := by
  rw [runSource_eq] at h
  cases hparse : parseSource source with
  | error fault =>
      rw [readSource_of_error hparse] at h
      cases h
      cases fault with
      | lexical e => exact causedIn_of_tokenize (tokenize_of_parseSource_eq_error hparse)
      | grammar e => exact exists_pos_eq_of_parseSource hparse
  | ok program =>
      rw [readSource_of_ok hparse, pure_bind] at h
      obtain ⟨body, eoi, hof, hforms⟩ := forms_of_parseSource hparse
      have hprogram := hforms.placed (List.subset_append_left body [eoi])
      have hstop := placed_of_runWhole hhost hprogram h
      cases hstop with
      | io failure => exact absurd rfl (hio failure)
      | runtime hraised hmarked =>
          obtain ⟨t, ht, hpos, hmarks⟩ := hmarked
          exact ⟨_, hof.tokenize_eq, t, ht, hpos, hraised.metBy hmarks⟩

/-- **Errors point at their cause.**  If a source fails in a fresh session with the
standard library, at any limit of nesting and with any output, and not for the output,
then the error has a place, and there stands in the source what it is about: the
character that starts no token, the quote that opens a string without end, the backslash
and the character of an unknown escape, a token with which the program cannot go on, or
the token of what failed. -/
theorem error_points_at_cause (limit : Nat) {fuel : Nat} {source : String} {sink : Sink}
    {e : Error} {m' : Machine}
    (h : runSource (Host.standard.withLimit limit) fuel source (.fresh sink) =
      .error (.failed e) m')
    (hio : ∀ failure, e ≠ .io failure) :
    (∃ p, e.pos? = some p) ∧ e.CausedIn source := by
  refine ⟨?_, causedIn_of_runSource (Host.blind_of_standard rfl rfl) h hio⟩
  cases e with
  | source fault => exact ⟨_, rfl⟩
  | runtime fault p => exact ⟨_, rfl⟩
  | io failure => exact absurd rfl (hio failure)

/-- A function that reads a variable which is not there, called on a later line; and a
string with an unknown escape. -/
theorem error_points_at_cause_called_later :
    let host := Host.standard.withLimit 3
    let source := "function f() \x7b\n  return g\n\x7d\nf()"
    let escape := "s = \"a\\q\""
    (∃ m', runSource host 9 source (.fresh .unlimited) =
        .error (.failed (.runtime (.undefinedName "g") ⟨2, 10⟩)) m') ∧
      (Error.runtime (.undefinedName "g") ⟨2, 10⟩).CausedIn source ∧
    (∃ m', runSource host 9 escape (.fresh .unlimited) =
        .error (.failed (.source (.lexical (.unknownEscape 'q' ⟨1, 7⟩)))) m') ∧
      (Error.source (.lexical (.unknownEscape 'q' ⟨1, 7⟩))).CausedIn escape := by
  intro host source escape
  have hsource : parseSource source = .ok [.function "f" []
      [.giveBack (some (.variable "g" ⟨2, 10⟩)) ⟨2, 3⟩] ⟨1, 1⟩,
      .expression (.call "f" [] ⟨4, 1⟩)] := by decide +kernel
  have hescape : parseSource escape = .error (.lexical (.unknownEscape 'q' ⟨1, 7⟩)) :=
    by decide +kernel
  obtain ⟨m₁, hrun⟩ : ∃ m', runSource host 9 source (.fresh .unlimited) =
      .error (.failed (.runtime (.undefinedName "g") ⟨2, 10⟩)) m' := by
    rw [runSource_of_ok hsource]
    exact ⟨_, rfl⟩
  obtain ⟨m₂, hrun'⟩ : ∃ m', runSource host 9 escape (.fresh .unlimited) =
      .error (.failed (.source (.lexical (.unknownEscape 'q' ⟨1, 7⟩)))) m' := by
    rw [runSource_eq, readSource_of_error hescape]
    exact ⟨_, rfl⟩
  exact ⟨⟨m₁, hrun⟩, (error_points_at_cause 3 hrun (by simp)).2,
    ⟨m₂, hrun'⟩, (error_points_at_cause 3 hrun' (by simp)).2⟩

end Abacus
