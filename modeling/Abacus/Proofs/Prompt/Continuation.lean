import Abacus.Prompt
import Abacus.Proofs.Parse.Source
import Abacus.Proofs.Token.Balance

/-!
# Abacus.Proofs.Prompt.Continuation

Lines that wait for more.  The prompt counts braces, character by character, and the
parser reads blocks.  They agree: a program that is accepted has no open brace, so it
never waits; where the parser fails for want of more text, no brace is closed that was
not opened; and where it wants a closing brace, one is open, so the lines wait.
-/

namespace Abacus

/-! ## The place of the end of input -/

/-- A text that is read moves the place. -/
theorem Position.after_append_ne {text : List Char} (before : List Char) (htext : text ≠ []) :
    Position.after (before ++ text) ≠ .after before := by
  intro h
  obtain ⟨hline, hcolumn⟩ := Position.mk.inj h
  have hcount : text.count '\n' = 0 := by
    rw [List.count_append] at hline
    omega
  have hall : ∀ c ∈ text.reverse, decide (c ≠ '\n') = true := by
    intro c hc
    rw [decide_eq_true_eq]
    rintro rfl
    exact List.count_eq_zero.mp hcount (List.mem_reverse.mp hc)
  rw [List.reverse_append, List.takeWhile_append_of_pos hall, List.length_append,
    List.length_reverse] at hcolumn
  have hpos := List.length_pos_iff.mpr htext
  omega

/-- Every token of a scan but the end of input stands before the end of the text. -/
theorem Scan.Scanned.pos_ne {before rest : List Char} {items : List Scan.Item}
    {slices : List Scan.Slice} (h : Scan.Scanned before rest items slices) {t : Token}
    (ht : .ok t ∈ items) (hkind : t.kind ≠ .endOfInput) :
    Position.after (before ++ rest) ≠ t.pos := by
  induction h with
  | finish before =>
      obtain rfl : t = .finish _ := by simpa using ht
      exact absurd rfl hkind
  | @blank before cs c items slices _ _ ih =>
      have hne := ih ht
      rwa [List.append_assoc, Scan.front_text_append_rest] at hne
  | @item before cs c item items slices hitem _ ih =>
      obtain rfl | ht := List.mem_cons.mp ht
      · rw [(Scan.item?_eq_ok hitem).2.2]
        exact Position.after_append_ne before (List.cons_ne_nil c cs)
      · have hne := ih ht
        rwa [List.append_assoc, Scan.front_text_append_rest] at hne

/-- A token is the end of input if it stands where the text ends. -/
theorem kind_eq_of_pos_eq {source : String} {tokens : List Token} {t u : Token}
    (h : tokenize source = .ok tokens) (ht : t ∈ tokens) (hu : u ∈ tokens)
    (hend : u.kind = .endOfInput) (hpos : t.pos = u.pos) : t.kind = .endOfInput := by
  obtain ⟨slices, hscanned⟩ := Scan.exists_scanned source
  obtain ⟨init, hitems, hinit⟩ := hscanned.items_eq
  have hmem := mem_scan_of_tokenize h hu
  have hplace : u.pos = .after source.toList := by
    rw [hitems] at hmem
    obtain hmem | hmem := List.mem_append.mp hmem
    · exact absurd hend (hinit u hmem)
    · obtain rfl : u = .finish _ := by simpa using hmem
      rfl
  by_contra hkind
  exact hscanned.pos_ne (mem_scan_of_tokenize h ht) hkind (by rw [hpos, hplace]; rfl)

/-! ## Accepted programs and faults -/

/-- An accepted program closes what it opens. -/
theorem openBraces_of_parseSource {source : String} {program : List Stmt}
    (h : parseSource source = .ok program) : openBraces source = 0 := by
  obtain ⟨body, eoi, hof, hforms⟩ := forms_of_parseSource h
  have heoi : eoi.weight = 0 := Token.weight_eq_zero hof.endOfInput (by simp) (by simp)
  rw [openBraces_eq_balance hof.tokenize_eq, balance_append, hforms.balance_eq]
  simp [heoi]

/-- What a fault is blamed on is a token of the text, or its end: then all braces of
the text were read. -/
theorem exists_blames {source : String} {tokens : List Token} {e : GrammarError}
    (htokens : tokenize source = .ok tokens) (hparse : parseTokens tokens = .error e) :
    ∃ ts next, (∀ t ∈ ts, t ∈ tokens) ∧ next ∈ tokens ∧ Parse.Blames e ts next ∧
      (next.kind = .endOfInput → balance ts = openBraces source) := by
  obtain ⟨body, eoi, rfl, hof⟩ := exists_tokensOf htokens
  obtain ⟨ts, next, rest, hsplit, hends, hblames⟩ :=
    Parse.blames_of_parseTokens hof.endOfInput hparse
  have heoi : eoi.weight = 0 := Token.weight_eq_zero hof.endOfInput (by simp) (by simp)
  refine ⟨ts, next, fun t ht => ?_, ?_, hblames, fun hkind => ?_⟩
  · exact hsplit ▸ List.mem_append_left _ ht
  · exact hsplit ▸ List.mem_append_right _ List.mem_cons_self
  · have hatEnd : (⟨next :: rest, 0⟩ : Cursor).atEnd = true := by
      simp [Cursor.atEnd, Cursor.current, hkind]
    have hwhole : ts = body :=
      Parse.eq_of_atEnd hof.ne_endOfInput hends hsplit hof.endOfInput hatEnd
    rw [openBraces_eq_balance htokens, hwhole, balance_append]
    simp [heoi]

/-- A fault at the end of input leaves no brace closed that was not opened. -/
theorem openBraces_nonneg {source : String} {tokens : List Token} {e : GrammarError}
    (htokens : tokenize source = .ok tokens) (hparse : parseTokens tokens = .error e)
    (hend : tokens.getLast?.map Token.pos = some e.pos) : 0 ≤ openBraces source := by
  obtain ⟨ts, next, hts, hnext, hblames, hbalance⟩ := exists_blames htokens hparse
  have hplace : ∀ t ∈ tokens, t.pos = e.pos → t.kind = .endOfInput := by
    intro t ht hpos
    obtain ⟨body, eoi, rfl, hof⟩ := exists_tokensOf htokens
    have hp : eoi.pos = e.pos := by simpa using hend
    exact kind_eq_of_pos_eq htokens ht (List.mem_append_right _ List.mem_cons_self) hof.endOfInput
      (hpos.trans hp.symm)
  obtain ⟨_, heq⟩ | ⟨t, ht, hkind, _, heq⟩ := hblames.named
  · rw [← hbalance (hplace next hnext (by rw [heq]; rfl))]
    exact hblames.balanced
  · have hnumber := hplace t (hts t ht) (by rw [heq]; rfl)
    rw [hkind] at hnumber
    contradiction

/-- A closing brace is wanted only at the end of input, with a brace open. -/
theorem openBraces_pos {source : String} {e : GrammarError}
    (h : parseSource source = .error (.grammar e)) (hexpected : e.expected = .closeBlock) :
    0 < openBraces source := by
  obtain ⟨tokens, htokens, hparse⟩ := parseSource_eq_error h
  obtain ⟨ts, next, _, _, hblames, hbalance⟩ := exists_blames htokens hparse
  obtain ⟨hkind, hopen⟩ := hblames.missed hexpected
  rwa [← hbalance hkind]

/-! ## The prompt -/

theorem action_ne_wait {pending line waiting : String} (h : openBraces (pending ++ line) ≤ 0) :
    Prompt.action pending line ≠ .wait waiting := by
  unfold Prompt.action
  simp only [Int.not_lt.mpr h, if_false]
  split
  · simp
  · split <;> simp

theorem action_ne_run {pending line submitted : String} (h : 0 < openBraces (pending ++ line)) :
    Prompt.action pending line ≠ .run submitted := by
  unfold Prompt.action
  simp only [h, if_true]
  split
  · simp
  · split <;> simp

/-- **The prompt waits as the parser would.**  An accepted text has no open brace.  If
the tokens of a text are refused at the end of input, no brace is closed in it that was
not opened, and if a closing brace is wanted, one is open.  So whatever lines make up
the text, the prompt does not wait for more after an accepted program, and does not
submit one that lacks a closing brace. -/
theorem prompt_waits_as_parse_does (source : String) :
    (∀ program, parseSource source = .ok program → openBraces source = 0) ∧
    (∀ tokens e, tokenize source = .ok tokens → parseTokens tokens = .error e →
      tokens.getLast?.map Token.pos = some e.pos →
      0 ≤ openBraces source ∧ (e.expected = .closeBlock → 0 < openBraces source)) ∧
    ∀ pending line, source = pending ++ line →
      (∀ program, parseSource source = .ok program →
        ∀ waiting, Prompt.action pending line ≠ .wait waiting) ∧
      ∀ e, parseSource source = .error (.grammar e) → e.expected = .closeBlock →
        ∀ submitted, Prompt.action pending line ≠ .run submitted := by
  refine ⟨fun program => openBraces_of_parseSource, fun tokens e htokens hparse hend => ⟨?_, ?_⟩,
    fun pending line hsource => ⟨fun program hparse waiting => ?_,
      fun e hparse hexpected submitted => ?_⟩⟩
  · exact openBraces_nonneg htokens hparse hend
  · refine openBraces_pos ?_
    rw [parseSource_of_tokenize htokens, hparse]
    rfl
  · apply action_ne_wait
    rw [← hsource]
    exact Int.le_of_eq (openBraces_of_parseSource hparse)
  · apply action_ne_run
    rw [← hsource]
    exact openBraces_pos hparse hexpected

/-- A block that is left open, with braces in a string and in a comment. -/
theorem prompt_waits_as_parse_does_open_block :
    let source := "if x \x7b \"\x7d\" # \x7d\n"
    let tokens : List Token := [⟨.keyword .ifKw, "if", ⟨1, 1⟩⟩, ⟨.identifier, "x", ⟨1, 4⟩⟩,
      ⟨.leftBrace, "\x7b", ⟨1, 6⟩⟩, ⟨.string "\x7d", "\"\x7d\"", ⟨1, 8⟩⟩, .finish ⟨2, 1⟩]
    let e : GrammarError := ⟨.closeBlock, "end of input", ⟨2, 1⟩⟩
    (tokenize source = .ok tokens ∧ parseTokens tokens = .error e ∧
      tokens.getLast?.map Token.pos = some e.pos ∧ 0 < openBraces source ∧
      ∀ submitted, Prompt.action "" source ≠ .run submitted) ∧
    ∃ program, parseSource (source ++ "\x7d") = .ok program ∧ openBraces (source ++ "\x7d") = 0 ∧
      ∀ waiting, Prompt.action source "\x7d" ≠ .wait waiting := by
  intro source tokens e
  have htokens : tokenize source = .ok tokens := by decide
  have hparse : parseTokens tokens = .error e := by decide +kernel
  have hsource : parseSource source = .error (.grammar e) := by
    rw [parseSource_of_tokenize htokens, hparse]
    rfl
  have hclosed : parseSource (source ++ "\x7d") =
      .ok [.ifThen (.variable "x" ⟨1, 4⟩) [.expression (.string "\x7d")] ⟨1, 1⟩] :=
        by decide +kernel
  obtain ⟨_, hfault, hprompt⟩ := prompt_waits_as_parse_does source
  obtain ⟨haccepted, _, hprompt'⟩ := prompt_waits_as_parse_does (source ++ "\x7d")
  exact ⟨⟨htokens, hparse, rfl, (hfault tokens e htokens hparse rfl).2 rfl,
      (hprompt "" source rfl).2 e hsource rfl⟩,
    _, hclosed, haccepted _ hclosed, (hprompt' source "\x7d" rfl).1 _ hclosed⟩

end Abacus
