import Abacus.Proofs.Token.Spelling

/-!
# Abacus.Proofs.Token.Pattern

The lexical grammar as patterns.  `Matches kind text` gives the texts of each kind
of token by themselves: numbers, strings with their escapes, words and symbols.  It
does not say how a text is read; the spellings that the scanner leaves behind are
these (`spells_iff_matches`).
-/

namespace Abacus

namespace Scan

open Text (isDigit isLetter)

/-! ## Patterns -/

/-- A backslash and the first character stand for the second one. -/
inductive Escape : Char → Char → Prop
  | lineFeed : Escape 'n' '\n'
  | tab : Escape 't' '\t'
  | carriageReturn : Escape 'r' '\r'
  | zero : Escape '0' '\x00'
  | quote : Escape '"' '"'
  | backslash : Escape '\\' '\\'

/-- The contents of a string and the text between its quotes. -/
inductive Contents : List Char → List Char → Prop
  | nil : Contents [] []
  | plain {c : Char} {value text : List Char} (hquote : c ≠ '"') (hslash : c ≠ '\\')
      (h : Contents value text) : Contents (c :: value) (c :: text)
  | escaped {c d : Char} {value text : List Char} (hc : Escape c d) (h : Contents value text) :
      Contents (d :: value) ('\\' :: c :: text)

/-- The operators, the punctuation and the line break, with their spellings. -/
def symbols : List (Kind × List Char) :=
  [(.leftParen, ['(']), (.rightParen, [')']), (.leftBrace, ['\x7b']), (.rightBrace, ['\x7d']),
    (.comma, [',']), (.colon, [':']), (.semicolon, [';']), (.newline, ['\n']),
    (.operator .plus, ['+']), (.operator .minus, ['-']), (.operator .star, ['*']),
    (.operator .slash, ['/']), (.operator .caret, ['^']), (.operator .percent, ['%']),
    (.operator .assign, ['=']), (.operator .equal, ['=', '=']),
    (.operator .notEqual, ['!', '=']), (.operator .notEqual, ['≠']),
    (.operator .less, ['<']), (.operator .lessEqual, ['<', '=']), (.operator .lessEqual, ['≤']),
    (.operator .greater, ['>']), (.operator .greaterEqual, ['>', '=']),
    (.operator .greaterEqual, ['≥']),
    (.operator .sum, ['∑']), (.operator .product, ['∏']), (.operator .integral, ['∫'])]

/-- A word: a letter or an underscore, then letters, digits and underscores. -/
inductive IsWord : List Char → Prop
  | intro {c : Char} {cs : List Char} (hc : c.isAlpha ∨ c = '_')
      (hcs : ∀ d ∈ cs, d.isAlphanum ∨ d = '_') : IsWord (c :: cs)

/-- The texts that are tokens, by kind.  A word is reserved exactly if the whole of
it is a reserved word. -/
inductive Matches : Kind → List Char → Prop
  | whole {ds : List Char} (hne : ds ≠ []) (hds : ∀ d ∈ ds, d.isDigit) : Matches .number ds
  | fraction {ds es : List Char} (hne : ds ≠ []) (hds : ∀ d ∈ ds, d.isDigit)
      (hes : ∀ e ∈ es, e.isDigit) : Matches .number (ds ++ '.' :: es)
  | point {es : List Char} (hne : es ≠ []) (hes : ∀ e ∈ es, e.isDigit) :
      Matches .number ('.' :: es)
  | string {value text : List Char} (h : Contents value text) :
      Matches (.string (String.ofList value)) ('"' :: (text ++ ['"']))
  | name {cs : List Char} (hword : IsWord cs) (hfree : ∀ k : Keyword, cs ≠ k.word.toList) :
      Matches .identifier cs
  | reserved (k : Keyword) : Matches (.keyword k) k.word.toList
  | pi : Matches .identifier ['π']
  | symbol {kind : Kind} {text : List Char} (h : (kind, text) ∈ symbols) : Matches kind text

/-! ## Patterns and spellings -/

/-- The scanner and the patterns agree on what a digit is. -/
theorem isDigit_eq (c : Char) : isDigit c = c.isDigit := by
  simp only [isDigit, Char.isDigit, Char.le_def, ge_iff_le]

/-- The scanner and the patterns agree on what a letter is. -/
theorem isLetter_eq (c : Char) : isLetter c = c.isAlpha := by
  have hupper : c.isUpper = decide ('A' ≤ c ∧ c ≤ 'Z') := rfl
  have hlower : c.isLower = (decide ('a' ≤ c) && decide (c ≤ 'z')) := rfl
  have halpha : c.isAlpha = (c.isUpper || c.isLower) := rfl
  rw [halpha, hupper, hlower, Bool.decide_and, Bool.or_comm]
  rfl

/-- The scanner and the patterns agree on what starts a word. -/
theorem isWordStart_iff {c : Char} : isWordStart c ↔ c.isAlpha ∨ c = '_' := by
  simp [isWordStart, isLetter_eq]

/-- The scanner and the patterns agree on what goes on with a word. -/
theorem isWordChar_iff {c : Char} : isWordChar c ↔ c.isAlphanum ∨ c = '_' := by
  simp [isWordChar, isWordStart, isLetter_eq, isDigit_eq, Char.isAlphanum, or_right_comm]

/-- The scanner and the patterns agree on the escapes. -/
theorem escape_iff {c d : Char} : Escape c d ↔ unescape? c = some d := by
  constructor
  · intro h
    cases h <;> rfl
  · intro h
    unfold unescape? at h
    split at h <;> cases h <;> constructor

/-- A string ends at the quote after its contents. -/
theorem quotes_iff {s : String} {body : List Char} :
    Quotes s body ↔ ∃ value text, s = String.ofList value ∧ body = text ++ ['"'] ∧
      Contents value text := by
  constructor
  · intro h
    induction h with
    | close => exact ⟨[], [], rfl, rfl, .nil⟩
    | escaped hc _ ih =>
        obtain ⟨value, text, rfl, rfl, hcontents⟩ := ih
        exact ⟨_, _, String.ofList_cons.symm, rfl,
          .escaped (escape_iff.mpr hc) hcontents⟩
    | plain hquote hslash _ ih =>
        obtain ⟨value, text, rfl, rfl, hcontents⟩ := ih
        exact ⟨_, _, String.ofList_cons.symm, rfl,
          .plain hquote hslash hcontents⟩
  · rintro ⟨value, text, rfl, rfl, h⟩
    induction h with
    | nil => exact .close
    | @plain c value text hquote hslash _ ih =>
        rw [String.ofList_cons]
        exact .plain hquote hslash ih
    | @escaped c d value text hc _ ih =>
        rw [String.ofList_cons]
        exact .escaped (escape_iff.mp hc) ih

/-- Words by their first character and the others. -/
theorem isWord_iff {cs : List Char} :
    IsWord cs ↔ ∃ c ds, cs = c :: ds ∧ isWordStart c ∧ ∀ d ∈ ds, isWordChar d := by
  constructor
  · rintro ⟨hc, hcs⟩
    exact ⟨_, _, rfl, isWordStart_iff.mpr hc, fun d hd => isWordChar_iff.mpr (hcs d hd)⟩
  · rintro ⟨c, ds, rfl, hc, hds⟩
    exact ⟨isWordStart_iff.mp hc, fun d hd => isWordChar_iff.mp (hds d hd)⟩

/-- A word that is not reserved is a name. -/
theorem wordKind_of_free {cs : List Char} (h : ∀ k : Keyword, cs ≠ k.word.toList) :
    wordKind (String.ofList cs) = .identifier := by
  have hnone : Keyword.ofWord? (String.ofList cs) = none := by
    refine List.find?_eq_none.mpr fun k _ => ?_
    simp only [decide_eq_true_eq]
    intro hk
    exact h k (by rw [hk, String.toList_ofList])
  rw [wordKind, hnone]

/-- A reserved word is of its own kind. -/
theorem wordKind_word (k : Keyword) : wordKind k.word = .keyword k := by
  rw [wordKind, Keyword.ofWord?_word]

/-- The words are the names and the reserved words. -/
theorem matches_wordKind {cs : List Char} (h : IsWord cs) :
    Matches (wordKind (String.ofList cs)) cs := by
  by_cases hreserved : ∃ k : Keyword, cs = k.word.toList
  · obtain ⟨k, rfl⟩ := hreserved
    rw [String.ofList_toList, wordKind_word]
    exact .reserved k
  · have hfree : ∀ k : Keyword, cs ≠ k.word.toList := fun k hk => hreserved ⟨k, hk⟩
    rw [wordKind_of_free hfree]
    exact .name h hfree

/-- A reserved word is spelled as a word. -/
theorem isWord_word (k : Keyword) : IsWord k.word.toList := by
  refine isWord_iff.mpr ?_
  cases k <;> exact ⟨_, _, rfl, rfl, List.all_eq_true.mp rfl⟩

/-- Every symbol is one character, or one character and an equals sign. -/
theorem spells_symbol {kind : Kind} {text : List Char} (h : (kind, text) ∈ symbols) :
    Spells kind text := by
  have htable : ∀ s ∈ symbols, (s.2.any fun c => (s.2 = [c] ∧ single? c = some s.1) ∨
      (s.2 = [c, '='] ∧ (withEquals? c).map Kind.operator = some s.1)) = true := by decide
  obtain ⟨c, _, hc⟩ := List.any_eq_true.mp (htable _ h)
  obtain ⟨rfl, hsingle⟩ | ⟨rfl, hpair⟩ := of_decide_eq_true hc
  · exact .single hsingle
  · obtain ⟨o, ho, rfl⟩ := Option.map_eq_some_iff.mp hpair
    exact .pair ho

/-- The patterns are the spellings of the tokens. -/
theorem spells_iff_matches {kind : Kind} {text : List Char} :
    Spells kind text ↔ Matches kind text := by
  constructor
  · intro h
    cases h with
    | string h =>
        obtain ⟨value, text, rfl, rfl, hcontents⟩ := quotes_iff.mp h
        exact .string hcontents
    | whole hc hcs =>
        refine .whole (List.cons_ne_nil _ _) ?_
        simpa [isDigit_eq] using ⟨hc, hcs⟩
    | @fraction c cs ds hc hcs hds =>
        refine @Matches.fraction (c :: cs) ds (List.cons_ne_nil _ _) ?_ ?_
        · simpa [isDigit_eq] using ⟨hc, hcs⟩
        · simpa [isDigit_eq] using hds
    | point hd hds =>
        refine .point (List.cons_ne_nil _ _) ?_
        simpa [isDigit_eq] using ⟨hd, hds⟩
    | word hc hcs => exact matches_wordKind (isWord_iff.mpr ⟨_, _, rfl, hc, hcs⟩)
    | @pair c o h =>
        unfold withEquals? at h
        split at h <;> cases h <;> exact .symbol (by decide)
    | @single c kind h =>
        unfold single? at h
        split at h
        case h_9 =>
          cases h
          exact .pi
        all_goals cases h <;> exact .symbol (by decide)
  · intro h
    cases h with
    | @whole ds hne hds =>
        obtain ⟨c, cs, rfl⟩ := List.exists_cons_of_ne_nil hne
        simp only [← isDigit_eq, List.forall_mem_cons] at hds
        exact .whole hds.1 hds.2
    | @fraction ds es hne hds hes =>
        obtain ⟨c, cs, rfl⟩ := List.exists_cons_of_ne_nil hne
        simp only [← isDigit_eq, List.forall_mem_cons] at hds hes
        exact .fraction hds.1 hds.2 hes
    | @point es hne hes =>
        obtain ⟨c, cs, rfl⟩ := List.exists_cons_of_ne_nil hne
        simp only [← isDigit_eq, List.forall_mem_cons] at hes
        exact .point hes.1 hes.2
    | string h => exact .string (quotes_iff.mpr ⟨_, _, rfl, rfl, h⟩)
    | name hword hfree =>
        rw [← wordKind_of_free hfree]
        obtain ⟨c, ds, rfl, hc, hds⟩ := isWord_iff.mp hword
        exact .word hc hds
    | reserved k =>
        obtain ⟨c, ds, heq, hc, hds⟩ := isWord_iff.mp (isWord_word k)
        have h := Spells.word hc hds
        rwa [← heq, String.ofList_toList, wordKind_word] at h
    | pi => exact .single rfl
    | symbol h => exact spells_symbol h

/-! ## Every kind has a text -/

/-- Any characters are the contents of a string: quotes and backslashes are escaped. -/
theorem exists_contents (value : List Char) : ∃ text, Contents value text := by
  induction value with
  | nil => exact ⟨[], .nil⟩
  | cons c value ih =>
      obtain ⟨text, htext⟩ := ih
      by_cases hquote : c = '"'
      · subst hquote
        exact ⟨_, .escaped .quote htext⟩
      · by_cases hslash : c = '\\'
        · subst hslash
          exact ⟨_, .escaped .backslash htext⟩
        · exact ⟨_, .plain hquote hslash htext⟩

/-- Every kind of token can be written, the end of input apart. -/
theorem exists_spells {kind : Kind} (h : kind ≠ .endOfInput) : ∃ text, Spells kind text := by
  have hsymbol : (∃ s ∈ symbols, s.1 = kind) → ∃ text, Spells kind text := by
    rintro ⟨⟨_, text⟩, hmem, rfl⟩
    exact ⟨text, spells_symbol hmem⟩
  cases kind with
  | number => exact ⟨['0'], .whole rfl (by simp)⟩
  | string contents =>
      obtain ⟨text, htext⟩ := exists_contents contents.toList
      have hmatches := Matches.string htext
      rw [String.ofList_toList] at hmatches
      exact ⟨_, spells_iff_matches.mpr hmatches⟩
  | identifier => exact ⟨['π'], .single rfl⟩
  | keyword k => exact ⟨_, spells_iff_matches.mpr (.reserved k)⟩
  | operator o => exact hsymbol (by cases o <;> decide)
  | comma | colon | semicolon | leftParen | rightParen | leftBrace | rightBrace | newline =>
      exact hsymbol (by decide)
  | endOfInput => exact absurd rfl h

/-! ## The texts of numbers -/

/-- Digits with at most one point, and a digit among them. -/
structure IsDecimal (text : List Char) : Prop where
  digit_or_point : ∀ c ∈ text, c.isDigit ∨ c = '.'
  count_le_one : text.count '.' ≤ 1
  exists_digit : ∃ c ∈ text, c.isDigit

/-- Digits have no point among them. -/
theorem count_point {ds : List Char} (h : ∀ d ∈ ds, d.isDigit) : ds.count '.' = 0 := by
  refine List.count_eq_zero.mpr fun hmem => ?_
  have hpoint := h '.' hmem
  contradiction

theorem exists_digit {ds : List Char} (hne : ds ≠ []) (h : ∀ d ∈ ds, d.isDigit) :
    ∃ c ∈ ds, c.isDigit := by
  obtain ⟨c, cs, rfl⟩ := List.exists_cons_of_ne_nil hne
  exact ⟨c, List.mem_cons_self, h c List.mem_cons_self⟩

/-- The text of a number is a decimal. -/
theorem Matches.isDecimal {text : List Char} (h : Matches .number text) : IsDecimal text := by
  cases h with
  | whole hne hds =>
      refine ⟨fun c hc => .inl (hds c hc), ?_, exists_digit hne hds⟩
      rw [count_point hds]
      exact Nat.zero_le 1
  | @fraction ds es hne hds hes =>
      obtain ⟨c, hc, hdigit⟩ := exists_digit hne hds
      refine ⟨fun d hd => ?_, ?_, c, List.mem_append_left _ hc, hdigit⟩
      · obtain hd | hd := List.mem_append.mp hd
        · exact .inl (hds d hd)
        · obtain rfl | hd := List.mem_cons.mp hd
          · exact .inr rfl
          · exact .inl (hes d hd)
      · simp [List.count_append, count_point hds, count_point hes]
  | @point es hne hes =>
      obtain ⟨c, hc, hdigit⟩ := exists_digit hne hes
      refine ⟨fun d hd => ?_, ?_, c, List.mem_cons_of_mem _ hc, hdigit⟩
      · obtain rfl | hd := List.mem_cons.mp hd
        · exact .inr rfl
        · exact .inl (hes d hd)
      · simp [count_point hes]
  | symbol h => revert h; simp [symbols]

end Scan

end Abacus
