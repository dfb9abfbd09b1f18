import Mathlib.Algebra.Ring.Int.Defs
import Abacus.Proofs.Token.Longest
import Abacus.Token.Balance

/-!
# Abacus.Proofs.Token.Balance

The balance of a text is that of its tokens.  The automaton of `Balance` and the
scanner keep in step: the automaton is in the program wherever the scanner starts a
piece, blanks and tokens bring it back there (`Matches.resumes`), and only the brace
tokens have a weight.  The two counts therefore agree, for every text without a bad
escape (`openBraces_eq_scanned_braces`): a bad escape ends the piece of the scanner,
while the automaton stays in the string.
-/

namespace Abacus

/-! ## Braces among tokens -/

/-- What a kind of token adds to the balance of braces. -/
def Kind.weight : Kind → Int
  | .leftBrace => 1
  | .rightBrace => -1
  | _ => 0

/-- What a token adds to the balance of braces. -/
def Token.weight (t : Token) : Int := t.kind.weight

/-- Opening braces less closing braces. -/
def balance (ts : List Token) : Int := (ts.map Token.weight).sum

@[simp] theorem balance_nil : balance [] = 0 := rfl

@[simp] theorem balance_cons (t : Token) (ts : List Token) :
    balance (t :: ts) = t.weight + balance ts := by simp [balance]

@[simp] theorem balance_append (ts us : List Token) :
    balance (ts ++ us) = balance ts + balance us := by simp [balance]

namespace Balance

open Scan

/-! ## Texts that lead back to the program -/

/-- Where the character after a text stands. -/
def Mode.after (m : Mode) (cs : List Char) : Mode := cs.foldl Mode.next m

@[simp] theorem Mode.after_nil (m : Mode) : m.after [] = m := rfl

@[simp] theorem Mode.after_cons (m : Mode) (c : Char) (cs : List Char) :
    m.after (c :: cs) = (m.next c).after cs := rfl

/-- The balance of two texts one after the other. -/
theorem total_append (m : Mode) (cs ds : List Char) :
    total m (cs ++ ds) = total m cs + total (m.after cs) ds := by
  induction cs generalizing m with
  | nil => simp [total]
  | cons c cs ih =>
      rw [List.cons_append, total, total, ih, Mode.after_cons]
      omega

/-- In the program, the text adds `w` and leads back to the program. -/
structure Resumes (text : List Char) (w : Int) : Prop where
  after_eq : Mode.after .code text = .code
  total_eq : total .code text = w

/-- A character that neither is a brace nor starts a string or a comment. -/
def Neutral (c : Char) : Prop := c ≠ '"' ∧ c ≠ '#' ∧ c ≠ '\x7b' ∧ c ≠ '\x7d'

/-- A text of neutral characters leaves the mode and the balance as they are. -/
theorem resumes_neutral {text : List Char} (h : ∀ c ∈ text, Neutral c) : Resumes text 0 := by
  induction text with
  | nil => exact ⟨rfl, rfl⟩
  | cons c cs ih =>
      obtain ⟨hquote, hhash, hleft, hright⟩ := h c List.mem_cons_self
      obtain ⟨hafter, htotal⟩ := ih fun d hd => h d (List.mem_cons_of_mem c hd)
      have hnext : Mode.code.next c = .code := by simp [Mode.next, hquote, hhash]
      have hweight : weight .code c = 0 := by simp [weight, hleft, hright]
      constructor
      · rw [Mode.after_cons, hnext, hafter]
      · rw [total, hnext, hweight, htotal]
        rfl

/-- What words are made of is neutral. -/
theorem neutral_word {c : Char} (h : c.isAlphanum ∨ c = '_') : Neutral c := by
  refine ⟨?_, ?_, ?_, ?_⟩ <;> rintro rfl <;> simp at h

/-- Words are neutral. -/
theorem neutral_of_isWord {cs : List Char} (h : IsWord cs) : ∀ c ∈ cs, Neutral c := by
  obtain ⟨hc, hcs⟩ := h
  intro d hd
  obtain rfl | hd := List.mem_cons.mp hd
  · exact neutral_word (hc.imp (fun h => by simp [Char.isAlphanum, h]) id)
  · exact neutral_word (hcs d hd)

/-- Numbers are neutral. -/
theorem neutral_of_isDecimal {cs : List Char} (h : IsDecimal cs) : ∀ c ∈ cs, Neutral c := by
  intro c hc
  refine ⟨?_, ?_, ?_, ?_⟩ <;> rintro rfl <;> simpa using h.digit_or_point _ hc

/-- The contents of a string stay in the string. -/
theorem total_contents {value text : List Char} (h : Contents value text) (rest : List Char) :
    Mode.after .text (text ++ rest) = Mode.after .text rest ∧
      total .text (text ++ rest) = total .text rest := by
  induction h with
  | nil => exact ⟨rfl, rfl⟩
  | plain hquote hslash _ ih => simpa [Mode.next, total, weight, hquote, hslash] using ih
  | escaped _ _ ih => simpa [Mode.next, total, weight] using ih

/-- A string with one more character is left open only if it was. -/
theorem shape_of_consContents {d : Char} {p : Piece}
    (h : (p.consContents d).shape = .unterminated) : p.shape = .unterminated := by
  unfold Piece.consContents at h
  split at h
  · contradiction
  · exact h

/-- A string that is not closed has no braces that count. -/
theorem total_of_unterminated {cs : List Char} (h : (stringBody cs).shape = .unterminated) :
    total .text cs = 0 := by
  fun_induction stringBody cs with
  | case1 => rfl
  | case2 cs => contradiction
  | case3 => rfl
  | case4 c cs d hd ih => simpa [total, Mode.next, weight] using ih (shape_of_consContents h)
  | case5 c cs hnone => contradiction
  | case6 c cs hquote hend hslash ih =>
      have hne : c ≠ '\\' := by
        rintro rfl
        cases cs with
        | nil => exact hend rfl rfl
        | cons d ds => exact hslash d ds rfl rfl
      have hquote : c ≠ '"' := hquote
      simpa [total, Mode.next, weight, hquote, hne] using ih (shape_of_consContents h)

/-- A token leads back to the program, and only braces count. -/
theorem resumes_of_matches {kind : Kind} {text : List Char} (h : Matches kind text) :
    Resumes text kind.weight := by
  cases h with
  | whole hne hds => exact resumes_neutral (neutral_of_isDecimal (Matches.whole hne hds).isDecimal)
  | fraction hne hds hes =>
      exact resumes_neutral (neutral_of_isDecimal (Matches.fraction hne hds hes).isDecimal)
  | point hne hes => exact resumes_neutral (neutral_of_isDecimal (Matches.point hne hes).isDecimal)
  | string h =>
      obtain ⟨hafter, htotal⟩ := total_contents h ['"']
      exact ⟨hafter, (Int.zero_add _).trans htotal⟩
  | name hword _ => exact resumes_neutral (neutral_of_isWord hword)
  | reserved k => exact resumes_neutral (neutral_of_isWord (isWord_word k))
  | pi => exact ⟨rfl, rfl⟩
  | symbol h =>
      have htable : ∀ s ∈ symbols, Mode.after .code s.2 = .code ∧ total .code s.2 = s.1.weight := by
        decide
      exact ⟨(htable _ h).1, (htable _ h).2⟩

/-! ## Whole texts -/

/- From the front of a text to the whole: an item weighs what it adds to the balance
(`total_of_starts`), a scan weighs the sum of its items (`total_of_lexes`), and the sum counts
opening and closing braces among them (`sum_itemWeight`). -/

/-- What an item of a scan adds to the balance of braces. -/
def itemWeight : Item → Int
  | .ok t => t.weight
  | .error _ => 0

/-- A comment goes on until the line or the text ends, and does not count. -/
theorem total_comment {text rest : List Char} (htext : '\n' ∉ text)
    (hrest : rest = [] ∨ rest.head? = some '\n') :
    total .comment (text ++ rest) = total .code rest := by
  induction text with
  | nil =>
      obtain rfl | hrest := hrest
      · rfl
      · obtain ⟨rest', rfl⟩ := List.head?_eq_some_iff.mp hrest
        simp [total, Mode.next, weight]
  | cons c cs ih =>
      obtain ⟨hc, hcs⟩ := not_or.mp (mt List.mem_cons.mpr htext)
      simpa [total, Mode.next, weight, Ne.symm hc] using ih hcs

/-- No brace is an unexpected character. -/
theorem neutral_of_unmatched {c : Char} {rest : List Char} (h : Unmatched (c :: rest))
    (hc : c ∉ [' ', '\t', '\r', '#', '"']) : Neutral c := by
  have hbrace : ∀ kind, (kind, [c]) ∉ symbols := fun kind hmem =>
    h kind [c] (.symbol hmem) ⟨rest, rfl⟩
  simp only [List.mem_cons, List.not_mem_nil, or_false, not_or] at hc
  refine ⟨hc.2.2.2.2, hc.2.2.2.1, ?_, ?_⟩
  · rintro rfl
    exact hbrace .leftBrace (by decide)
  · rintro rfl
    exact hbrace .rightBrace (by decide)

/-- What stands at the front of a text counts with its weight, a bad escape apart. -/
theorem total_of_starts {p : Position} {text rest : List Char} {item : Option Item}
    (h : Starts p text rest item) (hitem : ∀ c q, item ≠ some (.error (.unknownEscape c q))) :
    total .code (text ++ rest) = (item.toList.map itemWeight).sum + total .code rest := by
  have hresumes : ∀ {w : Int}, Resumes text w → total .code (text ++ rest) = w + total .code rest :=
    fun h => by rw [total_append, h.after_eq, h.total_eq]
  cases h with
  | @blank c _ hc =>
      have hneutral : Neutral c := by
        refine ⟨?_, ?_, ?_, ?_⟩ <;> rintro rfl <;> simp at hc
      exact hresumes (resumes_neutral (by simpa using hneutral))
  | comment htext hrest =>
      have hafter := total_comment htext hrest
      exact (Int.zero_add _).trans (hafter.trans (Int.zero_add _).symm)
  | token h => simpa [itemWeight, Token.weight] using hresumes (resumes_of_matches h.isMatch)
  | @unexpectedChar c _ h hc =>
      exact hresumes (resumes_neutral (by simpa using neutral_of_unmatched h hc))
  | unknownEscape _ _ _ => exact absurd rfl (hitem _ _)
  | @unterminatedString text h htext =>
      have hshape : (stringBody text).shape = .unterminated := by
        rw [stringBody_of_unmatched h htext]
      simpa [itemWeight, total, weight, Mode.next] using total_of_unterminated hshape

/-- The balance of a text is that of the items of its scan, if no escape is bad. -/
theorem total_of_lexes {p : Position} {cs : List Char} {items : List Item} (h : Lexes p cs items)
    (hitems : ∀ c q, .error (.unknownEscape c q) ∉ items) :
    total .code cs = (items.map itemWeight).sum := by
  induction h with
  | finish p => rfl
  | @piece p text rest item items h hrest ih =>
      have hrest := ih fun c q hmem => hitems c q (List.mem_append_right _ hmem)
      have hfirst := total_of_starts h fun c q heq => hitems c q (by simp [heq])
      rw [hfirst, hrest, List.map_append, List.sum_append]

/-- Line breaks weigh nothing. -/
theorem sum_filter_newline (items : List Item) :
    (items.map itemWeight).sum =
      ((items.filter fun item => !Item.isNewline item).map itemWeight).sum := by
  induction items with
  | nil => rfl
  | cons item items ih =>
      cases hline : Item.isNewline item with
      | false => simp [hline, ih]
      | true =>
          have hweight : itemWeight item = 0 := by
            cases item with
            | error e => rfl
            | ok t =>
                have hkind : t.kind = .newline := by simpa [Item.isNewline] using hline
                simp [itemWeight, Token.weight, Kind.weight, hkind]
          simp [hline, ih, hweight]

end Balance

namespace Scan.Item

/-- Whether an item of a scan is a token of the kind. -/
def hasKind (kind : Kind) : Item → Bool
  | .ok t => t.kind = kind
  | .error _ => false

/-- The items of a scan weigh as many as they have opening braces more than closing
ones. -/
theorem sum_itemWeight (items : List Item) :
    (items.map Balance.itemWeight).sum =
      (items.countP (hasKind .leftBrace) : Int) - items.countP (hasKind .rightBrace) := by
  induction items with
  | nil => rfl
  | cons item items ih =>
      rw [List.map_cons, List.sum_cons, ih, List.countP_cons, List.countP_cons]
      cases item with
      | error e => simp [Balance.itemWeight, hasKind]
      | ok t =>
          by_cases hleft : t.kind = .leftBrace
          · simp [Balance.itemWeight, Token.weight, Kind.weight, hasKind, hleft]
            omega
          · by_cases hright : t.kind = .rightBrace
            · simp [Balance.itemWeight, Token.weight, Kind.weight, hasKind, hright]
              omega
            · simp [Balance.itemWeight, Token.weight, Kind.weight, hasKind, hleft, hright]

end Scan.Item

/-- **The prompt counts the braces that the scanner reads.**  In a text without a bad
escape, other faults or not, the balance is the number of opening brace tokens less
that of closing ones. -/
theorem openBraces_eq_scanned_braces (source : String)
    (h : ∀ c p, .error (.unknownEscape c p) ∉ scan source) :
    openBraces source =
      ((scan source).countP (Scan.Item.hasKind .leftBrace) : Int) -
        (scan source).countP (Scan.Item.hasKind .rightBrace) := by
  have hlexes : Scan.Lexes .first source.toList (scan source) := (Scan.lexes_iff source _).mpr rfl
  rw [openBraces, Balance.total_of_lexes hlexes h, Scan.Item.sum_itemWeight]

/-- A quote and a brace in a comment, a hash and an escaped quote in a string, a
character that starts no token, and a string that ends in a backslash. -/
theorem openBraces_eq_scanned_braces_faults :
    let source := "\x7b # \x7d \"\n\"# \x7d\\\"\" ! \x7d \x7b \"\x7b \\"
    let items : List Scan.Item :=
      [.ok ⟨.leftBrace, "\x7b", ⟨1, 1⟩⟩, .ok ⟨.newline, "\n", ⟨1, 8⟩⟩,
        .ok ⟨.string "# \x7d\"", "\"# \x7d\\\"\"", ⟨2, 1⟩⟩, .error (.unexpectedChar '!' ⟨2, 9⟩),
        .ok ⟨.rightBrace, "\x7d", ⟨2, 11⟩⟩, .ok ⟨.leftBrace, "\x7b", ⟨2, 13⟩⟩,
        .error (.unterminatedString ⟨2, 15⟩), .ok (.finish ⟨2, 19⟩)]
    scan source = items ∧ (∀ c p, .error (.unknownEscape c p) ∉ items) ∧
      openBraces source = (2 : Nat) - (1 : Nat) := by
  intro source items
  have hscan : scan source = items := by decide
  have hescapes : ∀ c p, .error (.unknownEscape c p) ∉ items := by simp [items]
  refine ⟨hscan, hescapes, ?_⟩
  rw [openBraces_eq_scanned_braces source (hscan ▸ hescapes), hscan]
  rfl

/-- The balance of a text without faults is that of its tokens. -/
theorem openBraces_eq_balance {source : String} {tokens : List Token}
    (h : tokenize source = .ok tokens) : openBraces source = balance tokens := by
  rw [tokenize_eq_ok_iff] at h
  have hclean : ∀ e, .error e ∉ scan source := by
    intro e hmem
    have hkept : .error e ∈ (scan source).filter fun item => !Scan.Item.isNewline item :=
      List.mem_filter.mpr ⟨hmem, rfl⟩
    simp [h] at hkept
  have htotal := Balance.total_of_lexes ((Scan.lexes_iff source _).mpr rfl) fun c q => hclean _
  rw [openBraces, htotal, Balance.sum_filter_newline, h, List.map_map]
  rfl

end Abacus
