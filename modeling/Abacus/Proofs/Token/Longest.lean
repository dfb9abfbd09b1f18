import Abacus.Proofs.Token.Extent
import Abacus.Proofs.Token.Pattern

/-!
# Abacus.Proofs.Token.Longest

The scanner as a longest-match lexer.  `Longest kind text rest` says that no longer
front of `text ++ rest` matches any pattern, and `Starts` what stands at the front of
a text: a blank, the longest token, or a fault where no pattern matches.  The scanner
decides by the first character and never goes back; what it finds is what `Starts`
says (`starts_front`), and `Starts` allows nothing else (`Starts.exists_front`).  So a
scan is the only list of items that a text has by its patterns (`lexes_iff`).
-/

namespace Abacus

namespace Scan

open Text (isDigit)

/-! ## The longest match -/

/-- A token at the front of a text such that no longer front of it is a token. -/
structure Longest (kind : Kind) (text rest : List Char) : Prop where
  isMatch : Matches kind text
  length_le : ∀ kind' text', Matches kind' text' → text' <+: text ++ rest →
    text'.length ≤ text.length

/-- No front of the text is a token. -/
def Unmatched (cs : List Char) : Prop := ∀ kind text, Matches kind text → ¬ text <+: cs

theorem parted_nil : Parted [] := by simp [Parted]

/-- No token is empty. -/
theorem Matches.exists_cons {kind : Kind} {text : List Char} (h : Matches kind text) :
    ∃ c cs, text = c :: cs := by
  obtain ⟨c, cs, heq, _⟩ := front_of_spells (spells_iff_matches.mpr h) parted_nil
  exact ⟨c, cs, heq⟩

/-- A text is that of one kind of token only. -/
theorem Matches.kind_unique {kind kind' : Kind} {text : List Char} (h : Matches kind text)
    (h' : Matches kind' text) : kind = kind' := by
  obtain ⟨c, cs, rfl, hfront⟩ := front_of_spells (spells_iff_matches.mpr h) parted_nil
  obtain ⟨_, _, heq, hfront'⟩ := front_of_spells (spells_iff_matches.mpr h') parted_nil
  obtain ⟨rfl, rfl⟩ := List.cons.inj heq
  simpa using congrArg Piece.shape (hfront.symm.trans hfront')

theorem length_le_takeWhile {p : Char → Bool} {cs : List Char} (hcs : ∀ c ∈ cs, p c)
    (rest : List Char) : cs.length ≤ ((cs ++ rest).takeWhile p).length := by
  rw [List.takeWhile_append_of_pos hcs, List.length_append]
  exact Nat.le_add_right _ _

/-- The scanner finds a token wherever one starts, and none that is shorter. -/
theorem length_le_front {kind : Kind} {text : List Char} (h : Spells kind text) {c : Char}
    {cs : List Char} (htext : text <+: c :: cs) :
    ∃ kind', (front c cs).shape = .token kind' ∧ text.length ≤ (front c cs).text.length := by
  obtain ⟨rest, hrest⟩ := htext
  cases h with
  | @string s body h =>
      obtain ⟨rfl, rfl⟩ := List.cons.inj hrest
      refine ⟨.string s, ?_⟩
      show ((stringBody (body ++ rest)).consText '"').shape = _ ∧
        _ ≤ ((stringBody _).consText _).text.length
      simp [stringBody_of_quotes h, Piece.consText]
  | @whole d ds hd hds =>
      obtain ⟨rfl, rfl⟩ := List.cons.inj hrest
      have hle := length_le_takeWhile hds rest
      rw [front_digit hd, numberPiece]
      split
      · exact ⟨_, rfl, by simp; omega⟩
      · exact ⟨_, rfl, by simpa using hle⟩
  | @fraction d ds es hd hds hes =>
      obtain ⟨rfl, rfl⟩ := List.cons.inj hrest
      have hpoint : ∀ e ∈ ('.' :: (es ++ rest)).head?, isDigit e = false := by simp; decide
      obtain ⟨htake, hdrop⟩ := span_of_all hds hpoint
      have hle := length_le_takeWhile hes rest
      refine ⟨.number, ?_⟩
      simpa [front_digit hd, numberPiece, htake, hdrop] using hle
  | @point d ds hd hds =>
      obtain ⟨rfl, rfl⟩ := List.cons.inj hrest
      have hle := length_le_takeWhile hds rest
      refine ⟨.number, ?_⟩
      show (pointPiece (d :: (ds ++ rest))).shape = _ ∧
        _ ≤ (pointPiece (d :: (ds ++ rest))).text.length
      simpa [pointPiece, hd] using hle
  | @word d ds hd hds =>
      obtain ⟨rfl, rfl⟩ := List.cons.inj hrest
      have hle := length_le_takeWhile hds rest
      rw [front_word hd]
      exact ⟨_, rfl, by simpa [wordPiece] using hle⟩
  | @pair d o h =>
      obtain ⟨rfl, rfl⟩ := List.cons.inj hrest
      rw [front_withEquals h]
      exact ⟨.operator o, by simp [symbolPiece, h], by simp [symbolPiece, h]⟩
  | @single d k h =>
      obtain ⟨rfl, rfl⟩ := List.cons.inj hrest
      have hpos := List.length_pos_iff.mpr (front_text_ne_nil d rest)
      suffices hkind : ∃ kind', (front d rest).shape = .token kind' from
        hkind.imp fun _ hkind => ⟨hkind, hpos⟩
      rw [front_single h]
      unfold symbolPiece
      split
      · exact ⟨_, rfl⟩
      · rw [h]
        exact ⟨_, rfl⟩

/-- A token that the scanner finds is the longest there. -/
theorem longest_of_front {c : Char} {cs : List Char} {kind : Kind}
    (h : (front c cs).shape = .token kind) :
    Longest kind (front c cs).text (front c cs).rest := by
  refine ⟨spells_iff_matches.mp (spells_of_front h), fun kind' text' hmatch hprefix => ?_⟩
  rw [front_text_append_rest] at hprefix
  exact (length_le_front (spells_iff_matches.mpr hmatch) hprefix).choose_spec.2

/-- The longest token at the front of a text is what the scanner finds. -/
theorem front_of_longest {c : Char} {cs text rest : List Char} {kind : Kind}
    (h : Longest kind text rest) (hcs : text ++ rest = c :: cs) :
    front c cs = ⟨.token kind, text, rest⟩ := by
  have htext : text <+: c :: cs := ⟨rest, hcs⟩
  obtain ⟨kind', hshape, hle⟩ := length_le_front (spells_iff_matches.mpr h.isMatch) htext
  have hfound := longest_of_front hshape
  have hsplit : (front c cs).text ++ (front c cs).rest = text ++ rest := by
    rw [front_text_append_rest, hcs]
  have hge := h.length_le _ _ hfound.isMatch ⟨_, hsplit⟩
  obtain ⟨htext, hrest⟩ := List.append_inj hsplit (Nat.le_antisymm hge hle)
  rw [htext] at hfound
  obtain rfl := h.isMatch.kind_unique hfound.isMatch
  rw [← hshape, ← htext, ← hrest]

/-- Where no token starts, the scanner finds none. -/
theorem unmatched_iff {c : Char} {cs : List Char} :
    Unmatched (c :: cs) ↔ ∀ kind, (front c cs).shape ≠ .token kind := by
  constructor
  · intro h kind hshape
    exact h kind _ (longest_of_front hshape).isMatch ⟨_, front_text_append_rest c cs⟩
  · intro h kind text hmatch hprefix
    obtain ⟨kind', hshape, _⟩ := length_le_front (spells_iff_matches.mpr hmatch) hprefix
    exact h kind' hshape

/-! ## Faults -/

/-- A string with a bad escape: what may stand before it is the text of contents. -/
theorem stringBody_of_badEscape {value text : List Char} (h : Contents value text) {c : Char}
    (hc : ∀ d, ¬ Escape c d) (rest : List Char) :
    stringBody (text ++ '\\' :: c :: rest) = ⟨.badEscape c, text ++ ['\\', c], rest⟩ := by
  have hnone : unescape? c = none :=
    Option.eq_none_iff_forall_ne_some.mpr fun d hd => hc d (escape_iff.mpr hd)
  induction h with
  | nil => simp [stringBody, hnone]
  | plain hquote hslash _ ih =>
      simp [stringBody, hslash, ih, Piece.consContents, Piece.consText]
  | escaped hescape _ ih =>
      simp [stringBody, escape_iff.mp hescape, ih, Piece.consContents, Piece.consText]

/-- A string that is no token has a bad escape, or it goes on to the end of the text. -/
theorem stringBody_eq (cs : List Char) :
    (∃ kind, (stringBody cs).shape = .token kind) ∨
    (∃ value text c rest, Contents value text ∧ (∀ d, ¬ Escape c d) ∧
      cs = text ++ '\\' :: c :: rest) ∨
    stringBody cs = ⟨.unterminated, cs, []⟩ := by
  fun_induction stringBody cs with
  | case1 => exact .inr (.inr rfl)
  | case2 cs => exact .inl ⟨_, rfl⟩
  | case3 => exact .inr (.inr rfl)
  | case4 c cs d hd ih =>
      obtain ⟨kind, hkind⟩ | ⟨value, text, e, rest, htext, he, rfl⟩ | heq := ih
      · obtain ⟨s, rfl, _⟩ := quotes_of_stringBody hkind
        refine .inl ⟨.string (String.singleton d ++ s), ?_⟩
        simp [Piece.consContents, Piece.consText, hkind]
      · exact .inr (.inl ⟨_, _, e, rest, .escaped (escape_iff.mpr hd) htext, he, rfl⟩)
      · exact .inr (.inr (by simp [heq, Piece.consContents, Piece.consText]))
  | case5 c cs hnone =>
      refine .inr (.inl ⟨[], [], c, cs, .nil, fun d hd => ?_, rfl⟩)
      rw [escape_iff, hnone] at hd
      contradiction
  | case6 c cs hquote hend hslash ih =>
      have hne : c ≠ '\\' := by
        rintro rfl
        cases cs with
        | nil => exact hend rfl rfl
        | cons d ds => exact hslash d ds rfl rfl
      obtain ⟨kind, hkind⟩ | ⟨value, text, e, rest, htext, he, rfl⟩ | heq := ih
      · obtain ⟨s, rfl, _⟩ := quotes_of_stringBody hkind
        refine .inl ⟨.string (String.singleton c ++ s), ?_⟩
        simp [Piece.consContents, Piece.consText, hkind]
      · exact .inr (.inl ⟨_, _, e, rest, .plain hquote hne htext, he, rfl⟩)
      · exact .inr (.inr (by simp [heq, Piece.consContents, Piece.consText]))

/-- A string that is no token and has no bad escape goes on to the end of the text. -/
theorem stringBody_of_unmatched {text : List Char} (h : Unmatched ('"' :: text))
    (htext : ∀ value before c after, Contents value before →
      text = before ++ '\\' :: c :: after → ∃ d, Escape c d) :
    stringBody text = ⟨.unterminated, text, []⟩ := by
  obtain ⟨kind, hkind⟩ | ⟨value, before, c, after, hbefore, hc, heq⟩ | heq :=
    stringBody_eq text
  · exact absurd hkind (unmatched_iff.mp h kind)
  · exact absurd (htext value before c after hbefore heq) (not_exists.mpr hc)
  · exact heq

/-- Elsewhere a character starts a token or is a fault by itself. -/
theorem front_eq_of_other {c : Char} (cs : List Char) (hblank : isBlank c = false)
    (hhash : c ≠ '#') (hquote : c ≠ '"') :
    (∃ kind, (front c cs).shape = .token kind) ∨ front c cs = ⟨.unexpected c, [c], cs⟩ := by
  rw [front, hblank, if_neg Bool.false_ne_true, if_neg hhash, if_neg hquote]
  split
  · unfold numberPiece
    split <;> exact .inl ⟨_, rfl⟩
  split
  · next hpoint =>
    unfold pointPiece
    split
    · split
      · exact .inl ⟨_, rfl⟩
      · exact .inr (by rw [hpoint])
    · exact .inr (by rw [hpoint])
  split
  · exact .inl ⟨_, rfl⟩
  · unfold symbolPiece
    split
    · exact .inl ⟨_, rfl⟩
    · split
      · exact .inl ⟨_, rfl⟩
      · exact .inr rfl

/-! ## The front of a text -/

/-- What stands at the front of a text at `p`: the text of the piece, the text after
it, and what it contributes.  A blank contributes nothing; else it is the longest
match.  Where no pattern matches, a fault is named for its cause: after an opening
quote the first bad escape, if there is one, else the missing closing quote; any
other character is a fault by itself. -/
inductive Starts (p : Position) : List Char → List Char → Option Item → Prop
  | blank {c : Char} {rest : List Char} (hc : c = ' ' ∨ c = '\t' ∨ c = '\r') :
      Starts p [c] rest none
  | comment {text rest : List Char} (htext : '\n' ∉ text)
      (hrest : rest = [] ∨ rest.head? = some '\n') : Starts p ('#' :: text) rest none
  | token {kind : Kind} {text rest : List Char} (h : Longest kind text rest) :
      Starts p text rest (some (.ok ⟨kind, String.ofList text, p⟩))
  | unexpectedChar {c : Char} {rest : List Char} (h : Unmatched (c :: rest))
      (hc : c ∉ [' ', '\t', '\r', '#', '"']) :
      Starts p [c] rest (some (.error (.unexpectedChar c p)))
  | unknownEscape {value text rest : List Char} {c : Char}
      (h : Unmatched ('"' :: (text ++ '\\' :: c :: rest))) (htext : Contents value text)
      (hc : ∀ d, ¬ Escape c d) :
      Starts p ('"' :: (text ++ ['\\', c])) rest
        (some (.error (.unknownEscape c (p.advance ('"' :: text)))))
  | unterminatedString {text : List Char} (h : Unmatched ('"' :: text))
      (htext : ∀ value before c after, Contents value before →
        text = before ++ '\\' :: c :: after → ∃ d, Escape c d) :
      Starts p ('"' :: text) [] (some (.error (.unterminatedString p)))

theorem isBlank_iff {c : Char} : isBlank c ↔ c = ' ' ∨ c = '\t' ∨ c = '\r' := by
  simp [isBlank, or_assoc, or_comm]

theorem dropLast_dropLast_escape (text : List Char) (c : Char) :
    ('"' :: (text ++ ['\\', c])).dropLast.dropLast = '"' :: text := by
  have hsplit : '"' :: (text ++ ['\\', c]) = '"' :: text ++ ['\\'] ++ [c] := by simp
  rw [hsplit, List.dropLast_concat, List.dropLast_concat]

/-- After an opening quote the scanner finds what stands there. -/
theorem starts_quote (p : Position) (cs : List Char) :
    Starts p (front '"' cs).text (front '"' cs).rest ((front '"' cs).item? p) := by
  have hfront : front '"' cs = (stringBody cs).consText '"' := rfl
  by_cases htoken : ∃ kind, (front '"' cs).shape = .token kind
  · obtain ⟨kind, hkind⟩ := htoken
    rw [Piece.item?, hkind]
    exact .token (longest_of_front hkind)
  have hunmatched := unmatched_iff.mpr (not_exists.mp htoken)
  obtain ⟨kind, hkind⟩ | ⟨value, text, c, rest, htext, hc, rfl⟩ | heq := stringBody_eq cs
  · exact absurd ⟨kind, hkind⟩ htoken
  · rw [hfront, stringBody_of_badEscape htext hc rest]
    have hstarts := Starts.unknownEscape (p := p) hunmatched htext hc
    rw [← dropLast_dropLast_escape text c] at hstarts
    exact hstarts
  · rw [hfront, heq]
    refine .unterminatedString hunmatched fun value before c after hbefore htext => ?_
    by_contra hescape
    rw [show cs = _ from htext, stringBody_of_badEscape hbefore (not_exists.mp hescape)] at heq
    cases heq

/-- The scanner finds what stands at the front of a text. -/
theorem starts_front (p : Position) (c : Char) (cs : List Char) :
    Starts p (front c cs).text (front c cs).rest ((front c cs).item? p) := by
  by_cases hblank : (front c cs).shape = .blank
  · rw [Piece.item?, hblank]
    obtain ⟨hc, hfront⟩ | ⟨rfl, hfront⟩ := front_eq_of_blank hblank
    · rw [hfront]
      exact .blank (isBlank_iff.mp hc)
    · rw [hfront]
      refine .comment (fun hmem => ?_) (comment_ends cs)
      simpa [isCommentChar] using mem_takeWhile hmem
  by_cases hquote : c = '"'
  · subst hquote
    exact starts_quote p cs
  have hnotBlank : isBlank c = false := by
    by_contra hc
    exact hblank (by simp [front, hc])
  have hhash : c ≠ '#' := by
    rintro rfl
    exact hblank rfl
  obtain ⟨kind, hkind⟩ | hfront := front_eq_of_other cs hnotBlank hhash hquote
  · rw [Piece.item?, hkind]
    exact .token (longest_of_front hkind)
  · have hunmatched : Unmatched (c :: cs) := unmatched_iff.mpr (by simp [hfront])
    rw [hfront]
    refine .unexpectedChar hunmatched ?_
    have hne : ¬ (c = ' ' ∨ c = '\t' ∨ c = '\r') := by
      rw [← isBlank_iff, hnotBlank]
      exact Bool.false_ne_true
    simp only [not_or] at hne
    simp [hne, hhash, hquote]

/-- What stands at the front of a text is what the scanner finds. -/
theorem Starts.exists_front {p : Position} {text rest : List Char} {item : Option Item}
    (h : Starts p text rest item) :
    ∃ c cs shape, text ++ rest = c :: cs ∧ front c cs = ⟨shape, text, rest⟩ ∧
      (⟨shape, text, rest⟩ : Piece).item? p = item := by
  cases h with
  | @blank c _ hc =>
      have hfront : front c rest = ⟨.blank, [c], rest⟩ := by simp [front, isBlank_iff.mpr hc]
      exact ⟨c, rest, _, rfl, hfront, rfl⟩
  | @comment text _ htext hrest =>
      have hall : ∀ c ∈ text, isCommentChar c := by
        rintro c hc
        simp only [isCommentChar, ne_eq, decide_not, Bool.not_eq_true', decide_eq_false_iff_not]
        rintro rfl
        exact htext hc
      have hend : ∀ d ∈ rest.head?, isCommentChar d = false := by
        obtain rfl | hrest := hrest
        · simp
        · simp [hrest, isCommentChar]
      obtain ⟨htake, hdrop⟩ := span_of_all hall hend
      have hfront : front '#' (text ++ rest) = ⟨.blank, '#' :: text, rest⟩ := by
        show (⟨.blank, '#' :: _, _⟩ : Piece) = _
        rw [htake, hdrop]
      exact ⟨'#', _, _, rfl, hfront, rfl⟩
  | token h =>
      obtain ⟨c, cs, rfl⟩ := h.isMatch.exists_cons
      exact ⟨c, _, _, rfl, front_of_longest h rfl, rfl⟩
  | @unexpectedChar c _ h hc =>
      simp only [List.mem_cons, List.not_mem_nil, or_false, not_or] at hc
      have hnotBlank : isBlank c = false := by simp [isBlank, hc]
      obtain ⟨kind, hkind⟩ | hfront := front_eq_of_other rest hnotBlank hc.2.2.2.1 hc.2.2.2.2
      · exact absurd hkind (unmatched_iff.mp h kind)
      · exact ⟨c, rest, _, rfl, hfront, rfl⟩
  | @unknownEscape value text _ c h htext hc =>
      have hfront : front '"' (text ++ '\\' :: c :: rest) =
          (stringBody (text ++ '\\' :: c :: rest)).consText '"' := rfl
      rw [stringBody_of_badEscape htext hc] at hfront
      refine ⟨'"', text ++ '\\' :: c :: rest, .badEscape c, by simp, hfront, ?_⟩
      rw [Piece.item?, dropLast_dropLast_escape]
  | @unterminatedString text h htext =>
      have hfront : front '"' text = (stringBody text).consText '"' := rfl
      rw [stringBody_of_unmatched h htext] at hfront
      exact ⟨'"', text, _, by simp, hfront, rfl⟩

/-! ## Whole texts -/

/-- The items of a text that starts at `p`, piece by piece. -/
inductive Lexes : Position → List Char → List Item → Prop
  | finish (p : Position) : Lexes p [] [.ok (Token.finish p)]
  | piece {p : Position} {text rest : List Char} {item : Option Item} {items : List Item}
      (h : Starts p text rest item) (hrest : Lexes (p.advance text) rest items) :
      Lexes p (text ++ rest) (item.toList ++ items)

theorem itemsFrom_succ (n : Nat) (p : Position) (c : Char) (cs : List Char) :
    itemsFrom (n + 1) p (c :: cs) = ((front c cs).item? p).toList ++
      itemsFrom n (p.advance (front c cs).text) (front c cs).rest := by
  rw [itemsFrom]
  cases (front c cs).item? p <;> rfl

/-- With enough fuel the items of a text are found. -/
theorem lexes_itemsFrom {n : Nat} {cs : List Char} (p : Position) (hn : cs.length ≤ n) :
    Lexes p cs (itemsFrom n p cs) := by
  induction n generalizing p cs with
  | zero =>
      obtain rfl := List.length_eq_zero_iff.mp (Nat.le_zero.mp hn)
      exact .finish p
  | succ n ih =>
      cases cs with
      | nil => exact .finish p
      | cons c cs =>
          have hlt := length_front_rest_lt c cs
          have hle : (front c cs).rest.length ≤ n := by omega
          have hpiece := Lexes.piece (starts_front p c cs) (ih _ hle)
          rwa [front_text_append_rest, ← itemsFrom_succ] at hpiece

/-- What the items of a text are is found with enough fuel. -/
theorem Lexes.eq_itemsFrom {n : Nat} {p : Position} {cs : List Char} {items : List Item}
    (h : Lexes p cs items) (hn : cs.length ≤ n) : items = itemsFrom n p cs := by
  induction h generalizing n with
  | finish p => cases n <;> rfl
  | @piece p text rest item items h hrest ih =>
      obtain ⟨c, cs, shape, heq, hfront, rfl⟩ := h.exists_front
      rw [heq] at hn ⊢
      have hlt : rest.length < (c :: cs).length := by
        simpa [hfront] using length_front_rest_lt c cs
      cases n with
      | zero => contradiction
      | succ n => rw [itemsFrom_succ, hfront, ← ih (by omega)]

/-- The scan of a text is what its patterns make of it, and nothing else is. -/
theorem lexes_iff (source : String) (items : List Item) :
    Lexes .first source.toList items ↔ items = scan source :=
  ⟨fun h => h.eq_itemsFrom (Nat.le_refl _),
    fun h => h ▸ lexes_itemsFrom .first (Nat.le_refl _)⟩

end Scan

end Abacus
