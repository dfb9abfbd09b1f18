import Abacus.Token.Scan

/-!
# Abacus.Proofs.Token.Spelling

How tokens are spelled.  `Spells kind text` lists the texts of each kind of
token, without looking at what follows them.  Every token piece is spelled so
(`spells_of_front`), and every such text is read as one token of its kind if a
space or nothing follows (`front_of_spells`): a space ends every token but a string, and
strings end by themselves.
-/

namespace Abacus

namespace Scan

open Text (isDigit isLetter)

/-! ## Texts of tokens -/

/-- The text of a string after its opening quote: characters and escapes that
stand for the contents, then the closing quote. -/
inductive Quotes : String → List Char → Prop
  | close : Quotes "" ['"']
  | escaped {c d : Char} {s : String} {body : List Char} (hc : unescape? c = some d)
      (h : Quotes s body) : Quotes (String.singleton d ++ s) ('\\' :: c :: body)
  | plain {c : Char} {s : String} {body : List Char} (hquote : c ≠ '"') (hslash : c ≠ '\\')
      (h : Quotes s body) : Quotes (String.singleton c ++ s) (c :: body)

/-- The texts of the kinds of token. -/
inductive Spells : Kind → List Char → Prop
  | string {s : String} {body : List Char} (h : Quotes s body) : Spells (.string s) ('"' :: body)
  | whole {c : Char} {cs : List Char} (hc : isDigit c) (hcs : ∀ d ∈ cs, isDigit d) :
      Spells .number (c :: cs)
  | fraction {c : Char} {cs ds : List Char} (hc : isDigit c) (hcs : ∀ d ∈ cs, isDigit d)
      (hds : ∀ d ∈ ds, isDigit d) : Spells .number (c :: (cs ++ '.' :: ds))
  | point {d : Char} {ds : List Char} (hd : isDigit d) (hds : ∀ e ∈ ds, isDigit e) :
      Spells .number ('.' :: d :: ds)
  | word {c : Char} {cs : List Char} (hc : isWordStart c) (hcs : ∀ d ∈ cs, isWordChar d) :
      Spells (wordKind (String.ofList (c :: cs))) (c :: cs)
  | pair {c : Char} {o : Operator} (h : withEquals? c = some o) : Spells (.operator o) [c, '=']
  | single {c : Char} {kind : Kind} (h : single? c = some kind) : Spells kind [c]

theorem mem_takeWhile {p : Char → Bool} {cs : List Char} {c : Char} (h : c ∈ cs.takeWhile p) :
    p c = true := List.all_eq_true.mp (List.all_takeWhile ..) c h

/-! ## Tokens are spelled so -/

/-- A character in front of a string piece goes in front of its contents. -/
theorem shape_consContents {d : Char} {p : Piece} {kind : Kind}
    (h : (p.consContents d).shape = .token kind)
    (hp : ∀ k, p.shape = .token k → ∃ s, k = .string s) :
    ∃ s, p.shape = .token (.string s) ∧ kind = .string (String.singleton d ++ s) := by
  unfold Piece.consContents at h
  split at h
  · next s hs =>
      cases h
      exact ⟨s, hs, rfl⟩
  · next hnot =>
      obtain ⟨s, rfl⟩ := hp kind h
      exact absurd h (hnot s)

/-- A string piece is a text of its contents. -/
theorem quotes_of_stringBody {cs : List Char} {kind : Kind}
    (h : (stringBody cs).shape = .token kind) :
    ∃ s, kind = .string s ∧ Quotes s (stringBody cs).text := by
  fun_induction stringBody cs generalizing kind with
  | case1 => contradiction
  | case2 cs =>
      cases h
      exact ⟨"", rfl, .close⟩
  | case3 => contradiction
  | case4 c cs d hd ih =>
      have hstring : ∀ k, (stringBody cs).shape = .token k → ∃ s, k = .string s := fun k hk =>
        (ih hk).imp fun _ hs => hs.1
      obtain ⟨s, hs, rfl⟩ := shape_consContents h hstring
      obtain ⟨_, ⟨⟩, hquotes⟩ := ih hs
      simp only [consText_text, consContents_text]
      exact ⟨_, rfl, .escaped hd hquotes⟩
  | case5 c cs hd => contradiction
  | case6 c cs hquote hslash hend ih =>
      have hstring : ∀ k, (stringBody cs).shape = .token k → ∃ s, k = .string s := fun k hk =>
        (ih hk).imp fun _ hs => hs.1
      obtain ⟨s, hs, rfl⟩ := shape_consContents h hstring
      obtain ⟨_, ⟨⟩, hquotes⟩ := ih hs
      simp only [consText_text, consContents_text]
      refine ⟨_, rfl, .plain hquote (fun hc => ?_) hquotes⟩
      cases cs with
      | nil => exact hslash hc rfl
      | cons d ds => exact hend d ds hc rfl

/-- A number piece is the text of a number. -/
theorem spells_numberPiece {c : Char} (hc : isDigit c) (cs : List Char) :
    Spells .number (numberPiece c cs).text := by
  unfold numberPiece
  split
  · exact .fraction hc (fun _ => mem_takeWhile) fun _ => mem_takeWhile
  · exact .whole hc fun _ => mem_takeWhile

/-- A point with digits after it is the spelling of a number. -/
theorem spells_pointPiece {cs : List Char} {kind : Kind}
    (h : (pointPiece cs).shape = .token kind) : Spells kind (pointPiece cs).text := by
  unfold pointPiece at h ⊢
  split at h
  · next d ds =>
      split at h
      · next hd =>
          cases h
          simp only [hd, if_true, List.takeWhile_cons_of_pos]
          exact .point hd fun _ => mem_takeWhile
      · contradiction
  · contradiction

/-- A symbol of one or two characters is spelled as its kind says. -/
theorem spells_symbolPiece {c : Char} {cs : List Char} {kind : Kind}
    (h : (symbolPiece c cs).shape = .token kind) : Spells kind (symbolPiece c cs).text := by
  revert h
  unfold symbolPiece
  split
  · next o rest ho =>
      rintro ⟨⟩
      exact .pair ho
  · split
    · next k hk =>
        rintro ⟨⟩
        exact .single hk
    · intro h
      contradiction

/-- A piece that is a token is spelled as its kind is. -/
theorem spells_of_front {c : Char} {cs : List Char} {kind : Kind}
    (h : (front c cs).shape = .token kind) : Spells kind (front c cs).text := by
  revert h
  unfold front
  split
  · intro h
    contradiction
  split
  · intro h
    contradiction
  split
  · next hc =>
      intro h
      obtain ⟨s, rfl, hquotes⟩ := quotes_of_stringBody h
      rw [consText_text, hc]
      exact .string hquotes
  split
  · next hc =>
      intro h
      have hkind : (numberPiece c cs).shape = .token .number := by
        unfold numberPiece
        split <;> rfl
      rw [hkind] at h
      cases h
      exact spells_numberPiece hc cs
  split
  · exact spells_pointPiece
  split
  · next hc =>
      rintro ⟨⟩
      exact .word hc fun _ => mem_takeWhile
  · exact spells_symbolPiece

/-- The end of input is no piece of a text. -/
theorem Spells.ne_endOfInput {kind : Kind} {text : List Char} (h : Spells kind text) :
    kind ≠ .endOfInput := by
  cases h with
  | word => unfold wordKind; split <;> simp
  | @single c k hk =>
      unfold single? at hk
      split at hk <;> cases hk <;> simp
  | _ => simp

/-! ## Blanks -/

theorem shape_consContents_ne_blank {d : Char} {p : Piece} (hp : p.shape ≠ .blank) :
    (p.consContents d).shape ≠ .blank := by
  unfold Piece.consContents
  split
  · simp
  · exact hp

/-- A string is a token or a fault, never a blank. -/
theorem shape_stringBody_ne_blank (cs : List Char) : (stringBody cs).shape ≠ .blank := by
  fun_induction stringBody cs with
  | case1 => simp
  | case2 cs => simp
  | case3 => simp
  | case4 c cs d hd ih => exact shape_consContents_ne_blank ih
  | case5 c cs hd => simp
  | case6 c cs hquote hslash hend ih => exact shape_consContents_ne_blank ih

/-- A piece that is no item is a blank character or a comment. -/
theorem front_eq_of_blank {c : Char} {cs : List Char} (h : (front c cs).shape = .blank) :
    (isBlank c ∧ front c cs = ⟨.blank, [c], cs⟩) ∨
    (c = '#' ∧ front c cs =
      ⟨.blank, '#' :: cs.takeWhile isCommentChar, cs.dropWhile isCommentChar⟩) := by
  by_cases hblank : isBlank c
  · exact .inl ⟨hblank, by simp [front, hblank]⟩
  by_cases hhash : c = '#'
  · subst hhash
    exact .inr ⟨rfl, by simp [front, hblank]⟩
  rw [front, if_neg hblank, if_neg hhash] at h
  split at h
  · exact absurd h (shape_stringBody_ne_blank cs)
  split at h
  · unfold numberPiece at h
    split at h <;> contradiction
  split at h
  · unfold pointPiece at h
    split at h
    · split at h <;> contradiction
    · contradiction
  split at h
  · contradiction
  · unfold symbolPiece at h
    split at h
    · contradiction
    · split at h <;> contradiction

/-! ## What is spelled so is a token -/

/-- Strings end by themselves, whatever follows. -/
theorem stringBody_of_quotes {s : String} {body : List Char} (h : Quotes s body)
    (rest : List Char) : stringBody (body ++ rest) = ⟨.token (.string s), body, rest⟩ := by
  induction h with
  | close => rfl
  | @escaped c d s body hc _ ih =>
      simp [stringBody, hc, ih, Piece.consContents, Piece.consText]
  | @plain c s body hquote hslash _ ih =>
      simp [stringBody, hslash, ih, Piece.consContents, Piece.consText]

/-- What satisfies a test is taken up to the first character that does not. -/
theorem span_of_all {p : Char → Bool} {cs rest : List Char} (hcs : ∀ c ∈ cs, p c)
    (hrest : ∀ d ∈ rest.head?, p d = false) :
    (cs ++ rest).takeWhile p = cs ∧ (cs ++ rest).dropWhile p = rest := by
  rw [List.takeWhile_append_of_pos hcs, List.dropWhile_append_of_pos hcs]
  cases rest with
  | nil => simp
  | cons d rest => simp [hrest d rfl]

/-- A character of a class without blanks, `#` and quotes starts a piece of its
own. -/
theorem ne_of_class {p : Char → Bool} {c : Char} (hc : p c = true)
    (hp : [' ', '\r', '\t', '#', '"'].any p = false) :
    isBlank c = false ∧ c ≠ '#' ∧ c ≠ '"' := by
  have hne : ∀ d ∈ [' ', '\r', '\t', '#', '"'], c ≠ d := by
    rintro d hd rfl
    exact List.any_eq_false.mp hp c hd hc
  simp only [List.mem_cons, List.not_mem_nil, or_false, forall_eq_or_imp, forall_eq] at hne
  simp [isBlank, hne]

/-- A text that begins with a digit begins with a number. -/
theorem front_digit {c : Char} (hc : isDigit c) (cs : List Char) :
    front c cs = numberPiece c cs := by
  obtain ⟨hblank, hhash, hquote⟩ := ne_of_class hc (by decide)
  simp [front, hblank, hhash, hquote, hc]

theorem isDigit_of_isWordStart {c : Char} (hc : isWordStart c) : isDigit c = false := by
  simp only [isWordStart, isLetter, Bool.or_eq_true, Bool.and_eq_true, decide_eq_true_eq,
    Char.le_def, UInt32.le_iff_toNat_le] at hc
  simp only [isDigit, Bool.and_eq_false_iff, decide_eq_false_iff_not, Char.le_def,
    UInt32.le_iff_toNat_le]
  simp at hc ⊢
  obtain (⟨hlow, _⟩ | ⟨hlow, _⟩) | rfl := hc
  · omega
  · omega
  · simp

/-- A text that begins with a letter or an underscore begins with a word. -/
theorem front_word {c : Char} (hc : isWordStart c) (cs : List Char) :
    front c cs = wordPiece c cs := by
  obtain ⟨hblank, hhash, hquote⟩ := ne_of_class hc (by decide)
  have hpoint : c ≠ '.' := by
    rintro rfl
    contradiction
  simp [front, hblank, hhash, hquote, hpoint, hc, isDigit_of_isWordStart hc]

/-- A text that begins with an operator that may have an equals sign after it begins
with a symbol. -/
theorem front_withEquals {c : Char} {o : Operator} (h : withEquals? c = some o) (cs : List Char) :
    front c cs = symbolPiece c cs := by
  unfold withEquals? at h
  split at h <;> first | contradiction | rfl

/-- A text that begins with a symbol of one character begins with that symbol. -/
theorem front_single {c : Char} {kind : Kind} (h : single? c = some kind) (cs : List Char) :
    front c cs = symbolPiece c cs := by
  unfold single? at h
  split at h <;> first | contradiction | rfl

/-- A text that a space ends, or that ends by itself. -/
def Parted (rest : List Char) : Prop := ∀ d ∈ rest.head?, d = ' '

/-- A space or nothing fails every test that a space fails. -/
theorem Parted.head_eq_false {rest : List Char} (h : Parted rest) {p : Char → Bool}
    (hp : p ' ' = false) : ∀ d ∈ rest.head?, p d = false := by
  intro d hd
  rw [h d hd, hp]

/-- The text of a token is read as that token if a space or nothing follows. -/
theorem front_of_spells {kind : Kind} {text : List Char} (h : Spells kind text)
    {rest : List Char} (hrest : Parted rest) :
    ∃ c cs, text = c :: cs ∧ front c (cs ++ rest) = ⟨.token kind, text, rest⟩ := by
  cases h with
  | @string s body h =>
      refine ⟨_, _, rfl, ?_⟩
      show (stringBody (body ++ rest)).consText '"' = _
      rw [stringBody_of_quotes h]
      rfl
  | @whole c cs hc hcs =>
      refine ⟨_, _, rfl, ?_⟩
      obtain ⟨htake, hdrop⟩ := span_of_all hcs (hrest.head_eq_false (by decide))
      rw [front_digit hc, numberPiece, htake, hdrop]
      split
      · next ds => simpa using hrest '.' rfl
      · rfl
  | @fraction c cs ds hc hcs hds =>
      refine ⟨_, _, rfl, ?_⟩
      have hpoint : ∀ d ∈ ('.' :: (ds ++ rest)).head?, isDigit d = false := by simp; decide
      obtain ⟨htake, hdrop⟩ := span_of_all hcs hpoint
      obtain ⟨htake', hdrop'⟩ := span_of_all hds (hrest.head_eq_false (by decide))
      simp [front_digit hc, numberPiece, htake, hdrop, htake', hdrop']
  | @point d ds hd hds =>
      refine ⟨_, _, rfl, ?_⟩
      obtain ⟨htake, hdrop⟩ := span_of_all hds (hrest.head_eq_false (by decide))
      show pointPiece (d :: ds ++ rest) = _
      simp [pointPiece, hd, htake, hdrop]
  | @word c cs hc hcs =>
      refine ⟨_, _, rfl, ?_⟩
      obtain ⟨htake, hdrop⟩ := span_of_all hcs (hrest.head_eq_false (by decide))
      simp [front_word hc, wordPiece, htake, hdrop]
  | @pair c o h =>
      refine ⟨_, _, rfl, ?_⟩
      simp [front_withEquals h, symbolPiece, h]
  | @single c k h =>
      refine ⟨_, _, rfl, ?_⟩
      have hequals : ∀ o r, withEquals? c = some o → rest ≠ '=' :: r := by
        rintro o r _ rfl
        simpa using hrest '=' rfl
      rw [List.nil_append, front_single h, symbolPiece, h]
      exact hequals

end Scan

end Abacus
