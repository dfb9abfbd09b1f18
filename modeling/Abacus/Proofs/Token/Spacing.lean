import Abacus.Proofs.Token.Scanned

/-!
# Abacus.Proofs.Token.Spacing

The plain layout of a text: the texts of its tokens, with a single space between
one and the next.  Read again, it has the same tokens but for their places
(`exists_tokenize_spaced`): no two neighbours are glued together and none is
split.  The end of input has an empty text, so it does not matter whether it is
written, too: a space at the end of a text is nothing.
-/

namespace Abacus

/-- The token at another place. -/
def Token.relocate (f : Position → Position) (t : Token) : Token := { t with pos := f t.pos }

/-- The token with its place at the start: what a token is, up to its place. -/
def Token.unplaced (t : Token) : Token := { t with pos := .first }

theorem Token.unplaced_eq_iff {t t' : Token} :
    t.unplaced = t'.unplaced ↔ t.kind = t'.kind ∧ t.lexeme = t'.lexeme := by
  simp [unplaced]

/-- The texts of tokens with single spaces between them. -/
def spaced (tokens : List Token) : String := String.intercalate " " (tokens.map Token.lexeme)

theorem toList_spaced_cons (t : Token) (ts : List Token) :
    (spaced (t :: ts)).toList = t.lexeme.toList ++ ts.flatMap fun u => ' ' :: u.lexeme.toList := by
  rw [spaced, String.toList_intercalate]
  induction ts generalizing t with
  | nil => simp
  | cons u ts ih =>
      have hrest := ih u
      rw [List.map_cons, List.map_cons] at hrest
      rw [List.map_cons, List.map_cons, List.map_cons, List.map_cons, List.intercalate_cons_cons,
        hrest]
      simp

/-- The empty text of the end of input adds at most a space at the end. -/
theorem toList_spaced_finish (ts : List Token) (p : Position) :
    ∃ tail, (tail = [] ∨ tail = [' ']) ∧
      (spaced (ts ++ [Token.finish p])).toList = (spaced ts).toList ++ tail := by
  cases ts with
  | nil => exact ⟨[], .inl rfl, rfl⟩
  | cons t ts =>
      refine ⟨[' '], .inr rfl, ?_⟩
      rw [List.cons_append, toList_spaced_cons, toList_spaced_cons]
      simp [Token.finish]

namespace Scan

variable {before rest : List Char} {items : List Item} {slices : List Slice}

/-! ## Reading spaced texts -/

/-- A token is read from its text if a space or nothing follows. -/
theorem Scanned.of_spells {t : Token} (ht : Spells t.kind t.lexeme.toList) (hrest : Parted rest)
    (h : Scanned before (t.lexeme.toList ++ rest) items slices) :
    ∃ items' slices', items = .ok { t with pos := .after before } :: items' ∧
      Scanned (before ++ t.lexeme.toList) rest items' slices' := by
  obtain ⟨c, cs, htext, hfront⟩ := front_of_spells ht hrest
  have hcons : t.lexeme.toList ++ rest = c :: (cs ++ rest) := by rw [htext, List.cons_append]
  rw [hcons] at h
  cases h with
  | blank hshape _ =>
      rw [hfront] at hshape
      contradiction
  | @item _ _ _ item items slices hitem hnext =>
      rw [hfront] at hitem hnext
      have hlexeme : String.ofList t.lexeme.toList = t.lexeme := String.ofList_toList
      simp only [Piece.item?, Option.some.injEq, hlexeme] at hitem
      exact ⟨items, slices, by rw [← hitem], hnext⟩

/-- A space is left out. -/
theorem Scanned.of_space (h : Scanned before (' ' :: rest) items slices) :
    Scanned (before ++ [' ']) rest items slices := by
  cases h with
  | blank _ hnext => exact hnext
  | item hitem _ => contradiction

/-- What follows the first token of a spaced text: each further token after a
space, and perhaps a space at the end. -/
def spacedRest (tokens : List Token) (tail : List Char) : List Char :=
  tokens.flatMap (fun t => ' ' :: t.lexeme.toList) ++ tail

theorem parted_spacedRest (tokens : List Token) {tail : List Char} (htail : Parted tail) :
    Parted (spacedRest tokens tail) := by
  cases tokens with
  | nil => exact htail
  | cons t ts => simp [spacedRest, Parted]

/-- The rest of a spaced text has the tokens that it was made of, up to their
places, and then the end of input. -/
theorem Scanned.of_spacedRest {tokens : List Token} {tail : List Char}
    (htokens : ∀ t ∈ tokens, Spells t.kind t.lexeme.toList) (htail : tail = [] ∨ tail = [' '])
    (h : Scanned before (spacedRest tokens tail) items slices) :
    ∃ tokens' p, items = (tokens' ++ [Token.finish p]).map .ok ∧
      tokens'.map Token.unplaced = tokens.map Token.unplaced := by
  induction tokens generalizing before items slices with
  | nil =>
      obtain rfl | rfl := htail
      · cases h
        exact ⟨[], _, rfl, rfl⟩
      · cases h.of_space
        exact ⟨[], _, rfl, rfl⟩
  | cons t ts ih =>
      rw [List.forall_mem_cons] at htokens
      have hrest : Parted (spacedRest ts tail) := by
        apply parted_spacedRest
        obtain rfl | rfl := htail <;> simp [Parted]
      have htext : spacedRest (t :: ts) tail = ' ' :: (t.lexeme.toList ++ spacedRest ts tail) := by
        simp [spacedRest]
      rw [htext] at h
      obtain ⟨items', slices', rfl, hnext⟩ := h.of_space.of_spells htokens.1 hrest
      obtain ⟨tokens', p, rfl, hsame⟩ := ih htokens.2 hnext
      exact ⟨_ :: tokens', p, rfl, by rw [List.map_cons, hsame]; rfl⟩

/-- A spaced text, perhaps with a space at the end, has the tokens that it was
made of. -/
theorem Scanned.of_spaced {tokens : List Token} {tail : List Char}
    (htokens : ∀ t ∈ tokens, Spells t.kind t.lexeme.toList) (htail : tail = [] ∨ tail = [' '])
    (h : Scanned before ((spaced tokens).toList ++ tail) items slices) :
    ∃ tokens' p, items = (tokens' ++ [Token.finish p]).map .ok ∧
      tokens'.map Token.unplaced = tokens.map Token.unplaced := by
  cases tokens with
  | nil => exact Scanned.of_spacedRest htokens htail h
  | cons t ts =>
      rw [List.forall_mem_cons] at htokens
      have hrest : Parted (spacedRest ts tail) := by
        apply parted_spacedRest
        obtain rfl | rfl := htail <;> simp [Parted]
      have htext : (spaced (t :: ts)).toList ++ tail = t.lexeme.toList ++ spacedRest ts tail := by
        rw [toList_spaced_cons, spacedRest, List.append_assoc]
      rw [htext] at h
      obtain ⟨items', slices', rfl, hnext⟩ := h.of_spells htokens.1 hrest
      obtain ⟨tokens', p, rfl, hsame⟩ := hnext.of_spacedRest htokens.2 htail
      exact ⟨_ :: tokens', p, rfl, by rw [List.map_cons, hsame]; rfl⟩

/-! ## Tokens of a text -/

/-- The tokens of a scan are spelled as their kinds are, the end of input apart. -/
theorem Scanned.spells (h : Scanned before rest items slices) {t : Token} (ht : .ok t ∈ items)
    (hkind : t.kind ≠ .endOfInput) : Spells t.kind t.lexeme.toList := by
  induction h with
  | finish before =>
      obtain rfl : t = .finish _ := by simpa using ht
      exact absurd rfl hkind
  | blank _ _ ih => exact ih ht
  | @item before cs c item items slices hitem _ ih =>
      obtain rfl | ht := List.mem_cons.mp ht
      · obtain ⟨hshape, hlexeme, _⟩ := item?_eq_ok hitem
        rw [hlexeme]
        exact spells_of_front hshape
      · exact ih ht

end Scan

/-- The tokens of a text are spelled as their kinds are, none of them is a line
break, and after them comes the end of input. -/
theorem tokenize_eq_append_finish {source : String} {tokens : List Token}
    (h : tokenize source = .ok tokens) :
    ∃ init p, tokens = init ++ [Token.finish p] ∧
      ∀ t ∈ init, Scan.Spells t.kind t.lexeme.toList ∧ t.kind ≠ .newline := by
  obtain ⟨slices, hscanned⟩ := Scan.exists_scanned source
  obtain ⟨items, hitems, hinit⟩ := hscanned.items_eq
  rw [tokenize_eq_ok_iff, hitems, List.filter_append, eq_comm] at h
  obtain ⟨init, last, rfl, hfilter, hlast⟩ := List.map_eq_append_iff.mp h
  refine ⟨init, .after ([] ++ source.toList), ?_, fun t ht => ?_⟩
  · congr 1
    exact List.map_inj_right (fun _ _ => Except.ok.inj) |>.mp hlast
  · have hmem : .ok t ∈ items.filter fun item => !Scan.Item.isNewline item := by
      rw [← hfilter]
      exact List.mem_map_of_mem ht
    obtain ⟨hmem, hline⟩ := List.mem_filter.mp hmem
    refine ⟨hscanned.spells ?_ (hinit t hmem), by simpa [Scan.Item.isNewline] using hline⟩
    rw [hitems]
    exact List.mem_append_left _ hmem

/-- The text of a token by itself has that token, and then the end of input. -/
theorem tokenize_of_spells {kind : Kind} {text : String} (h : Scan.Spells kind text.toList)
    (hline : kind ≠ .newline) :
    tokenize text = .ok [⟨kind, text, .first⟩, .finish (.after text.toList)] := by
  obtain ⟨slices, hscanned⟩ := Scan.exists_scanned text
  rw [← List.append_nil text.toList] at hscanned
  obtain ⟨items, slices', hscan, hrest⟩ :=
    hscanned.of_spells (t := ⟨kind, text, .first⟩) h (by simp [Scan.Parted])
  cases hrest
  refine tokenize_of_scan hscan fun t ht => ?_
  simp only [List.mem_cons, List.not_mem_nil, or_false] at ht
  obtain rfl | rfl := ht
  · exact hline
  · simp [Token.finish]

/-- A spaced text of tokens that are spelled as their kinds are has these tokens, up to
their places. -/
theorem exists_tokenize_of_spaced {text : String} {init : List Token} {tail : List Char}
    (hinit : ∀ t ∈ init, Scan.Spells t.kind t.lexeme.toList ∧ t.kind ≠ .newline)
    (htail : tail = [] ∨ tail = [' ']) (htext : text.toList = (spaced init).toList ++ tail) :
    ∃ tokens' p, tokenize text = .ok (tokens' ++ [Token.finish p]) ∧
      tokens'.map Token.unplaced = init.map Token.unplaced := by
  obtain ⟨slices, hscanned⟩ := Scan.exists_scanned text
  rw [htext] at hscanned
  obtain ⟨tokens', p', hscan, hsame⟩ := hscanned.of_spaced (fun t ht => (hinit t ht).1) htail
  refine ⟨tokens', p', tokenize_of_scan hscan fun t ht => ?_, hsame⟩
  obtain ht | ht := List.mem_append.mp ht
  · have hmem := List.mem_map_of_mem (f := Token.unplaced) ht
    rw [hsame] at hmem
    obtain ⟨u, hu, hut⟩ := List.mem_map.mp hmem
    rw [← (Token.unplaced_eq_iff.mp hut).1]
    exact (hinit u hu).2
  · obtain rfl := List.mem_singleton.mp ht
    simp [Token.finish]

/-- The plain layout of a text has the tokens of the text, up to their places. -/
theorem exists_tokenize_spaced {source norm : String} {tokens : List Token}
    (h : tokenize source = .ok tokens)
    (hnorm : norm = spaced tokens ∨ norm = spaced tokens.dropLast) :
    ∃ tokens', tokenize norm = .ok tokens' ∧
      tokens'.map Token.unplaced = tokens.map Token.unplaced := by
  obtain ⟨init, p, rfl, hinit⟩ := tokenize_eq_append_finish h
  have htext : ∃ tail, (tail = [] ∨ tail = [' ']) ∧
      norm.toList = (spaced init).toList ++ tail := by
    obtain rfl | rfl := hnorm
    · exact toList_spaced_finish init p
    · exact ⟨[], .inl rfl, by simp⟩
  obtain ⟨tail, htail, htext⟩ := htext
  obtain ⟨tokens', p', htokens, hsame⟩ := exists_tokenize_of_spaced hinit htail htext
  refine ⟨_, htokens, ?_⟩
  rw [List.map_append, List.map_append, hsame]
  rfl

end Abacus
