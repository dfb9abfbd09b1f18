import Abacus.Proofs.Token.Longest
import Abacus.Proofs.Token.Spacing

/-!
# Abacus.Proofs.Token.Quotation

String literals.  There are many ways of quoting a text: each of its characters is written
as it is or by an escape, but a quote and a backslash by their escapes only (`Writing`).
Each of them is read as one string with that text for its contents, and every string of a
source is quoted in one of them (`string_literals_decode`).
-/

namespace Abacus

namespace Scan

/-! ## Quoted texts -/

/-- The ways of writing a character between quotes: as it is, unless it is a quote or a
backslash, or by its escape, if it has one. -/
inductive Writing : Char → List Char → Prop
  | raw {c : Char} (hquote : c ≠ '"') (hslash : c ≠ '\\') : Writing c [c]
  | escaped {c e : Char} (h : Escape e c) : Writing c ['\\', e]

/-- The literal is a way of quoting the text: a way of writing each of its characters, one
after the other, between two quotes. -/
def IsQuotation (s literal : String) : Prop :=
  ∃ parts, List.Forall₂ Writing s.toList parts ∧
    literal.toList = '"' :: (parts.flatten ++ ['"'])

/-- The contents of a string are written character by character. -/
theorem contents_iff {value text : List Char} :
    Contents value text ↔
      ∃ parts, List.Forall₂ Writing value parts ∧ text = parts.flatten := by
  constructor
  · intro h
    induction h with
    | nil => exact ⟨[], .nil, rfl⟩
    | plain hquote hslash _ ih =>
        obtain ⟨parts, hparts, rfl⟩ := ih
        exact ⟨_, .cons (.raw hquote hslash) hparts, rfl⟩
    | escaped hc _ ih =>
        obtain ⟨parts, hparts, rfl⟩ := ih
        exact ⟨_, .cons (.escaped hc) hparts, rfl⟩
  · rintro ⟨parts, hparts, rfl⟩
    induction hparts with
    | nil => exact .nil
    | cons h _ ih =>
        cases h with
        | raw hquote hslash => exact .plain hquote hslash ih
        | escaped hc => exact .escaped hc ih

/-- The quotations of a text are the texts of string tokens with these contents. -/
theorem isQuotation_iff {s literal : String} :
    IsQuotation s literal ↔ Matches (.string s) literal.toList := by
  constructor
  · rintro ⟨parts, hparts, hliteral⟩
    have hcontents := contents_iff.mpr ⟨parts, hparts, rfl⟩
    rw [hliteral, ← String.ofList_toList (s := s)]
    exact .string hcontents
  · intro h
    generalize hkind : Kind.string s = kind, hliteral : literal.toList = text at h
    cases h with
    | string h =>
        cases hkind
        obtain ⟨parts, hparts, rfl⟩ := contents_iff.mp h
        exact ⟨parts, by rwa [String.toList_ofList], hliteral⟩
    | symbol h =>
        subst hkind
        simp [symbols] at h
    | _ => contradiction

/-- Every text can be quoted. -/
theorem exists_isQuotation (s : String) : ∃ literal, IsQuotation s literal := by
  have hwriting : ∀ c : Char, ∃ part, Writing c part := by
    intro c
    by_cases hquote : c = '"'
    · subst hquote
      exact ⟨_, .escaped .quote⟩
    by_cases hslash : c = '\\'
    · subst hslash
      exact ⟨_, .escaped .backslash⟩
    · exact ⟨_, .raw hquote hslash⟩
  choose write hwrite using hwriting
  refine ⟨String.ofList ('"' :: ((s.toList.map write).flatten ++ ['"'])), s.toList.map write, ?_,
    String.toList_ofList⟩
  exact List.forall₂_map_right_iff.mpr (List.forall₂_same.mpr fun c _ => hwrite c)

end Scan

/-- **String literals decode exactly.**  However a text is quoted, the literal is read as
one string with that text for its contents, whose own text is the whole literal, and then
the end of input at the place after it.  The text of every string in a scan, also of a
source with faults, is a quotation of its contents. -/
theorem string_literals_decode :
    (∀ s literal, Scan.IsQuotation s literal → tokenize literal =
      .ok [⟨.string s, literal, .first⟩, .finish (.after literal.toList)]) ∧
    ∀ source t s, .ok t ∈ scan source → t.kind = .string s →
      Scan.IsQuotation s t.lexeme := by
  constructor
  · intro s literal h
    have hspells := Scan.spells_iff_matches.mpr (Scan.isQuotation_iff.mp h)
    exact tokenize_of_spells hspells (by simp)
  · intro source t s ht hkind
    obtain ⟨slices, hscanned⟩ := Scan.exists_scanned source
    have hspells := hscanned.spells ht (by simp [hkind])
    rw [hkind] at hspells
    exact Scan.isQuotation_iff.mpr (Scan.spells_iff_matches.mp hspells)

/-- An escaped quote before the closing one, two backslashes, a raw and an escaped line
feed, and a raw and an escaped NUL; and a string after a fault. -/
theorem string_literals_decode_mixed :
    let s := "\\\n\n\x00\x00\""
    let literal := "\"\\\\\n\\n\x00\\0\\\"\""
    tokenize literal = .ok [⟨.string s, literal, ⟨1, 1⟩⟩, .finish ⟨2, 9⟩] ∧
      .ok ⟨.string "a", "\"a\"", ⟨1, 2⟩⟩ ∈ scan "!\"a\"" ∧
      Scan.IsQuotation "a" "\"a\"" := by
  intro s literal
  obtain ⟨hdecodes, hquoted⟩ := string_literals_decode
  have hliteral : Scan.IsQuotation s literal := by
    refine ⟨[['\\', '\\'], ['\n'], ['\\', 'n'], ['\x00'], ['\\', '0'], ['\\', '"']], ?_,
      by decide⟩
    have hs : s.toList = ['\\', '\n', '\n', '\x00', '\x00', '"'] := by decide
    rw [hs]
    exact .cons (.escaped .backslash) (.cons (.raw (by decide) (by decide))
      (.cons (.escaped .lineFeed) (.cons (.raw (by decide) (by decide))
        (.cons (.escaped .zero) (.cons (.escaped .quote) .nil)))))
  have hmem : .ok ⟨.string "a", "\"a\"", ⟨1, 2⟩⟩ ∈ scan "!\"a\"" := by decide
  have hend : Position.after literal.toList = ⟨2, 9⟩ := by decide
  exact ⟨hend ▸ hdecodes _ _ hliteral, hmem, hquoted _ _ _ hmem rfl⟩

end Abacus
