import Abacus.Proofs.Parse.Faults
import Abacus.Proofs.Token.Longest
import Abacus.Proofs.Token.Spacing

/-!
# Abacus.Proofs.Parse.Literal

Number literals.  The text of every number token spells a number
(`Matches.isSome_read?`), so the parser meets no literal that it cannot read
(`expected_ne_numericLiteral`).
-/

namespace Abacus

namespace Scan

open Text (isDigit)

/-! ## Reading them -/

/-- Digits are read as a whole decimal. -/
theorem unsigned?_whole {ds : List Char} (hne : ds ≠ []) (hds : ∀ d ∈ ds, d.isDigit) :
    Number.unsigned? ds = some (Number.ofDecimal (Number.digitsValue ds) 0) := by
  simp only [← isDigit_eq] at hds
  have hspan := @span_of_all isDigit ds [] hds (by simp)
  rw [List.append_nil] at hspan
  simp [Number.unsigned?, hspan, hne, Number.exponent?]

/-- Digits with a point before, among or after them are read as tenths and less. -/
theorem unsigned?_point {ds es : List Char} (hne : ds ≠ [] ∨ es ≠ [])
    (hds : ∀ d ∈ ds, d.isDigit) (hes : ∀ e ∈ es, e.isDigit) :
    Number.unsigned? (ds ++ '.' :: es) =
      some (Number.ofDecimal (Number.digitsValue (ds ++ es)) (-es.length)) := by
  simp only [← isDigit_eq] at hds hes
  have hpoint : ∀ d ∈ ('.' :: es).head?, isDigit d = false := by simp; decide
  obtain ⟨htake, hdrop⟩ := span_of_all hds hpoint
  have hspan := @span_of_all isDigit es [] hes (by simp)
  rw [List.append_nil] at hspan
  have hempty : (ds.isEmpty && es.isEmpty) = false := by
    simpa [Bool.and_eq_false_iff, or_iff_not_imp_left] using hne
  simp [Number.unsigned?, htake, hdrop, hspan, hempty, Number.exponent?]

theorem takeSign_of_isDecimal {text : List Char} (h : IsDecimal text) :
    Number.takeSign text = (false, text) := by
  unfold Number.takeSign
  split
  · have hminus := h.digit_or_point '-' List.mem_cons_self
    simp at hminus
  · have hplus := h.digit_or_point '+' List.mem_cons_self
    simp at hplus
  · rfl

/-- Every word for what is not a real number has an `n`, and no decimal has. -/
theorem word?_of_isDecimal {text : List Char} (h : IsDecimal text) : Number.word? text = none := by
  have hword : ∀ word : String, 'n' ∈ word.toList →
      String.ofList (text.map Char.toLower) ≠ word := by
    rintro _ hn rfl
    rw [String.toList_ofList] at hn
    obtain ⟨c, hc, hlower⟩ := List.mem_map.mp hn
    obtain hdigit | rfl := h.digit_or_point c hc
    · have hsame : c.toLower = c := by
        refine dif_neg fun hupper => ?_
        simp only [Char.isDigit, UInt32.le_iff_toNat_le, ge_iff_le, Bool.and_eq_true,
          decide_eq_true_eq] at hdigit hupper
        exact absurd (Nat.le_trans hupper.1 hdigit.2) (by decide)
      rw [hsame] at hlower
      subst hlower
      contradiction
    · contradiction
  have hinf := hword "inf" (by decide)
  have hinfinity := hword "infinity" (by decide)
  have hnan := hword "nan" (by decide)
  simp [Number.word?, hinf, hinfinity, hnan]

/-- The text of a number token spells a number. -/
theorem Matches.isSome_read? {s : String} (h : Matches .number s.toList) :
    (Number.read? s).isSome := by
  have hunsigned : (Number.unsigned? s.toList).isSome := by
    generalize s.toList = text at h
    cases h with
    | whole hne hds =>
        rw [unsigned?_whole hne hds]
        rfl
    | fraction hne hds hes =>
        rw [unsigned?_point (.inl hne) hds hes]
        rfl
    | @point es hne hes =>
        have hread := @unsigned?_point [] es (.inr hne) (by simp) hes
        rw [List.nil_append] at hread
        rw [hread]
        rfl
    | symbol h => revert h; simp [symbols]
  rw [Number.read?, takeSign_of_isDecimal h.isDecimal]
  simp [hunsigned]

/-- The number tokens of a scan. -/
theorem matches_of_mem_scan {source : String} {t : Token} (ht : .ok t ∈ scan source)
    (hkind : t.kind = .number) : Matches .number t.lexeme.toList := by
  obtain ⟨slices, h⟩ := exists_scanned source
  have hspells := h.spells ht (by simp [hkind])
  rw [hkind] at hspells
  exact spells_iff_matches.mp hspells

end Scan

/-! ## The parser meets no other literals -/

/-- A text whose tokens are not accepted lacks something else than a literal. -/
theorem expected_ne_numericLiteral {source : String} {e : GrammarError}
    (h : parseSource source = .error (.grammar e)) : e.expected ≠ .numericLiteral := by
  obtain ⟨tokens, htokens, hparse⟩ := parseSource_eq_error h
  obtain ⟨init, p, rfl, hinit⟩ := tokenize_eq_append_finish htokens
  obtain ⟨ts, next, rest, hsplit, _, hblames⟩ := Parse.blames_of_parseTokens (by rfl) hparse
  obtain ⟨hne, _⟩ | ⟨t, ht, hkind, hread, rfl⟩ := hblames.named
  · exact hne
  -- a literal that cannot be read would be among the tokens, but each of them can
  have hmem : t ∈ init ++ [.finish p] := hsplit ▸ List.mem_append_left _ ht
  obtain hmem | hmem := List.mem_append.mp hmem
  · have hspells := (hinit t hmem).1
    rw [hkind] at hspells
    have hsome := (Scan.spells_iff_matches.mp hspells).isSome_read?
    rw [hread] at hsome
    contradiction
  · obtain rfl := List.mem_singleton.mp hmem
    contradiction

/-- **The scanner is the longest-match lexer of its patterns.**  The scan of a text
is the one list of items that the patterns allow: at every place that is reached
outside blanks and comments, the longest front that is a token; where none is, the
fault that the text there calls for.  So the text of every number is a decimal, it
spells a number, and the parser never wants for a numeric literal. -/
theorem scan_longest_match (source : String) :
    (∀ items, Scan.Lexes .first source.toList items ↔ items = scan source) ∧
    (∀ t, .ok t ∈ scan source → t.kind = .number →
      Scan.IsDecimal t.lexeme.toList ∧ (Number.read? t.lexeme).isSome) ∧
    ∀ e, parseSource source = .error (.grammar e) → e.expected ≠ .numericLiteral := by
  refine ⟨Scan.lexes_iff source, fun t ht hkind => ?_, fun e => expected_ne_numericLiteral⟩
  have hmatches := Scan.matches_of_mem_scan ht hkind
  exact ⟨hmatches.isDecimal, hmatches.isSome_read?⟩

/-- Points, equals signs and a bad escape, each as long as it can be. -/
theorem scan_longest_match_points :
    let source := "1..5<==! \"\\q\"πx.5.3"
    let items : List Scan.Item :=
      [.ok ⟨.number, "1.", ⟨1, 1⟩⟩, .ok ⟨.number, ".5", ⟨1, 3⟩⟩,
        .ok ⟨.operator .lessEqual, "<=", ⟨1, 5⟩⟩, .ok ⟨.operator .assign, "=", ⟨1, 7⟩⟩,
        .error (.unexpectedChar '!' ⟨1, 8⟩), .error (.unknownEscape 'q' ⟨1, 11⟩),
        .error (.unterminatedString ⟨1, 13⟩), .ok (.finish ⟨1, 20⟩)]
    scan source = items ∧ Scan.Lexes .first source.toList items ∧
      Scan.IsDecimal "1.".toList ∧ (Number.read? "1.").isSome ∧
      ∃ e, parseSource "x<==y" = .error (.grammar e) ∧ e.expected ≠ .numericLiteral := by
  intro source items
  have hscan : scan source = items := by decide
  have hparse : parseSource "x<==y" =
      .error (.grammar ⟨.expression, "'='", ⟨1, 4⟩⟩) := by decide +kernel
  obtain ⟨hlexes, hnumbers, _⟩ := scan_longest_match source
  have hone := hnumbers ⟨.number, "1.", ⟨1, 1⟩⟩ (by rw [hscan]; exact List.mem_cons_self) rfl
  exact ⟨hscan, (hlexes items).mpr hscan.symm, hone.1, hone.2, _, hparse,
    (scan_longest_match "x<==y").2.2 _ hparse⟩

end Abacus
