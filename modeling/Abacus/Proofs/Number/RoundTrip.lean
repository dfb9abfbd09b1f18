import Abacus.Proofs.Number.Display
import Abacus.Proofs.Number.Reading
import Abacus.Proofs.Parse.Literal
import Abacus.Proofs.Parse.Operands

/-!
# Abacus.Proofs.Number.RoundTrip

Number literals, read and printed.  A literal denotes a decimal (`Denotes`) and is read as
the double that this rounds to (`exists_read?_of_denotes`).  A finite double is printed as a
literal that is read as the same double (`roundTrips_of_finite`); the infinity is printed as
a name (`tokenize_display_infinite`).  So the literals that survive being printed are those
before the end of the doubles (`number_literal_round_trips`), and a literal beyond it does
not (`number_literal_beyond_not_round_trips`).
-/

namespace Abacus

namespace Number

open Binary (ofFloat canonical_of_ofFloat ofFloat_inj)

variable {s : String} {text : List Char} {x : Float} {w : ℚ}

/-! ## What literals denote -/

/-- The number that a literal stands for: as a decimal text, or a point and the digits after
it. -/
inductive Denotes : List Char → ℚ → Prop
  | decimal {text : List Char} {w : ℚ} (h : Writes text w) : Denotes text w
  | point {es : List Char} (hne : es ≠ []) (hes : ∀ e ∈ es, e.isDigit) :
      Denotes ('.' :: es) (digitsValue es / 10 ^ es.length)

/-- The text of every number token denotes a number. -/
theorem exists_denotes (h : Scan.Matches .number text) : ∃ w, Denotes text w := by
  cases h with
  | whole hne hds => exact ⟨_, .decimal (.whole hne hds)⟩
  | fraction hne hds hes => exact ⟨_, .decimal (.fraction hne hds hes)⟩
  | point hne hes => exact ⟨_, .point hne hes⟩
  | symbol h => revert h; simp [Scan.symbols]

theorem Denotes.matches_number (h : Denotes text w) : Scan.Matches .number text := by
  cases h with
  | decimal h => exact h.matches_number
  | point hne hes => exact .point hne hes

/-- A literal denotes one number. -/
theorem Denotes.unique {v w : ℚ} (h : Denotes text v) (h' : Denotes text w) : v = w := by
  have hclash : ∀ {es : List Char} {u : ℚ}, ¬ Writes ('.' :: es) u := fun h => by
    obtain ⟨d, ds, htext, hd⟩ := h.exists_cons
    cases htext
    contradiction
  cases h with
  | decimal h =>
      cases h' with
      | decimal h' => exact h.unique h'
      | point => exact (hclash h).elim
  | point =>
      cases h' with
      | decimal h' => exact (hclash h').elim
      | point => rfl

/-- One and zeros denote a power of ten. -/
theorem denotes_one_zeros (n : Nat) :
    Denotes (String.ofList (['1'] ++ List.replicate n '0')).toList (10 ^ n) := by
  have hdigits : ∀ d ∈ ['1'] ++ List.replicate n '0', d.isDigit :=
    List.forall_mem_append.mpr ⟨List.forall_mem_singleton.mpr (by decide), isDigit_zeros n⟩
  have h := Writes.whole (List.append_ne_nil_of_left_ne_nil (by decide) _) hdigits
  rw [digitsValue_append_zeros, show digitsValue ['1'] = 1 by decide, Nat.one_mul] at h
  rw [String.toList_ofList]
  exact_mod_cast Denotes.decimal h

/-! ## Reading literals -/

/-- **A literal is read as the double that it rounds to.** -/
theorem exists_read?_of_denotes (h : Denotes s.toList w) :
    ∃ v, read? s = some v ∧ IsRounding w v := by
  have hdecimal := h.matches_number.isDecimal
  have hread : ∀ v, unsigned? s.toList = some v → read? s = some v := fun v hv => by
    rw [read?, Scan.takeSign_of_isDecimal hdecimal]
    simp [Scan.word?_of_isDecimal hdecimal, hv]
  generalize s.toList = text at *
  have hpoint : ∀ (c n : Nat), (c : ℚ) / 10 ^ n = c * 10 ^ (-n : Int) := fun c n => by
    rw [zpow_neg, zpow_natCast, div_eq_mul_inv]
  cases h with
  | decimal h =>
      cases h with
      | whole hne hds =>
          have hrounding := isRounding_ofDecimal (digitsValue text) 0
          rw [zpow_zero, mul_one] at hrounding
          exact ⟨_, hread _ (Scan.unsigned?_whole hne hds), hrounding⟩
      | fraction hne hds hes =>
          rw [hpoint]
          exact ⟨_, hread _ (Scan.unsigned?_point (.inl hne) hds hes), isRounding_ofDecimal _ _⟩
  | @point es hne hes =>
      rw [hpoint]
      exact ⟨_, hread _ (@Scan.unsigned?_point [] es (.inr hne) (by simp) hes),
        isRounding_ofDecimal _ _⟩

/-- The parser takes a number token for what its text is read as. -/
theorem primary_of_read? {expr unary : Parser Expr} {t : Token} {ts : List Token} {n : Nat}
    (hkind : t.kind = .number) (hread : read? t.lexeme = some x) :
    Parse.primary expr unary ⟨t :: ts, n⟩ = .ok (.number x) ⟨ts, n⟩ := by
  obtain ⟨kind, lexeme, pos⟩ := t
  subst hkind
  rw [Parse.primary_number, Parse.literal, hread]
  rfl

/-! ## Printing what was read -/

/-- The printed number is a text with one token, a number literal that is read as the number
again. -/
def RoundTrips (x : Float) : Prop :=
  tokenize (display x) =
      .ok [⟨.number, display x, .first⟩, .finish (.after (display x).toList)] ∧
    read? (display x) = some x

/-- A finite number is read again. -/
theorem roundTrips_of_finite {m : Nat} {q : Int} (h : ofFloat x = .finite false m q) :
    RoundTrips x := by
  obtain ⟨w, hwrites, hrounds⟩ := exists_writes_display h
  obtain ⟨v, hread, hrounding⟩ := exists_read?_of_denotes (.decimal hwrites)
  obtain rfl := ofFloat_inj h (hrounding.ofFloat_eq hrounds (canonical_of_ofFloat h))
  refine ⟨tokenize_of_spells (Scan.spells_iff_matches.mpr hwrites.matches_number) ?_, hread⟩
  exact Kind.noConfusion

/-- The infinity is printed as a word, and that is a name. -/
theorem tokenize_display_infinite (h : ofFloat x = .infinite false) :
    tokenize (display x) = .ok [⟨.identifier, "inf", ⟨1, 1⟩⟩, .finish ⟨1, 4⟩] := by
  have htext : display x = "inf" := by
    rw [display, h]
    rfl
  rw [htext]
  decide

/-- A number that was read is read again just if what was read lies before the end of the
doubles. -/
theorem IsRounding.roundTrips_iff (h : IsRounding w x) : RoundTrips x ↔ w < limit := by
  refine ⟨fun hround => ?_, fun hw => ?_⟩
  · obtain ⟨m, q, hx, hrounds⟩ | ⟨hx, _⟩ := h
    · exact lt_limit_of_rounds hrounds (canonical_of_ofFloat hx)
    · have htokens := hround.1
      rw [tokenize_display_infinite hx] at htokens
      cases htokens
  · obtain ⟨m, q, hx, _⟩ := h.rounds hw
    exact roundTrips_of_finite hx

/-- Otherwise it is printed as a name. -/
theorem IsRounding.tokenize_display (h : IsRounding w x) (hw : limit ≤ w) :
    tokenize (display x) = .ok [⟨.identifier, "inf", ⟨1, 1⟩⟩, .finish ⟨1, 4⟩] := by
  obtain ⟨m, q, hx, hrounds⟩ | ⟨hx, _⟩ := h
  · exact absurd (lt_limit_of_rounds hrounds (canonical_of_ofFloat hx)) hw.not_gt
  · exact tokenize_display_infinite hx

end Number

open Number

/-- **A number literal survives being printed just if it lies before the end of the doubles.**
The text of every number token of every text denotes a number and is read as the double that
this rounds to, and the parser takes the token for that double.  If the number lies before
the end of the doubles, and only then, the printed double has one token, a number literal
that is read as the double again.  Beyond it the double is the infinity, and its text is a
name. -/
theorem number_literal_round_trips (source : String) (t : Token) (ht : .ok t ∈ scan source)
    (hkind : t.kind = .number) :
    ∃ v w, read? t.lexeme = some v ∧ Denotes t.lexeme.toList w ∧ IsRounding w v ∧
      (∀ expr unary ts n, Parse.primary expr unary ⟨t :: ts, n⟩ = .ok (.number v) ⟨ts, n⟩) ∧
      (RoundTrips v ↔ w < limit) ∧
      (limit ≤ w →
        tokenize (display v) = .ok [⟨.identifier, "inf", ⟨1, 1⟩⟩, .finish ⟨1, 4⟩]) := by
  obtain ⟨w, hdenotes⟩ := exists_denotes (Scan.matches_of_mem_scan ht hkind)
  obtain ⟨v, hread, hrounding⟩ := exists_read?_of_denotes hdenotes
  exact ⟨v, w, hread, hdenotes, hrounding, fun _ _ _ _ => primary_of_read? hkind hread,
    hrounding.roundTrips_iff, hrounding.tokenize_display⟩

/-- A literal that begins with its point survives. -/
theorem number_literal_round_trips_half :
    let t : Token := ⟨.number, ".5", ⟨1, 5⟩⟩
    (.ok t ∈ scan "x = .5" ∧ t.kind = .number) ∧
      ∃ v, read? t.lexeme = some v ∧ RoundTrips v := by
  intro t
  have ht : .ok t ∈ scan "x = .5" := by decide
  refine ⟨⟨ht, rfl⟩, ?_⟩
  obtain ⟨v, w, hread, hdenotes, _, _, hiff, _⟩ := number_literal_round_trips _ t ht rfl
  refine ⟨v, hread, hiff.mpr ?_⟩
  have htext : t.lexeme.toList = ['.', '5'] := by decide
  rw [htext] at hdenotes
  have hpoint := @Denotes.point ['5'] (by decide) (List.forall_mem_singleton.mpr (by decide))
  rw [hdenotes.unique hpoint]
  have hhalf : ((digitsValue ['5'] : Nat) : ℚ) / 10 ^ ['5'].length =
      (2 ^ 52 : Nat) * 2 ^ (-53 : Int) := by
    rw [show digitsValue ['5'] = 5 by decide]
    norm_num
  rw [hhalf]
  exact lt_limit_of_rounds (Binary.rounds_self _ _)
    ⟨by decide, by decide, by decide, .inr le_rfl⟩

/-- One and four hundred zeros are read as the infinity, which is printed as a name. -/
theorem number_literal_beyond_not_round_trips :
    let source := String.ofList (['1'] ++ List.replicate 400 '0')
    let t : Token := ⟨.number, source, .first⟩
    ∃ v, .ok t ∈ scan source ∧ read? source = some v ∧
      (∀ expr unary ts n, Parse.primary expr unary ⟨t :: ts, n⟩ = .ok (.number v) ⟨ts, n⟩) ∧
      tokenize (display v) = .ok [⟨.identifier, "inf", ⟨1, 1⟩⟩, .finish ⟨1, 4⟩] ∧
      ¬ RoundTrips v := by
  intro source t
  have hdenotes : Denotes source.toList (10 ^ 400) := denotes_one_zeros 400
  have hlimit : limit ≤ 10 ^ 400 := limit_le_ten_zpow le_rfl
  obtain ⟨v, hread, hrounding⟩ := exists_read?_of_denotes hdenotes
  have htokens := tokenize_of_spells (Scan.spells_iff_matches.mpr hdenotes.matches_number)
    Kind.noConfusion
  refine ⟨v, ?_, hread, fun _ _ _ _ => primary_of_read? rfl hread,
    hrounding.tokenize_display hlimit, ?_⟩
  · exact mem_scan_of_tokenize htokens List.mem_cons_self
  · rw [hrounding.roundTrips_iff]
    exact hlimit.not_gt

end Abacus
