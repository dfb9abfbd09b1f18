import Abacus.Proofs.Number.Bits
import Abacus.Proofs.Number.Shortest
import Mathlib.Data.Nat.Cast.Field

/-!
# Abacus.Proofs.Number.Display

The text of a number determines it.  A finite number with a clear sign bit is shown as a
decimal text that rounds to it: a whole number by its digits, any other by its shortest
decimal (`exists_writes_display`).  So two such numbers with the same text are the same
(`display_inj`).
-/

namespace Abacus

namespace Number

open Binary

variable {x y : Float} {m : Nat} {q : Int}

/-- The whole part of a whole double is the double. -/
theorem wholePart_eq (h : Binary.isWhole (.finite false m q) = true) :
    (wholePart m q : ℚ) = m * 2 ^ q := by
  unfold wholePart
  simp only [isWhole, Bool.or_eq_true, decide_eq_true_eq, Nat.pow_eq] at h
  split
  · next hq =>
    rw [Nat.cast_mul, Nat.pow_eq, Nat.cast_pow, ← zpow_natCast, Int.toNat_of_nonneg hq]
    rfl
  · next hq =>
    obtain ⟨n, hn⟩ : ∃ n : Nat, q = -n := ⟨(-q).toNat, by omega⟩
    subst hn
    have hdvd := Nat.dvd_of_mod_eq_zero (h.resolve_left hq)
    rw [Nat.pow_eq, Nat.cast_div hdvd (by positivity), zpow_neg, ← div_eq_mul_inv]
    simp

/-- Zero is shown as a whole number. -/
theorem pos_of_not_isPlainWhole (h : isPlainWhole (.finite false m q) = false) : 0 < m := by
  by_contra hm
  obtain rfl : m = 0 := by omega
  have hplain : isPlainWhole (.finite false 0 q) = true := by
    simp [isPlainWhole, isWhole, truncate, wholePart]
  exact Bool.noConfusion (hplain.symm.trans h)

/-- A finite number with a clear sign bit is shown as a decimal text that rounds to it. -/
theorem exists_writes_display (h : ofFloat x = .finite false m q) :
    ∃ w, Writes (display x).toList w ∧ Rounds w m q := by
  unfold display
  simp only [h]
  split
  · next hplain =>
    have hwhole : isWhole (.finite false m q) = true := ((Bool.and_eq_true _ _).mp hplain).1
    have htext : (toString (truncate (.finite false m q))).toList =
        Nat.toDigits 10 (wholePart m q) := by
      change (toString (wholePart m q)).toList = _
      rw [Nat.toString_eq_ofList_toDigits, String.toList_ofList]
    refine ⟨wholePart m q, htext ▸ writes_toDigits _, ?_⟩
    rw [wholePart_eq hwhole]
    exact rounds_self m q
  · next hplain =>
    have hm := pos_of_not_isPlainWhole (Bool.not_eq_true _ ▸ hplain)
    have htext : Style.display.binary (.finite false m q) =
        Style.display.decimal (Decimal.shortest .up m q) := by
      rw [Style.binary, if_neg hm.ne']
      exact String.empty_append
    exact ⟨_, htext ▸ Decimal.writes_display _,
      Decimal.rounds_shortest .up hm (canonical_of_ofFloat h)⟩

/-- **The text of a finite number with a clear sign bit determines it.** -/
theorem display_inj (hx : IsUnsigned x) (hfx : x.isFinite = true) (hy : IsUnsigned y)
    (hfy : y.isFinite = true) (h : display x = display y) : x = y := by
  obtain ⟨m, q, hxparts⟩ := hx.exists_finite hfx
  obtain ⟨m', q', hyparts⟩ := hy.exists_finite hfy
  obtain ⟨w, hw, hrounds⟩ := exists_writes_display hxparts
  obtain ⟨w', hw', hrounds'⟩ := exists_writes_display hyparts
  obtain rfl := hw.unique (h ▸ hw')
  obtain ⟨rfl, rfl⟩ := hrounds.unique hrounds' (canonical_of_ofFloat hxparts)
    (canonical_of_ofFloat hyparts)
  exact ofFloat_inj hxparts hyparts

/-- A number with a clear sign bit is shown as a decimal text, or as a word if it is not
finite. -/
theorem display_cases (hx : IsUnsigned x) :
    display x = "inf" ∨ display x = "NaN" ∨ ∃ w, Writes (display x).toList w := by
  obtain ⟨_, hnan | hinf⟩ | ⟨m, q, hparts⟩ := hx.ofFloat_cases
  · refine .inr (.inl ?_)
    rw [display, hnan]
    rfl
  · refine .inl ?_
    rw [display, hinf]
    rfl
  · obtain ⟨w, hw, _⟩ := exists_writes_display hparts
    exact .inr (.inr ⟨w, hw⟩)

end Number

end Abacus
