import Abacus.Proofs.Number.Bits
import Mathlib.Algebra.Order.Field.Basic
import Mathlib.Tactic.Ring

/-!
# Abacus.Proofs.Number.Nearest

Rounding to the nearest double.  The arithmetic of doubles cuts a number off after some bits
and keeps of the others what rounding needs to know: the first of them, and whether any
later one is set (`Describes`).  Cut off and rounded, the number rounds to the double that
comes out, or it lies beyond all doubles (`IsRounding`), whenever enough bits were there to
begin with (`isRounding_roundWithAccuracy`).
-/

namespace Abacus

namespace Number

open Float.Model Float.Model.UnpackedFloat

variable {em : ExtendedMantissa} {m n : Nat} {e q : Int} {w y : ℚ}

/-! ## Residual bits -/

/-- The mantissa is the number without its fraction; the first residual bit says whether the
fraction has a half, and the second one whether there is anything more. -/
structure Describes (em : ExtendedMantissa) (y : ℚ) : Prop where
  low_le : 2 * em.mantissa + em.roundBit.toNat ≤ 2 * y
  lt_high : 2 * y < 2 * em.mantissa + em.roundBit.toNat + 1
  sticky : em.stickyBit = false ↔ 2 * y = 2 * em.mantissa + em.roundBit.toNat

theorem describes_exact (m : Nat) : Describes (.ofMantissaAndAccuracy m .exact) m := by
  constructor <;> simp [ExtendedMantissa.ofMantissaAndAccuracy]

/-- What is cut off is something, less than a half, just a half or more. -/
theorem describes_inexact (m : Nat) {f : ℚ} {o : Ordering} (hpos : 0 < f) (hlt : f < 1)
    (ho : match o with
      | .lt => 2 * f < 1
      | .eq => 2 * f = 1
      | .gt => 1 < 2 * f) :
    Describes (.ofMantissaAndAccuracy m (.inexact o)) (m + f) := by
  cases o with
  | eq => constructor <;> norm_num [ExtendedMantissa.ofMantissaAndAccuracy] <;> linarith
  | lt | gt =>
      refine ⟨?_, ?_, iff_of_false Bool.noConfusion fun h => ?_⟩ <;>
        norm_num [ExtendedMantissa.ofMantissaAndAccuracy] at * <;> linarith

/-- The accuracy of a quotient that is cut off before its remainder. -/
theorem describes_quotient (m : Nat) (hn : 0 < n) :
    Describes (.ofMantissaAndAccuracy (m / n) (accuracyOfFraction (m % n) n)) (m / n) := by
  have hpos : (0 : ℚ) < n := Nat.cast_pos.mpr hn
  have hquotient : (m : ℚ) / n = (m / n : Nat) + (m % n : Nat) / n := by
    rw [div_eq_iff hpos.ne', add_mul, div_mul_cancel₀ _ hpos.ne']
    exact_mod_cast (Nat.div_add_mod' m n).symm
  rw [hquotient, accuracyOfFraction]
  split
  · next hzero =>
    rw [hzero, Nat.cast_zero, zero_div, add_zero]
    exact describes_exact _
  · next hne =>
    refine describes_inexact _ (div_pos (Nat.cast_pos.mpr (Nat.pos_of_ne_zero hne)) hpos)
      ((div_lt_one hpos).mpr (Nat.cast_lt.mpr (Nat.mod_lt m hn))) ?_
    rw [← mul_div_assoc]
    cases hcompare : compare (2 * (m % n)) n with
    | lt =>
        rw [div_lt_one hpos]
        exact_mod_cast Nat.compare_eq_lt.mp hcompare
    | eq =>
        rw [div_eq_one_iff_eq hpos.ne']
        exact_mod_cast Nat.compare_eq_eq.mp hcompare
    | gt =>
        rw [one_lt_div hpos]
        exact_mod_cast Nat.compare_eq_gt.mp hcompare

/-- Shifting by a bit halves the number. -/
theorem Describes.shiftRightOne (h : Describes em y) : Describes em.shiftRightOne (y / 2) := by
  obtain ⟨m, r, s⟩ := em
  obtain ⟨hlow, hhigh, hsticky⟩ := h
  have hm : (m : ℚ) = 2 * (m / 2 : Nat) + (m % 2 != 0).toNat := by
    obtain hzero | hone := Nat.mod_two_eq_zero_or_one m
    · rw [hzero]
      exact_mod_cast (show m = 2 * (m / 2) + 0 by omega)
    · rw [hone]
      exact_mod_cast (show m = 2 * (m / 2) + 1 by omega)
  simp only at hlow hhigh hsticky
  refine ⟨?_, ?_, ?_⟩ <;> simp only [ExtendedMantissa.shiftRightOne]
  · have hr : (0 : ℚ) ≤ r.toNat := Nat.cast_nonneg _
    linarith
  · have hr : (r.toNat : ℚ) ≤ 1 := by cases r <;> norm_num
    linarith
  · rw [mul_div_cancel₀ y (by norm_num), ← hm]
    cases r with
    | false =>
        rw [Bool.false_or, hsticky]
        simp
    | true =>
        rw [Bool.true_or]
        refine iff_of_false Bool.noConfusion fun hy => ?_
        rw [hy] at hlow
        norm_num at hlow

theorem Describes.shiftRight (h : Describes em y) (n : Nat) : Describes (em >>> n) (y / 2 ^ n) := by
  induction n with
  | zero =>
      rw [pow_zero, div_one]
      exact h
  | succ n ih =>
      rw [pow_succ, ← div_div]
      exact ih.shiftRightOne

theorem mantissa_shiftRight (em : ExtendedMantissa) (n : Nat) :
    (em >>> n).mantissa = em.mantissa / 2 ^ n := by
  induction n with
  | zero => exact (Nat.div_one _).symm
  | succ n ih =>
      rw [pow_succ, ← Nat.div_div_eq_div_mul, ← ih]
      rfl

/-- The number lies in the unit above the mantissa. -/
theorem Describes.mantissa_le (h : Describes em y) : (em.mantissa : ℚ) ≤ y := by
  have hround : (0 : ℚ) ≤ em.roundBit.toNat := Nat.cast_nonneg _
  have hlow := h.low_le
  linarith

/-! ## Whole numbers -/

/-- The whole number is nearest to the number, and even if another one is as near. -/
structure IsNearest (n : Nat) (y : ℚ) : Prop where
  low_le : 2 * (n : ℚ) - 1 ≤ 2 * y
  le_high : 2 * y ≤ 2 * n + 1
  odd : n % 2 = 1 → 2 * (n : ℚ) - 1 < 2 * y ∧ 2 * y < 2 * n + 1

/-- The residual bits are what rounding needs to know. -/
theorem Describes.isNearest (h : Describes em y) : IsNearest em.roundedMantissa y := by
  obtain ⟨m, r, s⟩ := em
  obtain ⟨hlow, hhigh, hsticky⟩ := h
  cases r with
  | false =>
      have hrounded : ExtendedMantissa.roundedMantissa ⟨m, false, s⟩ = m := by cases s <;> rfl
      rw [hrounded]
      norm_num at hlow hhigh
      exact ⟨by linarith, by linarith, fun _ => ⟨by linarith, by linarith⟩⟩
  | true =>
      norm_num at hlow hhigh hsticky
      cases s with
      | false =>
          have hy := hsticky.mp rfl
          have heven : (m + m % 2) % 2 = 0 := by omega
          have hrounded : ExtendedMantissa.roundedMantissa ⟨m, true, false⟩ = m + m % 2 := rfl
          have hcast : ((m + m % 2 : Nat) : ℚ) = m + (m % 2 : Nat) := Nat.cast_add _ _
          have hle : ((m % 2 : Nat) : ℚ) ≤ 1 := by exact_mod_cast (by omega : m % 2 ≤ 1)
          have hnonneg : (0 : ℚ) ≤ (m % 2 : Nat) := Nat.cast_nonneg _
          rw [hrounded]
          exact ⟨by linarith, by linarith, fun hodd => by omega⟩
      | true =>
          have hrounded : ExtendedMantissa.roundedMantissa ⟨m, true, true⟩ = m + 1 := rfl
          have hlt : 2 * (m : ℚ) + 1 < 2 * y := by
            refine lt_of_le_of_ne hlow fun heq => ?_
            exact Bool.noConfusion (hsticky.mpr heq.symm)
          have hcast : ((m + 1 : Nat) : ℚ) = m + 1 := Nat.cast_succ m
          rw [hrounded]
          exact ⟨by linarith, by linarith, fun _ => ⟨by linarith, by linarith⟩⟩

theorem roundedMantissa_le (em : ExtendedMantissa) : em.roundedMantissa ≤ em.mantissa + 1 := by
  obtain ⟨m, r, s⟩ := em
  have hmod := Nat.mod_lt m (show 0 < 2 by decide)
  cases r <;> cases s <;>
    simp only [ExtendedMantissa.roundedMantissa, ExtendedMantissa.accuracy,
      Accuracy.roundToNearestEven] <;> omega

theorem mantissa_le_roundedMantissa (em : ExtendedMantissa) :
    em.mantissa ≤ em.roundedMantissa := by
  obtain ⟨m, r, s⟩ := em
  cases r <;> cases s <;>
    simp only [ExtendedMantissa.roundedMantissa, ExtendedMantissa.accuracy,
      Accuracy.roundToNearestEven] <;> omega

/-! ## Doubles -/

/- The rounding of the library shifts a mantissa into place, rounds it, and shifts it back if
it has carried over.  `roundWithAccuracy_eq` puts these steps in one equation; the lemmas
after it say how far it shifts (`excess`) and how long the mantissa is then, and
`rounds_carried` is about the shift back. -/

/-- A number whose mantissa is rounded with all bits there rounds to the double. -/
theorem IsNearest.rounds (h : IsNearest m y)
    (hnormal : m = 2 ^ 52 → -1074 < q → 2 ^ 52 ≤ y) : Binary.Rounds (y * 2 ^ q) m q := by
  have hunit := Binary.unit_pos q
  have hbelow : (Binary.below m q : ℚ) = 2 ∨ (Binary.below m q : ℚ) = 1 ∧ (m : ℚ) ≤ y := by
    unfold Binary.below
    split
    · next hm =>
      right
      refine ⟨Nat.cast_one, ?_⟩
      rw [hm.1]
      exact_mod_cast hnormal hm.1 hm.2
    · exact .inl rfl
  have hle : 4 * (m : ℚ) - Binary.below m q ≤ 4 * y := by
    have hlow := h.low_le
    obtain htwo | ⟨hone, hm⟩ := hbelow <;> linarith
  have hlow : Binary.low m q ≤ 4 * (y * 2 ^ q) := by
    rw [Binary.low, ← mul_assoc]
    exact mul_le_mul_of_nonneg_right hle hunit.le
  have hhigh : 4 * (y * 2 ^ q) ≤ Binary.high m q := by
    have hy := h.le_high
    rw [Binary.high, ← mul_assoc]
    exact mul_le_mul_of_nonneg_right (by linarith) hunit.le
  refine ⟨hlow, hhigh, fun hodd => ?_⟩
  obtain ⟨hlt, hlt'⟩ := h.odd hodd
  have htwo : (Binary.below m q : ℚ) = 2 := by
    rw [Binary.below, if_neg]
    · rfl
    · rintro ⟨rfl, _⟩
      exact absurd hodd (by decide)
  rw [Binary.low, Binary.high, htwo, ← mul_assoc]
  exact ⟨mul_lt_mul_of_pos_right (by linarith) hunit, mul_lt_mul_of_pos_right (by linarith) hunit⟩

/-- The exponent that a mantissa is shifted to: its top bit is put in place, unless the
least exponent comes before. -/
theorem targetExponent_eq (m : Nat) (e : Int) :
    Format.binary64.targetExponent (totalExponent m e) = max (m.log2 + e - 52) (-1074) := by
  have hmin : Format.binary64.minExponent = -1074 := rfl
  have hbits : (Format.binary64.mantissaBits : Int) = 53 := rfl
  rw [Format.targetExponent, totalExponent, hmin, hbits]
  congr 1
  omega

/-- The double that a rounded mantissa stands for; a mantissa that has carried over is
shifted back. -/
theorem rounds_carried (h : IsNearest (2 ^ 53) y) (hq : -1074 ≤ q) :
    Binary.Rounds (y * 2 ^ q) (2 ^ 52) (q + 1) := by
  have hunit := Binary.unit_pos q
  have hbelow : (Binary.below (2 ^ 52) (q + 1) : ℚ) = 1 := by
    rw [Binary.below, if_pos ⟨rfl, by omega⟩, Nat.cast_one]
  have hpow : (2 : ℚ) ^ (q + 1) = 2 * 2 ^ q := by rw [zpow_add_one₀ two_ne_zero, mul_comm]
  have hlow := h.low_le
  have hhigh := h.le_high
  push_cast at hlow hhigh
  refine ⟨?_, ?_, fun hodd => absurd hodd (by decide)⟩
  · rw [Binary.low, hbelow, hpow]
    push_cast
    have := mul_le_mul_of_nonneg_right hlow hunit.le
    nlinarith
  · rw [Binary.high, hpow]
    push_cast
    have := mul_le_mul_of_nonneg_right hhigh hunit.le
    nlinarith

/-- A rounded number, unpacked. -/
def unpacked (m : Nat) (q : Int) : UnpackedFloat :=
  if h : m = 0 then .zero .positive else .finite .positive m q (Nat.pos_of_ne_zero h)

/-- How far a mantissa is shifted to put its top bit in place. -/
def excess (m : Nat) (e : Int) : Nat := (max (m.log2 + e - 52) (-1074) - e).toNat

/-- Shifting to the target exponent drops the bits in excess. -/
theorem shiftToTargetExponent_eq (m : Nat) (e : Int) (a : Accuracy) :
    shiftToTargetExponent .binary64 m e a =
      (ExtendedMantissa.ofMantissaAndAccuracy m a >>> excess m e, e + excess m e) := by
  unfold excess
  rw [← targetExponent_eq]
  rfl

/-- Rounding shifts, rounds the mantissa and shifts back what has carried over. -/
theorem roundWithAccuracy_eq {a : Accuracy} {t : Int} {r : Nat}
    (ht : e + excess m e = t)
    (hr : (ExtendedMantissa.ofMantissaAndAccuracy m a >>> excess m e).roundedMantissa = r) :
    roundWithAccuracy .binary64 .positive m e a =
      unpacked (r / 2 ^ excess r t) (t + excess r t) := by
  subst ht hr
  let shifted := shiftToTargetExponent .binary64 m e a
  let final := shiftToTargetExponent .binary64 shifted.1.roundedMantissa shifted.2 .exact
  have hfinal : roundWithAccuracy .binary64 .positive m e a =
      unpacked final.1.mantissa final.2 := rfl
  have hshifted : shifted = _ := shiftToTargetExponent_eq m e a
  rw [hfinal, show final = _ from shiftToTargetExponent_eq _ _ _, mantissa_shiftRight, hshifted]
  rfl

/-- The mantissa has at most 53 bits once it is shifted. -/
theorem div_excess_lt (m : Nat) (e : Int) : m / 2 ^ excess m e < 2 ^ 53 := by
  refine Nat.div_lt_of_lt_mul ?_
  rw [← pow_add]
  refine Nat.lt_of_lt_of_le Nat.lt_log2_self (Nat.pow_le_pow_right (by decide) ?_)
  unfold excess
  omega

/-- It has just as many, unless the least exponent comes before. -/
theorem le_div_excess (hm : -1074 < e + excess m e) (he : e ≤ max (m.log2 + e - 52) (-1074)) :
    2 ^ 52 ≤ m / 2 ^ excess m e := by
  unfold excess at hm ⊢
  have hlog : 52 ≤ m.log2 := by omega
  have hne : m ≠ 0 := by
    rintro rfl
    exact absurd hlog (by decide)
  rw [Nat.le_div_iff_mul_le (by positivity), ← pow_add]
  refine (Nat.pow_le_pow_right (by decide) ?_).trans (Nat.log2_self_le hne)
  omega

/-- A mantissa that fits is not shifted again. -/
theorem excess_eq_zero (hm : m < 2 ^ 53) (hq : -1074 ≤ q) : excess m q = 0 := by
  have hlog : m.log2 ≤ 52 := by
    obtain rfl | hne := eq_or_ne m 0
    · decide
    · exact Nat.le_of_lt_succ ((Nat.log2_lt hne).mpr hm)
  unfold excess
  omega

/-- A mantissa that has carried over is shifted by one bit. -/
theorem excess_carried (hq : -1074 ≤ q) : excess (2 ^ 53) q = 1 := by
  unfold excess
  rw [Nat.log2_two_pow]
  omega

/-- A shifted mantissa, rounded and shifted back if it has carried over, stands for a double
that the number rounds to. -/
theorem exists_rounds_unpacked {t : Int} (hy : Describes em y) (hlt : em.mantissa < 2 ^ 53)
    (ht : -1074 ≤ t) (hge : -1074 < t → 2 ^ 52 ≤ em.mantissa) :
    ∃ n q, n < 2 ^ 53 ∧ -1074 ≤ q ∧ (q = -1074 ∨ 2 ^ 52 ≤ n) ∧ Binary.Rounds (y * 2 ^ t) n q ∧
      unpacked (em.roundedMantissa / 2 ^ excess em.roundedMantissa t)
        (t + excess em.roundedMantissa t) = unpacked n q := by
  have hupper := roundedMantissa_le em
  have hlower := mantissa_le_roundedMantissa em
  have hnearest := hy.isNearest
  generalize em.roundedMantissa = r at hupper hlower hnearest ⊢
  obtain hfits | rfl : r < 2 ^ 53 ∨ r = 2 ^ 53 := by omega
  · refine ⟨r, t, hfits, ht, ?_, hnearest.rounds fun _ hq => ?_, ?_⟩
    · by_cases hq : t = -1074
      · exact .inl hq
      · exact .inr ((hge (by omega)).trans hlower)
    · refine le_trans ?_ hy.mantissa_le
      exact_mod_cast hge hq
    · rw [excess_eq_zero hfits ht, pow_zero, Nat.div_one, Nat.cast_zero, add_zero]
  · refine ⟨2 ^ 52, t + 1, by decide, by omega, .inr le_rfl, rounds_carried hnearest ht, ?_⟩
    rw [excess_carried ht]
    rfl

/-- **Rounding gives the nearest double**, if enough bits are there: the mantissa is as long
as that of a double, or its last bit stands for no more than the least double. -/
theorem exists_roundWithAccuracy {a : Accuracy} (hy : Describes (.ofMantissaAndAccuracy m a) y)
    (he : e ≤ max (m.log2 + e - 52) (-1074)) :
    ∃ n q, n < 2 ^ 53 ∧ -1074 ≤ q ∧ (q = -1074 ∨ 2 ^ 52 ≤ n) ∧
      Binary.Rounds (y * 2 ^ e) n q ∧
      roundWithAccuracy .binary64 .positive m e a = unpacked n q := by
  have hof : (ExtendedMantissa.ofMantissaAndAccuracy m a).mantissa = m := by
    cases a with
    | exact => rfl
    | inexact o => cases o <;> rfl
  have hmantissa := mantissa_shiftRight (.ofMantissaAndAccuracy m a) (excess m e)
  rw [hof] at hmantissa
  have hvalue : y * 2 ^ e = y / 2 ^ excess m e * 2 ^ (e + excess m e) := by
    rw [zpow_add₀ two_ne_zero, zpow_natCast, mul_comm (2 ^ e), ← mul_assoc,
      div_mul_cancel₀ _ (by positivity)]
  have hleast : -1074 ≤ e + excess m e := by
    unfold excess
    omega
  rw [hvalue, roundWithAccuracy_eq rfl rfl]
  refine exists_rounds_unpacked (hy.shiftRight _) ?_ hleast fun hm => ?_
  · exact hmantissa ▸ div_excess_lt m e
  · exact hmantissa ▸ le_div_excess hm he

/-! ## Packing -/

/-- The parts that positive fields encode. -/
theorem ofBits_of_fields {bits : UInt64} {biased fraction : Nat}
    (h : bits.toNat = biased * 2 ^ 52 + fraction) (hbiased : biased < 2 ^ 11)
    (hfraction : fraction < 2 ^ 52) :
    Binary.ofBits bits =
      if biased = 2047 then if fraction = 0 then .infinite false else .nan
      else if biased = 0 then .finite false fraction (-1074)
      else .finite false (fraction + 2 ^ 52) (biased - 1075) := by
  have hnegative : ¬ Nat.pow 2 63 ≤ bits.toNat := by
    rw [Nat.pow_eq]
    omega
  have hlow : bits.toNat % Nat.pow 2 52 = fraction := by
    rw [Nat.pow_eq]
    omega
  have hhigh : bits.toNat / Nat.pow 2 52 % Nat.pow 2 11 = biased := by
    simp only [Nat.pow_eq]
    omega
  unfold Binary.ofBits
  simp only [hlow, hhigh, decide_eq_false hnegative, Nat.pow_eq]

theorem toNat_packComponents (e : BitVec 11) (m : BitVec 52) :
    (packComponents .binary64 .positive e m).toNat = e.toNat * 2 ^ 52 + m.toNat := by
  have hm := m.isLt
  change ((0#1 ++ e ++ m : BitVec _)).toNat = _
  rw [BitVec.toNat_append, BitVec.toNat_append, BitVec.toNat_ofNat, Nat.zero_mod,
    Nat.zero_shiftLeft, Nat.zero_or, ← Nat.shiftLeft_add_eq_or_of_lt hm, Nat.shiftLeft_eq]

/-- The parts of packed fields. -/
theorem ofFloat_packComponents {u : UnpackedFloat} {e : BitVec 11} {m : BitVec 52}
    (h : UnpackedFloat.pack .binary64 u = packComponents .binary64 .positive e m) :
    Binary.ofFloat (.ofModel (.pack u)) =
      if e.toNat = 2047 then if m.toNat = 0 then .infinite false else .nan
      else if e.toNat = 0 then .finite false m.toNat (-1074)
      else .finite false (m.toNat + 2 ^ 52) (e.toNat - 1075) := by
  refine ofBits_of_fields ?_ e.isLt m.isLt
  change (UnpackedFloat.pack .binary64 u).toNat = _
  rw [h, toNat_packComponents]

/-- A double has 53 bits in its mantissa just if its top bit is set. -/
theorem log2_add_one_eq (hm : m < 2 ^ 53) : m.log2 + 1 = 53 ↔ 2 ^ 52 ≤ m := by
  obtain rfl | hne := eq_or_ne m 0
  · decide
  have hlt := (Nat.log2_lt hne).mpr hm
  rw [← Nat.le_log2 hne]
  omega

/-- The parts of a double are those that were packed; an exponent beyond the greatest one
makes it infinite. -/
theorem ofFloat_pack (hm : m < 2 ^ 53) (hq : -1074 ≤ q) (hnormal : q = -1074 ∨ 2 ^ 52 ≤ m) :
    Binary.ofFloat (.ofModel (.pack (unpacked m q))) =
      if q ≤ 971 then .finite false m q else .infinite false := by
  obtain rfl | hne := eq_or_ne m 0
  · obtain rfl : q = -1074 := hnormal.resolve_right (by decide)
    have hzero : UnpackedFloat.pack .binary64 (unpacked 0 (-1074)) =
        packComponents .binary64 .positive 0 0 := rfl
    exact ofFloat_packComponents hzero
  have hbiased : (q + Format.binary64.exponentBias + (52 : Nat)).toNat = (q + 1075).toNat :=
    congrArg Int.toNat (by rw [show Format.binary64.exponentBias = 1023 from rfl]; omega)
  have hpack : UnpackedFloat.pack .binary64 (unpacked m q) =
      if 2 ^ 11 ≤ (q + 1075).toNat + 1 then packComponents .binary64 .positive (-1#_) 0
      else if m.log2 + 1 = 53 then
        packComponents .binary64 .positive (BitVec.ofNat _ (q + 1075).toNat) (BitVec.ofNat _ m)
      else packComponents .binary64 .positive 0#_ (BitVec.ofNat _ m) := by
    rw [unpacked, dif_neg hne, ← hbiased]
    rfl
  split at hpack
  · rw [ofFloat_packComponents hpack, if_neg (show ¬ q ≤ 971 by omega)]
    rfl
  rw [if_pos (show q ≤ 971 by omega)]
  split at hpack
  · next hlt hlog =>
    have hge := (log2_add_one_eq hm).mp hlog
    have hexponent : (BitVec.ofNat 11 (q + 1075).toNat).toNat = (q + 1075).toNat := by
      rw [BitVec.toNat_ofNat, Nat.mod_eq_of_lt (by omega)]
    have hfraction : (BitVec.ofNat 52 m).toNat = m - 2 ^ 52 := by
      rw [BitVec.toNat_ofNat]
      omega
    have hq' : ((q + 1075).toNat : Int) - 1075 = q := by omega
    rw [ofFloat_packComponents hpack, hexponent, hfraction, if_neg (by omega), if_neg (by omega),
      Nat.sub_add_cancel hge, hq']
  · next hlt hlog =>
    have hlt' := mt (log2_add_one_eq hm).mpr hlog
    obtain rfl : q = -1074 := hnormal.resolve_right hlt'
    have hfraction : (BitVec.ofNat 52 m).toNat = m := by
      rw [BitVec.toNat_ofNat, Nat.mod_eq_of_lt (by omega)]
    rw [ofFloat_packComponents hpack, hfraction]
    rfl

/-! ## The nearest double -/

/-- The end of the doubles: half a unit above the greatest one. -/
def limit : ℚ := (2 ^ 54 - 1) * 2 ^ (970 : Int)

/-- The number is read as the double: it rounds to it, or it lies beyond all doubles and
the double is infinite. -/
def IsRounding (w : ℚ) (x : Float) : Prop :=
  (∃ m q, Binary.ofFloat x = .finite false m q ∧ Binary.Rounds w m q) ∨
    Binary.ofFloat x = .infinite false ∧ limit ≤ w

/-- What rounds to a mantissa with an exponent beyond the greatest one lies beyond all
doubles. -/
theorem limit_le_of_rounds (h : Binary.Rounds w m q) (hm : 2 ^ 52 ≤ m) (hq : 971 < q) :
    limit ≤ w := by
  have hmantissa := Binary.le_mantissa_sub_below hm (show -1074 < q by omega)
  have hunit : (2 : ℚ) ^ (970 : Int) * 2 ^ (2 : Int) ≤ 2 ^ q := by
    rw [← zpow_add₀ two_ne_zero]
    exact zpow_le_zpow_right₀ one_le_two (by omega)
  have hlow : (2 ^ 54 - 1) * ((2 : ℚ) ^ (970 : Int) * 2 ^ (2 : Int)) ≤ 4 * w :=
    (mul_le_mul hmantissa hunit (by positivity) (by linarith)).trans h.low_le
  have hfour : (2 : ℚ) ^ (2 : Int) = 4 := by norm_num
  rw [hfour] at hlow
  rw [limit]
  linarith

/-- What rounds to a double lies before the end of the doubles. -/
theorem lt_limit_of_rounds (h : Binary.Rounds w m q) (hm : Binary.Canonical m q) : w < limit := by
  have hmantissa : (0 : ℚ) ≤ 4 * m + 2 := by positivity
  have hunit : (2 : ℚ) ^ q ≤ 2 ^ (970 : Int) * 2 := by
    rw [← zpow_add_one₀ two_ne_zero]
    exact zpow_le_zpow_right₀ one_le_two (by have := hm.le_greatest; omega)
  have hpos : (0 : ℚ) < 2 ^ (970 : Int) * 2 := mul_pos (Binary.unit_pos 970) two_pos
  have hhigh : Binary.high m q ≤ (4 * m + 2) * (2 ^ (970 : Int) * 2) :=
    mul_le_mul_of_nonneg_left hunit hmantissa
  have hlt := hm.mantissa_lt
  have hlimit : 4 * limit = 2 * (2 ^ 54 - 1) * (2 ^ (970 : Int) * 2) := by
    rw [limit]
    generalize (2 : ℚ) ^ (970 : Int) = u
    ring
  refine lt_of_mul_lt_mul_left (a := 4) ?_ (by norm_num)
  rw [hlimit]
  -- the greatest mantissa is odd, so its interval ends before its end
  obtain heven | hodd := Nat.mod_two_eq_zero_or_one m
  · have hle : (m : ℚ) + 2 ≤ 2 ^ 53 := by exact_mod_cast (show m + 2 ≤ 2 ^ 53 by omega)
    refine (h.le_high.trans hhigh).trans_lt ?_
    exact mul_lt_mul_of_pos_right (by linarith) hpos
  · have hle : (m : ℚ) + 1 ≤ 2 ^ 53 := by exact_mod_cast hlt
    refine ((h.odd hodd).2.trans_le hhigh).trans_le ?_
    exact mul_le_mul_of_nonneg_right (by linarith) hpos.le

/-- A number that lies before the end of the doubles is read as the one that it rounds to. -/
theorem IsRounding.rounds {x : Float} (h : IsRounding w x) (hw : w < limit) :
    ∃ m q, Binary.ofFloat x = .finite false m q ∧ Binary.Rounds w m q :=
  h.resolve_right fun ⟨_, hlimit⟩ => absurd hw hlimit.not_gt

/-- A number that rounds to a double is read as that. -/
theorem IsRounding.ofFloat_eq {x : Float} (h : IsRounding w x) (hw : Binary.Rounds w m q)
    (hm : Binary.Canonical m q) : Binary.ofFloat x = .finite false m q := by
  obtain ⟨m', q', hx, hw'⟩ := h.rounds (lt_limit_of_rounds hw hm)
  obtain ⟨rfl, rfl⟩ := hw'.unique hw (Binary.canonical_of_ofFloat hx) hm
  exact hx

/-- A number that is rounded and packed is read as the double. -/
theorem isRounding_roundWithAccuracy {a : Accuracy}
    (hy : Describes (.ofMantissaAndAccuracy m a) y) (he : e ≤ max (m.log2 + e - 52) (-1074)) :
    IsRounding (y * 2 ^ e) (.ofModel (.pack (roundWithAccuracy .binary64 .positive m e a))) := by
  obtain ⟨n, q, hn, hq, hnormal, hrounds, heq⟩ := exists_roundWithAccuracy hy he
  have hparts := ofFloat_pack hn hq hnormal
  rw [heq]
  split at hparts
  · exact .inl ⟨n, q, hparts, hrounds⟩
  · next hgreatest =>
    have hlarge : 971 < q := Int.not_le.mp hgreatest
    exact .inr ⟨hparts, limit_le_of_rounds hrounds (hnormal.resolve_left (by omega)) hlarge⟩

end Number

end Abacus
