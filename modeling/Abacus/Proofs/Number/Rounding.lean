import Abacus.Number.Decimal
import Mathlib.Algebra.Order.Field.Power
import Mathlib.Algebra.Order.Field.Rat
import Mathlib.Tactic.Linarith
import Mathlib.Tactic.NormNum

/-!
# Abacus.Proofs.Number.Rounding

The numbers that round to a double.  Around every double `m * 2 ^ q` lies an interval:
up to half of the unit `2 ^ q` on both sides, except that the doubles below a power of two
lie half as far apart.  The ends of an interval belong to it if the mantissa is even.  The
intervals of two doubles meet at an end at most, where one of the two mantissas is odd; so
no number rounds to two doubles (`Rounds.unique`).
-/

namespace Abacus

namespace Binary

/-! ## Encoded doubles -/

/-- A mantissa and an exponent as the bits of a double encode them: the mantissa has its
top bit, unless the exponent is the least one. -/
structure Canonical (m : Nat) (q : Int) : Prop where
  mantissa_lt : m < 2 ^ 53
  least_le : -1074 ≤ q
  le_greatest : q ≤ 971
  normal : q = -1074 ∨ 2 ^ 52 ≤ m

/-! ## Intervals -/

/-- How far the numbers that round to a double reach below it, in quarters of its unit. -/
def below (m : Nat) (q : Int) : Nat := if m = Nat.pow 2 52 ∧ -1074 < q then 1 else 2

/-- Four times the lower end of the interval around a double. -/
def low (m : Nat) (q : Int) : ℚ := (4 * m - below m q) * 2 ^ q

/-- Four times the upper end of the interval around a double. -/
def high (m : Nat) (q : Int) : ℚ := (4 * m + 2) * 2 ^ q

/-- The number rounds to the double. -/
structure Rounds (w : ℚ) (m : Nat) (q : Int) : Prop where
  low_le : low m q ≤ 4 * w
  le_high : 4 * w ≤ high m q
  odd : m % 2 = 1 → low m q < 4 * w ∧ 4 * w < high m q

variable {m m' : Nat} {q q' : Int} {w : ℚ}

theorem below_le (m : Nat) (q : Int) : below m q ≤ 2 := by
  unfold below
  split <;> decide

theorem unit_pos (q : Int) : (0 : ℚ) < 2 ^ q := zpow_pos (by norm_num) q

/-- Every double rounds to itself. -/
theorem rounds_self (m : Nat) (q : Int) : Rounds (m * 2 ^ q) m q := by
  have hbelow : (0 : ℚ) < below m q := by
    unfold below
    split <;> norm_num
  have hlow : low m q < 4 * (m * 2 ^ q) := by
    rw [low, ← mul_assoc]
    exact mul_lt_mul_of_pos_right (by linarith) (unit_pos q)
  have hhigh : 4 * (m * 2 ^ q) < high m q := by
    rw [high, ← mul_assoc]
    exact mul_lt_mul_of_pos_right (by linarith) (unit_pos q)
  exact ⟨hlow.le, hhigh.le, fun _ => ⟨hlow, hhigh⟩⟩

/-! ## Intervals do not overlap -/

/-- The order of doubles. -/
def Precedes (m : Nat) (q : Int) (m' : Nat) (q' : Int) : Prop := q < q' ∨ q = q' ∧ m < m'

/-- Two doubles with the same exponent: their intervals meet if they are neighbours. -/
theorem high_le_low_of_lt (q : Int) (h : m < m') :
    high m q < low m' q ∨ high m q = low m' q ∧ (m % 2 = 1 ∨ m' % 2 = 1) := by
  have hle : (m : ℚ) + 1 ≤ m' := by exact_mod_cast h
  have hbelow : (below m' q : ℚ) ≤ 2 := by exact_mod_cast below_le m' q
  obtain hlt | heq := (show (4 * m + 2 : ℚ) ≤ 4 * m' - below m' q by linarith).lt_or_eq
  · exact .inl (mul_lt_mul_of_pos_right hlt (unit_pos q))
  · refine .inr ⟨congrArg (· * (2 : ℚ) ^ q) heq, ?_⟩
    have hnext : m' = m + 1 := by
      have hle' : (m' : ℚ) ≤ m + 1 := by linarith
      have := Nat.cast_le.mp (hle'.trans_eq (Nat.cast_succ m).symm)
      omega
    omega

/-- Where the interval of a mantissa with its top bit begins, in quarters of its unit. -/
theorem le_mantissa_sub_below (hm : 2 ^ 52 ≤ m) (hq : -1074 < q) :
    (2 ^ 54 - 1 : ℚ) ≤ 4 * m - below m q := by
  obtain rfl | hlt := hm.eq_or_lt
  · have hbelow : below (2 ^ 52) q = 1 := if_pos ⟨rfl, hq⟩
    rw [hbelow]
    norm_num
  · have hge : (2 ^ 52 + 1 : ℚ) ≤ m := by exact_mod_cast hlt
    have hbelow : (below m q : ℚ) ≤ 2 := by exact_mod_cast below_le m q
    linarith

/-- A double of a larger exponent is normal, and its interval begins where those of the
smaller exponents have ended: the last of them ends at the first one's lower end. -/
theorem high_le_low_of_unit_lt (hm : m < 2 ^ 53) (hm' : 2 ^ 52 ≤ m') (hleast : -1074 ≤ q)
    (h : q < q') : high m q < low m' q' ∨ high m q = low m' q' ∧ m % 2 = 1 := by
  have hunit : 2 * (2 : ℚ) ^ q ≤ 2 ^ q' := by
    rw [← zpow_one_add₀ (by norm_num : (2 : ℚ) ≠ 0)]
    exact zpow_le_zpow_right₀ (by norm_num) (by omega)
  have hpos := unit_pos q
  have hle : (m : ℚ) ≤ 2 ^ 53 - 1 := by
    rw [le_sub_iff_add_le]
    exact_mod_cast hm
  have hlow := le_mantissa_sub_below hm' (hleast.trans_lt h)
  have hhigh : high m q ≤ (2 ^ 54 - 1) * (2 * 2 ^ q) := by
    have hmul := mul_le_mul_of_nonneg_right (show (4 * m + 2 : ℚ) ≤ 2 * (2 ^ 54 - 1) by linarith)
      hpos.le
    rw [high]
    linarith
  have hlow' : (2 ^ 54 - 1) * (2 : ℚ) ^ q' ≤ low m' q' :=
    mul_le_mul_of_nonneg_right hlow (unit_pos q').le
  have hmiddle : (2 ^ 54 - 1) * (2 * (2 : ℚ) ^ q) ≤ (2 ^ 54 - 1) * 2 ^ q' :=
    mul_le_mul_of_nonneg_left hunit (by norm_num)
  obtain rfl | hne := eq_or_ne m (2 ^ 53 - 1)
  · obtain hlt | heq := (hhigh.trans (hmiddle.trans hlow')).lt_or_eq
    · exact .inl hlt
    · exact .inr ⟨heq, by norm_num⟩
  · refine .inl (lt_of_lt_of_le ?_ (hmiddle.trans hlow'))
    have hlt : (m : ℚ) + 1 ≤ 2 ^ 53 - 1 := by
      rw [le_sub_iff_add_le]
      exact_mod_cast (show m + 1 + 1 ≤ 2 ^ 53 by omega)
    have hmul := mul_lt_mul_of_pos_right (show (4 * m + 2 : ℚ) < 2 * (2 ^ 54 - 1) by linarith) hpos
    rw [high]
    linarith

/-- The interval of a double ends before that of a larger one begins, or there; then only
one of the two holds its end. -/
theorem high_le_low (hm : Canonical m q) (hm' : Canonical m' q') (h : Precedes m q m' q') :
    high m q < low m' q' ∨ high m q = low m' q' ∧ (m % 2 = 1 ∨ m' % 2 = 1) := by
  obtain h | ⟨rfl, h⟩ := h
  · have hnormal : 2 ^ 52 ≤ m' := by
      obtain hleast | hnormal := hm'.normal
      · have := hm.least_le
        omega
      · exact hnormal
    exact (high_le_low_of_unit_lt hm.mantissa_lt hnormal hm.least_le h).imp_right
      fun ⟨heq, hodd⟩ => ⟨heq, .inl hodd⟩
  · exact high_le_low_of_lt q h

/-- No number rounds to two doubles, one before the other. -/
theorem Rounds.not_precedes (h : Rounds w m q) (h' : Rounds w m' q') (hm : Canonical m q)
    (hm' : Canonical m' q') : ¬ Precedes m q m' q' := by
  intro hlt
  obtain hlt | ⟨heq, hodd | hodd⟩ := high_le_low hm hm' hlt
  · exact absurd (h.le_high.trans_lt (hlt.trans_le h'.low_le)) (lt_irrefl _)
  · exact absurd ((h.odd hodd).2.trans_le (heq.le.trans h'.low_le)) (lt_irrefl _)
  · exact absurd (h.le_high.trans_lt (heq.trans_lt (h'.odd hodd).1)) (lt_irrefl _)

/-- **A number rounds to one double.** -/
theorem Rounds.unique (h : Rounds w m q) (h' : Rounds w m' q') (hm : Canonical m q)
    (hm' : Canonical m' q') : m = m' ∧ q = q' := by
  have hlt := h.not_precedes h' hm hm'
  have hgt := h'.not_precedes h hm' hm
  unfold Precedes at hlt hgt
  omega

end Binary

end Abacus
