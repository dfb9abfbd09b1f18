import Abacus.Proofs.Number.Positional
import Abacus.Proofs.Number.Rounding
import Mathlib.Tactic.Ring

/-!
# Abacus.Proofs.Number.Shortest

The shortest decimal of a double rounds to the double.  A grid point is a hit if its
number rounds to the double (`Grid.rounds_of_hit`), so whatever the search for the
shortest decimal finds does so.  It does find one: with seventeen digits the grid is finer
than the doubles, and one of the two neighbours of a double is a hit
(`Grid.isSome_nearest?`).
-/

namespace Abacus

namespace Decimal

open Binary

variable {m : Nat} {q k : Int}

/-- A power with its denominator cleared. -/
theorem zpow_mul_pow_toNat_neg {b : ℚ} (hb : b ≠ 0) (q : Int) :
    b ^ q * b ^ (-q).toNat = b ^ q.toNat := by
  rw [← zpow_natCast, ← zpow_natCast, ← zpow_add₀ hb]
  congr 1
  omega

/-! ## The leading digit -/

/-- A ratio of natural numbers for a binary number. -/
theorem Ratio.num_eq (m : Nat) (q : Int) :
    ((Ratio.ofBinary m q).num : ℚ) = m * 2 ^ q * (Ratio.ofBinary m q).den := by
  unfold Ratio.ofBinary
  split
  · next hq =>
    have hpow : (2 : ℚ) ^ q = 2 ^ q.toNat := by
      rw [← zpow_natCast, Int.toNat_of_nonneg hq]
    simp [hpow]
  · next hq =>
    have hpow : (2 : ℚ) ^ q * 2 ^ (-q).toNat = 1 := by
      rw [zpow_mul_pow_toNat_neg two_ne_zero, Int.toNat_of_nonpos (by omega), pow_zero]
    simp [mul_assoc, hpow]

theorem Ratio.den_pos (m : Nat) (q : Int) : (0 : ℚ) < (Ratio.ofBinary m q).den := by
  unfold Ratio.ofBinary
  split <;> simp

/-- A power of ten that is tested to be at most the double is so. -/
theorem Ratio.pow_le_of_hasPower (h : (Ratio.ofBinary m q).hasPower k = true) :
    (10 : ℚ) ^ k ≤ m * 2 ^ q := by
  have hpos := Ratio.den_pos m q
  have hclear : (10 : ℚ) ^ k * (Ratio.ofBinary m q).den ≤ (Ratio.ofBinary m q).num := by
    have hten : (0 : ℚ) < 10 ^ (-k).toNat := by positivity
    refine le_of_mul_le_mul_right ?_ hten
    rw [mul_right_comm, zpow_mul_pow_toNat_neg (by norm_num)]
    unfold Ratio.hasPower at h
    split at h
    · next hk =>
      rw [Int.toNat_of_nonpos (by omega : -k ≤ 0), pow_zero, mul_one, mul_comm]
      exact_mod_cast of_decide_eq_true h
    · next hk =>
      rw [Int.toNat_of_nonpos (by omega : k ≤ 0), pow_zero, one_mul]
      exact_mod_cast of_decide_eq_true h
  rw [Ratio.num_eq] at hclear
  exact le_of_mul_le_mul_right hclear hpos

/-- The estimate from the bit length is at most one too large: `2 ^ 196` is a little more
than `10 ^ 59`, and `2 ^ 93` a little less than `10 ^ 28`. -/
theorem pow_estimate_le {n : Int} (hn : -20000 ≤ n) (hn' : n ≤ 100000) :
    (10 : ℚ) ^ (n * 30103 / 100000 - 1) ≤ 2 ^ n := by
  set e := n * 30103 / 100000 - 1 with he
  have hten : (0 : ℚ) ≤ 10 ^ e := by positivity
  have htwo : (0 : ℚ) ≤ 2 ^ n := by positivity
  obtain hnonneg | hneg := le_or_gt 0 n
  · refine (pow_le_pow_iff_left₀ hten htwo (n := 196) (by norm_num)).mp ?_
    calc ((10 : ℚ) ^ e) ^ 196 = 10 ^ (e * 196) := by rw [zpow_mul]; rfl
      _ ≤ 10 ^ (59 * n) := zpow_le_zpow_right₀ (by norm_num) (by omega)
      _ = (10 ^ 59) ^ n := by rw [zpow_mul]; rfl
      _ ≤ (2 ^ 196) ^ n := zpow_le_zpow_left₀ hnonneg (by norm_num) (by norm_num)
      _ = (2 ^ n) ^ 196 := by rw [← zpow_natCast, ← zpow_natCast, zpow_comm]
  · have hinv : ((10 : ℚ) ^ 28) ^ n ≤ (2 ^ 93) ^ n := by
      have hle := zpow_le_zpow_left₀ (neg_nonneg.mpr hneg.le) (by norm_num)
        (show (2 : ℚ) ^ 93 ≤ 10 ^ 28 by norm_num)
      have hanti := inv_anti₀ (by positivity) hle
      rwa [zpow_neg, zpow_neg, inv_inv, inv_inv] at hanti
    refine (pow_le_pow_iff_left₀ hten htwo (n := 93) (by norm_num)).mp ?_
    calc ((10 : ℚ) ^ e) ^ 93 = 10 ^ (e * 93) := by rw [zpow_mul]; rfl
      _ ≤ 10 ^ (28 * n) := zpow_le_zpow_right₀ (by norm_num) (by omega)
      _ = (10 ^ 28) ^ n := by rw [zpow_mul]; rfl
      _ ≤ (2 ^ 93) ^ n := hinv
      _ = (2 ^ n) ^ 93 := by rw [← zpow_natCast, ← zpow_natCast, zpow_comm]

/-- The leading digit of a double stands for no more than the double. -/
theorem pow_leadingExponent_le (hm : 0 < m) (h : Canonical m q) :
    (10 : ℚ) ^ leadingExponent m q ≤ m * 2 ^ q := by
  unfold leadingExponent
  simp only
  split
  · next hpower => exact Ratio.pow_le_of_hasPower hpower
  split
  · next hpower => exact Ratio.pow_le_of_hasPower hpower
  have hlog : m.log2 < 53 := (Nat.log2_lt hm.ne').mpr h.mantissa_lt
  have hleast := h.least_le
  have hgreatest := h.le_greatest
  refine (pow_estimate_le (n := m.log2 + q) (by omega) (by omega)).trans ?_
  rw [zpow_add₀ two_ne_zero, zpow_natCast]
  refine mul_le_mul_of_nonneg_right ?_ (unit_pos q).le
  exact_mod_cast Nat.log2_self_le hm.ne'

/-! ## Grid points -/

namespace Grid

/-- What the grid and the double are scaled by to be whole numbers. -/
def scale (q k : Int) : ℚ := 2 ^ (-q).toNat * 10 ^ (-k).toNat

/-- The scale is positive, so comparisons carry over. -/
theorem scale_pos (q k : Int) : 0 < scale q k := by
  unfold scale
  positivity

/-- The unit in the last binary place, on the scale of the grid. -/
theorem unit_eq (m : Nat) (q k : Int) : ((Grid.around m q k).unit : ℚ) = 2 ^ q * scale q k := by
  rw [scale, ← mul_assoc, zpow_mul_pow_toNat_neg two_ne_zero]
  simp [Grid.around]

/-- The distance of decimals, on the scale of the grid. -/
theorem grid_eq (m : Nat) (q k : Int) : ((Grid.around m q k).grid : ℚ) = 10 ^ k * scale q k := by
  rw [scale, mul_left_comm, zpow_mul_pow_toNat_neg (by norm_num)]
  simp [Grid.around]

/-- The lower end of what rounds to the number, on the scale of the grid. -/
theorem low_eq (hm : 0 < m) : ((Grid.around m q k).low : ℚ) = Binary.low m q * scale q k := by
  have hbelow := below_le m q
  have hlow : (Grid.around m q k).low = (4 * m - below m q) * (Grid.around m q k).unit := rfl
  rw [hlow, Nat.cast_mul, Nat.cast_sub (by omega), unit_eq, Binary.low]
  push_cast
  ring

/-- The upper end of what rounds to the number, on the scale of the grid. -/
theorem high_eq (m : Nat) (q k : Int) :
    ((Grid.around m q k).high : ℚ) = Binary.high m q * scale q k := by
  have hhigh : (Grid.around m q k).high = (4 * m + 2) * (Grid.around m q k).unit := rfl
  rw [hhigh, Nat.cast_mul, unit_eq, Binary.high]
  push_cast
  ring

/-- The decimals themselves, on the scale of the grid. -/
theorem point_eq (m : Nat) (q k : Int) (c : Nat) :
    ((4 * c * (Grid.around m q k).grid : Nat) : ℚ) = 4 * (c * 10 ^ k) * scale q k := by
  rw [Nat.cast_mul, grid_eq]
  push_cast
  ring

/-- A hit rounds to the double. -/
theorem rounds_of_hit (hm : 0 < m) {c : Nat} (h : (Grid.around m q k).hit c = true) :
    Rounds (c * 10 ^ k) m q := by
  have hscale := scale_pos q k
  have hle {a b : Nat} {v w : ℚ} (hab : a ≤ b) (ha : (a : ℚ) = v * scale q k)
      (hb : (b : ℚ) = w * scale q k) : v ≤ w := by
    rw [← Nat.cast_le (α := ℚ), ha, hb] at hab
    exact le_of_mul_le_mul_right hab hscale
  have hlt {a b : Nat} {v w : ℚ} (hab : a < b) (ha : (a : ℚ) = v * scale q k)
      (hb : (b : ℚ) = w * scale q k) : v < w := by
    rw [← Nat.cast_lt (α := ℚ), ha, hb] at hab
    exact lt_of_mul_lt_mul_right hab hscale.le
  unfold hit at h
  split at h
  · next heven =>
    simp only [Bool.and_eq_true, decide_eq_true_eq] at h
    refine ⟨hle h.1 (low_eq hm) (point_eq m q k c), hle h.2 (point_eq m q k c) (high_eq m q k),
      fun hodd => ?_⟩
    have : m % 2 = 0 := heven
    omega
  · simp only [Bool.and_eq_true, decide_eq_true_eq] at h
    have hlow := hlt h.1 (low_eq hm) (point_eq m q k c)
    have hhigh := hlt h.2 (point_eq m q k c) (high_eq m q k)
    exact ⟨hlow.le, hhigh.le, fun _ => ⟨hlow, hhigh⟩⟩

/-- The neighbour that is taken is a hit. -/
theorem hit_of_nearest? {g : Grid} {tie : Tie} {c : Nat} (h : g.nearest? tie = some c) :
    g.hit c = true := by
  unfold nearest? at h
  cases hfloor : g.hit g.floor <;> cases hnext : g.hit (g.floor + 1) <;>
    simp only [hfloor, hnext] at h
  · contradiction
  · cases h
    exact hnext
  · cases h
    exact hfloor
  · cases h
    split
    · exact hnext
    · exact hfloor

/-- A decimal is found if one of the two around the number is hit. -/
theorem isSome_nearest?_of_hit {g : Grid} (tie : Tie)
    (h : g.hit g.floor = true ∨ g.hit (g.floor + 1) = true) : (g.nearest? tie).isSome := by
  unfold nearest?
  cases hfloor : g.hit g.floor <;> cases hnext : g.hit (g.floor + 1) <;> simp [hfloor, hnext] at h ⊢

/-- What lies strictly between the ends is a hit. -/
theorem hit_of_lt {g : Grid} {c : Nat} (hlow : g.low < 4 * (c * g.grid))
    (hhigh : 4 * (c * g.grid) < g.high) : g.hit c = true := by
  rw [← Nat.mul_assoc] at hlow hhigh
  unfold hit
  split <;> simp [hlow, hhigh, hlow.le, hhigh.le]

/-- On a grid that is finer than the doubles, one of the neighbours of a double is a hit. -/
theorem isSome_nearest? (tie : Tie) (hm : 0 < m) (hgrid : 0 < (Grid.around m q k).grid)
    (hfine : (Grid.around m q k).grid < (Grid.around m q k).unit)
    (hhalf : below m q = 1 → 2 * (Grid.around m q k).grid < (Grid.around m q k).unit) :
    ((Grid.around m q k).nearest? tie).isSome := by
  refine isSome_nearest?_of_hit tie ?_
  set g := Grid.around m q k with hg
  have hlow : g.low = 4 * (m * g.unit) - below m q * g.unit := by
    rw [← Nat.mul_assoc, ← Nat.sub_mul]
    rfl
  have hhigh : g.high = 4 * (m * g.unit) + 2 * g.unit := by
    rw [← Nat.mul_assoc, ← Nat.add_mul]
    rfl
  have hunit : g.unit ≤ m * g.unit := Nat.le_mul_of_pos_left _ hm
  have hfloor : g.floor * g.grid ≤ m * g.unit := Nat.div_mul_le_self _ _
  have hnext : m * g.unit < (g.floor + 1) * g.grid := by
    rw [Nat.mul_comm (g.floor + 1)]
    exact Nat.lt_mul_div_succ _ hgrid
  have hstep : (g.floor + 1) * g.grid = g.floor * g.grid + g.grid := Nat.succ_mul _ _
  have hfirst := @hit_of_lt g g.floor
  have hsecond := @hit_of_lt g (g.floor + 1)
  rw [hstep] at hnext hsecond
  generalize m * g.unit = x at hlow hhigh hunit hfloor hnext
  generalize g.floor * g.grid = y at hfloor hnext hfirst hsecond
  obtain hone | htwo : below m q = 1 ∨ below m q = 2 := by
    unfold below
    split <;> simp
  · -- the half unit above the double is wider than a step
    have hhalf := hhalf hone
    rw [hone] at hlow
    exact .inr (hsecond (by omega) (by omega))
  · -- the nearer neighbour is at most half a step away
    rw [htwo] at hlow
    by_cases hnear : 2 * (x - y) ≤ g.grid
    · exact .inl (hfirst (by omega) (by omega))
    · exact .inr (hsecond (by omega) (by omega))

end Grid

/-! ## The search -/

/-- A trailing zero moved to the exponent keeps the value. -/
theorem value_dropZero (d : Decimal) : d.dropZero.value = d.value := by
  unfold dropZero
  split
  · next h =>
    rw [value, value, h, zpow_add₀ (by norm_num : (10 : ℚ) ≠ 0)]
    push_cast
    ring
  · rfl

/-- With seventeen digits there is a hit. -/
theorem isSome_nearest?_seventeen (tie : Tie) (hm : 0 < m) (h : Canonical m q) :
    ((Grid.around m q (leadingExponent m q - 16)).nearest? tie).isSome := by
  set k := leadingExponent m q - 16 with hk
  have hscale := Grid.scale_pos q k
  have hgrid : 0 < (Grid.around m q k).grid := by
    rw [← Nat.cast_pos (α := ℚ), Grid.grid_eq]
    positivity
  have hleading : (Grid.around m q k).grid * 10 ^ 16 ≤ m * (Grid.around m q k).unit := by
    rw [← Nat.cast_le (α := ℚ), Nat.cast_mul, Nat.cast_mul, Grid.grid_eq, Grid.unit_eq]
    have hpow : (10 : ℚ) ^ k * 10 ^ 16 ≤ m * 2 ^ q := by
      rw [← zpow_natCast (10 : ℚ) 16, ← zpow_add₀ (by norm_num)]
      simpa [hk] using pow_leadingExponent_le hm h
    have hmul := mul_le_mul_of_nonneg_right hpow hscale.le
    push_cast
    linarith
  have hlt := h.mantissa_lt
  set G := (Grid.around m q k).grid
  set U := (Grid.around m q k).unit
  have hU : m * U ≤ (2 ^ 53 - 1) * U := Nat.mul_le_mul_right U (by omega)
  refine Grid.isSome_nearest? tie hm hgrid (by omega) fun hbelow => ?_
  have htop : m = 2 ^ 52 := by
    unfold below at hbelow
    split at hbelow
    · next hcond => exact hcond.1
    · contradiction
  rw [htop] at hleading
  omega

/-- **The shortest decimal of a double rounds to the double.** -/
theorem rounds_shortest (tie : Tie) (hm : 0 < m) (h : Canonical m q) :
    Rounds (shortest tie m q).value m q := by
  unfold shortest
  simp only
  generalize hfound : List.findSome? _ (List.range 17) = found
  cases found with
  | none =>
      -- the last grid that is searched has a hit
      have hlast := List.findSome?_eq_none_iff.mp hfound 16 (by simp)
      obtain ⟨c, hc⟩ := Option.isSome_iff_exists.mp (isSome_nearest?_seventeen tie hm h)
      simp [hc] at hlast
  | some d =>
      obtain ⟨n, _, hn⟩ := List.exists_of_findSome?_eq_some hfound
      obtain ⟨c, hc, rfl⟩ := Option.map_eq_some_iff.mp hn
      rw [Option.getD_some, value_dropZero]
      exact Grid.rounds_of_hit hm (Grid.hit_of_nearest? hc)

end Decimal

end Abacus
