import Abacus.Proofs.Number.Nearest
import Mathlib.Data.Nat.Cast.Field
import Mathlib.Tactic.FieldSimp

/-!
# Abacus.Proofs.Number.Reading

Reading a decimal.  A short one is the product or the quotient of two doubles that are
exact, its coefficient and a power of ten; a longer one is a product or a quotient of whole
numbers.  Both are rounded once, and a decimal that is too long for either lies beyond all
doubles or next to zero.  So every decimal is read as the double that it rounds to
(`isRounding_ofDecimal`).
-/

namespace Abacus

namespace Number

open Float.Model Float.Model.UnpackedFloat
open Binary (ofFloat Canonical Rounds)

variable {x y : Float} {c m n m₁ m₂ : Nat} {e q e₁ e₂ : Int} {w : ℚ}

/-! ## Products and quotients -/

/-- A product with enough bits is rounded to the nearest double. -/
theorem isRounding_pack_mul (h₁ : 0 < m₁) (h₂ : 0 < m₂) (hbits : 2 ^ 52 ≤ m₁ * m₂) :
    IsRounding (m₁ * 2 ^ e₁ * (m₂ * 2 ^ e₂)) (.ofModel (.pack (UnpackedFloat.mul .binary64
      (.finite .positive m₁ e₁ h₁) (.finite .positive m₂ e₂ h₂)))) := by
  have hvalue : (m₁ : ℚ) * 2 ^ e₁ * (m₂ * 2 ^ e₂) = (m₁ * m₂ : Nat) * 2 ^ (e₁ + e₂) := by
    rw [zpow_add₀ two_ne_zero, Nat.cast_mul]
    ring
  have hlog : 52 ≤ (m₁ * m₂).log2 := (Nat.le_log2 (Nat.mul_pos h₁ h₂).ne').mpr hbits
  rw [hvalue]
  exact isRounding_roundWithAccuracy (describes_exact _) (by omega)

/-- A dividend that is shifted far enough gives a quotient with all bits of a mantissa. -/
theorem le_div_of_log2 {s : Nat} (h₁ : 0 < m₁) (h₂ : 0 < m₂) (hs : m₂.log2 + 53 ≤ m₁.log2 + s) :
    2 ^ 52 ≤ (m₁ <<< s) / m₂ := by
  rw [Nat.le_div_iff_mul_le h₂, Nat.shiftLeft_eq]
  calc 2 ^ 52 * m₂ ≤ 2 ^ 52 * 2 ^ (m₂.log2 + 1) := Nat.mul_le_mul_left _ Nat.lt_log2_self.le
    _ = 2 ^ (m₂.log2 + 53) := by rw [← pow_add]; congr 1; omega
    _ ≤ 2 ^ (m₁.log2 + s) := Nat.pow_le_pow_right (by decide) hs
    _ = 2 ^ m₁.log2 * 2 ^ s := pow_add _ _ _
    _ ≤ m₁ * 2 ^ s := Nat.mul_le_mul_right _ (Nat.log2_self_le h₁.ne')

/-- A quotient is rounded to the nearest double. -/
theorem isRounding_pack_div (h₁ : 0 < m₁) (h₂ : 0 < m₂) :
    IsRounding (m₁ * 2 ^ e₁ / (m₂ * 2 ^ e₂)) (.ofModel (.pack (UnpackedFloat.div .binary64
      (.finite .positive m₁ e₁ h₁) (.finite .positive m₂ e₂ h₂)))) := by
  obtain ⟨t, ht⟩ : ∃ t, t = min (e₁ - e₂)
      (Format.binary64.targetExponent (totalExponent m₁ e₁ - totalExponent m₂ e₂)) := ⟨_, rfl⟩
  obtain ⟨s, hs⟩ : ∃ s, s = (e₁ - e₂ - t).toNat := ⟨_, rfl⟩
  have hdiv : UnpackedFloat.div .binary64 (.finite .positive m₁ e₁ h₁)
      (.finite .positive m₂ e₂ h₂) = roundWithAccuracy .binary64 .positive ((m₁ <<< s) / m₂) t
        (accuracyOfFraction ((m₁ <<< s) % m₂) m₂) := by
    subst hs ht
    rfl
  have hmin : Format.binary64.minExponent = -1074 := rfl
  have hmantissa : (Format.binary64.mantissaBits : Int) = 53 := rfl
  simp only [Format.targetExponent, totalExponent, hmin, hmantissa] at ht
  have hshift : (s : Int) = e₁ - e₂ - t := by omega
  have hbits : t ≤ -1074 ∨ 2 ^ 52 ≤ (m₁ <<< s) / m₂ := by
    by_cases hleast : t ≤ -1074
    · exact .inl hleast
    · exact .inr (le_div_of_log2 h₁ h₂ (by omega))
  have hvalue : (m₁ : ℚ) * 2 ^ e₁ / (m₂ * 2 ^ e₂) = (m₁ <<< s : Nat) / m₂ * 2 ^ t := by
    have hexponent : e₁ = s + t + e₂ := by omega
    have hpos : (m₂ : ℚ) ≠ 0 := Nat.cast_ne_zero.mpr h₂.ne'
    rw [hexponent, zpow_add₀ two_ne_zero, zpow_add₀ two_ne_zero, zpow_natCast,
      Nat.shiftLeft_eq]
    push_cast
    field_simp
  rw [hdiv, hvalue]
  refine isRounding_roundWithAccuracy (describes_quotient _ h₂) ?_
  obtain hleast | hbits := hbits
  · exact le_max_of_le_right hleast
  · have hlog := (Nat.le_log2 (by omega)).mpr hbits
    omega

/-! ## Exact doubles -/

/-- Unpacked numbers with the same parts are the same. -/
theorem finite_congr {h₁ : 0 < m₁} {h₂ : 0 < m₂} (hm : m₁ = m₂) (he : e₁ = e₂) :
    finite .positive m₁ e₁ h₁ = finite .positive m₂ e₂ h₂ := by
  subst hm he
  rfl

/-- A double is unpacked into its parts. -/
theorem unpack_of_ofFloat (h : ofFloat x = .finite false m q) (hm : 0 < m) :
    x.toModel.unpack = .finite .positive m q hm := by
  obtain ⟨hsign, hfields⟩ := Binary.fields_of_ofBits h
  have hlt : x.toBits.toNat < 2 ^ 63 := by simpa using hsign.symm
  have hpositive : @unpackSign .binary64 x.toModel.toBits.toBitVec = 0#1 := unpackSign_of_lt hlt
  have hmantissa : (@unpackMantissa .binary64 x.toModel.toBits.toBitVec).toNat =
      x.toBits.toNat % 2 ^ 52 := by
    change (BitVec.extractLsb 51 0 x.toBits.toBitVec).toNat = _
    rw [BitVec.extractLsb_toNat, Nat.shiftRight_zero]
    rfl
  have hexponent : (@unpackExponent .binary64 x.toModel.toBits.toBitVec).toNat =
      x.toBits.toNat / 2 ^ 52 % 2 ^ 11 := by
    change (BitVec.extractLsb 62 52 x.toBits.toBitVec).toNat = _
    rw [BitVec.extractLsb_toNat, Nat.shiftRight_eq_div_pow]
    rfl
  have hones : @unpackExponent .binary64 x.toModel.toBits.toBitVec ≠ -1#11 := fun hones => by
    have hvalue : (@unpackExponent .binary64 x.toModel.toBits.toBitVec).toNat = 2047 := by
      rw [hones]
      rfl
    rw [hexponent] at hvalue
    rw [hvalue, Set.mem_Ico] at hfields
    omega
  unfold Float.Model.unpack UnpackedFloat.unpack
  rw [hpositive]
  extract_lets _ _ unbiased
  have hunbiased : unbiased = (x.toBits.toNat / 2 ^ 52 % 2 ^ 11 : Nat) - 1075 :=
    congrArg (fun n : Nat => (n : Int) - 1075) hexponent
  rw [if_neg hones]
  obtain ⟨hzero, rfl, rfl⟩ | ⟨hbiased, rfl, rfl⟩ := hfields
  · have hE : @unpackExponent .binary64 x.toModel.toBits.toBitVec = 0#11 :=
      BitVec.eq_of_toNat_eq (hexponent.trans hzero)
    have hM : @unpackMantissa .binary64 x.toModel.toBits.toBitVec ≠ 0#52 := fun hM => by
      rw [hM] at hmantissa
      exact absurd hmantissa.symm hm.ne'
    rw [if_pos hE, dif_neg hM]
    exact finite_congr hmantissa (by rw [hunbiased, hzero]; rfl)
  · have hE : @unpackExponent .binary64 x.toModel.toBits.toBitVec ≠ 0#11 := fun hE => by
      rw [hE] at hexponent
      exact absurd hexponent.symm (Nat.pos_iff_ne_zero.mp hbiased.1)
    rw [if_neg hE]
    refine finite_congr ?_ hunbiased
    rw [BitVec.toNat_append, hmantissa,
      ← Nat.shiftLeft_add_eq_or_of_lt (Nat.mod_lt _ (by decide)), Nat.add_comm]
    rfl

/-- The product of two doubles is read as their exact product, if that has enough bits. -/
theorem isRounding_mul (hx : ofFloat x = .finite false m₁ e₁) (hy : ofFloat y = .finite false m₂ e₂)
    (hbits : 2 ^ 52 ≤ m₁ * m₂) : IsRounding (m₁ * 2 ^ e₁ * (m₂ * 2 ^ e₂)) (x * y) := by
  have hpos : 0 < m₁ * m₂ := by omega
  have h₁ := Nat.pos_of_mul_pos_right hpos
  have h₂ := Nat.pos_of_mul_pos_left hpos
  have hmul : x * y = .ofModel (.pack (UnpackedFloat.mul .binary64 x.toModel.unpack
    y.toModel.unpack)) := rfl
  rw [hmul, unpack_of_ofFloat hx h₁, unpack_of_ofFloat hy h₂]
  exact isRounding_pack_mul h₁ h₂ hbits

theorem isRounding_div (hx : ofFloat x = .finite false m₁ e₁) (hy : ofFloat y = .finite false m₂ e₂)
    (h₁ : 0 < m₁) (h₂ : 0 < m₂) : IsRounding (m₁ * 2 ^ e₁ / (m₂ * 2 ^ e₂)) (x / y) := by
  have hdiv : x / y = .ofModel (.pack (UnpackedFloat.div .binary64 x.toModel.unpack
    y.toModel.unpack)) := rfl
  rw [hdiv, unpack_of_ofFloat hx h₁, unpack_of_ofFloat hy h₂]
  exact isRounding_pack_div h₁ h₂

/-- A whole number of at most 53 bits is shifted until it has them all. -/
theorem toFloat_eq {s : Nat} (hpos : 0 < n) (hn : n < 2 ^ 53) (hs : s = 52 - n.log2) :
    n.toUInt64.toFloat =
      .ofModel (.pack (roundWithAccuracy .binary64 .positive (n <<< s) (-s) .exact)) := by
  have hlog : n.log2 < 53 := (Nat.log2_lt hpos.ne').mpr hn
  have hword : n.toUInt64.toNat = n := Nat.mod_eq_of_lt (by omega)
  have hgt : compare (n : Int) 0 = .gt := Int.compare_eq_gt.mpr (Int.natCast_pos.mpr hpos)
  have hamount : (0 - max ((n.log2 : Int) + 0 - 52) (-1074)).toNat = s := by omega
  have hround : UnpackedFloat.ofNat .binary64 n =
      roundWithAccuracy .binary64 .positive (n <<< s) (-s) .exact := by
    unfold UnpackedFloat.ofNat UnpackedFloat.ofInt UnpackedFloat.normalize
    simp only [hgt, UnpackedFloat.round, decreaseExponent, targetExponent_eq, Int.toNat_natCast,
      hamount]
    rw [Int.zero_sub]
  change Float.ofModel (.pack (UnpackedFloat.ofNat .binary64 n.toUInt64.toNat)) = _
  rw [hword, hround]

/-- A whole number of at most 53 bits is a double. -/
theorem exists_ofFloat_toFloat (hpos : 0 < n) (hn : n < 2 ^ 53) :
    ∃ m q, ofFloat n.toUInt64.toFloat = .finite false m q ∧ 0 < m ∧ (m : ℚ) * 2 ^ q = n := by
  obtain ⟨s, hs⟩ : ∃ s, s = 52 - n.log2 := ⟨_, rfl⟩
  have hlog : n.log2 < 53 := (Nat.log2_lt hpos.ne').mpr hn
  have hne : n <<< s ≠ 0 := by
    rw [Nat.shiftLeft_eq]
    positivity
  have hshift : (n <<< s).log2 = 52 := by
    rw [Nat.log2_eq_iff hne, Nat.shiftLeft_eq]
    obtain ⟨hle, hlt⟩ := (Nat.log2_eq_iff hpos.ne').mp rfl
    have hsplit : 52 = n.log2 + s := by omega
    have hsplit' : 52 + 1 = n.log2 + 1 + s := by omega
    rw [hsplit', hsplit, pow_add, pow_add _ _ s]
    exact ⟨Nat.mul_le_mul_right _ hle, Nat.mul_lt_mul_of_pos_right hlt (by positivity)⟩
  have hcanonical : Canonical (n <<< s) (-s) :=
    ⟨(Nat.log2_lt hne).mp (by omega), by omega, by omega, .inr ((Nat.le_log2 hne).mp hshift.ge)⟩
  have hvalue : ((n <<< s : Nat) : ℚ) * 2 ^ (-s : Int) = n := by
    rw [Nat.shiftLeft_eq, zpow_neg, zpow_natCast, Nat.cast_mul, Nat.cast_pow, Nat.cast_ofNat,
      mul_inv_cancel_right₀ (by positivity)]
  have hrounding := isRounding_roundWithAccuracy (describes_exact (n <<< s)) (e := -s) (by omega)
  refine ⟨n <<< s, -s, ?_, Nat.pos_of_ne_zero hne, hvalue⟩
  rw [toFloat_eq hpos hn hs]
  exact hrounding.ofFloat_eq (Binary.rounds_self _ _) hcanonical

/-- The powers of ten in the table are exact, and have all bits of a mantissa. -/
theorem ofFloat_powersOfTen : ∀ i : Fin Float.exactlyRepresentablePowersOfTen.size,
    ofFloat Float.exactlyRepresentablePowersOfTen[i] =
        .finite false (10 ^ i.val * 2 ^ 52 / 2 ^ (10 ^ i.val).log2) ((10 ^ i.val).log2 - 52) ∧
      2 ^ (10 ^ i.val).log2 ∣ 10 ^ i.val * 2 ^ 52 := by
  decide

theorem exists_ofFloat_powerOfTen (hn : n < Float.exactlyRepresentablePowersOfTen.size) :
    ∃ m q, ofFloat Float.exactlyRepresentablePowersOfTen[n] = .finite false m q ∧
      2 ^ 52 ≤ m ∧ (m : ℚ) * 2 ^ q = 10 ^ n := by
  obtain ⟨hparts, hdvd⟩ := ofFloat_powersOfTen ⟨n, hn⟩
  generalize hl : (10 ^ n).log2 = l at hparts hdvd
  have hlog : 2 ^ l ≤ 10 ^ n := hl ▸ Nat.log2_self_le (by positivity)
  refine ⟨_, _, hparts, ?_, ?_⟩
  · rw [Nat.le_div_iff_mul_le (by positivity), Nat.mul_comm]
    exact Nat.mul_le_mul_right _ hlog
  · rw [Nat.cast_div hdvd (by positivity), zpow_sub₀ two_ne_zero, zpow_natCast]
    push_cast
    field_simp

/-! ## Decimals -/

/-- A short decimal is the product or the quotient of two exact doubles. -/
theorem isRounding_short (hc : 0 < c) (hshort : c < 2 ^ 53)
    (hn : n < Float.exactlyRepresentablePowersOfTen.size) :
    IsRounding (c * 10 ^ n) (c.toUInt64.toFloat * Float.exactlyRepresentablePowersOfTen[n]) ∧
      IsRounding (c / 10 ^ n) (c.toUInt64.toFloat / Float.exactlyRepresentablePowersOfTen[n]) := by
  obtain ⟨m₁, e₁, hcoefficient, hpos, hvalue⟩ := exists_ofFloat_toFloat hc hshort
  obtain ⟨m₂, e₂, hpower, hbits, hvalue'⟩ := exists_ofFloat_powerOfTen hn
  rw [← hvalue, ← hvalue']
  exact ⟨isRounding_mul hcoefficient hpower (Nat.le_mul_of_pos_left _ hpos |>.trans' hbits),
    isRounding_div hcoefficient hpower hpos (by omega)⟩

/-- A decimal with an exponent within bounds is rounded once. -/
theorem isRounding_pack_ofScientific (hc : 0 < c) (hlow : -(2 ^ 11 + c.log2 : Int) ≤ e)
    (hhigh : e ≤ 2 ^ 11) :
    IsRounding (c * 10 ^ e) (.ofModel (Float.Model.ofScientific c e)) := by
  unfold Float.Model.ofScientific UnpackedFloat.ofScientific
  rw [dif_neg hc.ne', if_neg (not_lt.mpr hhigh), if_neg (not_lt.mpr hlow)]
  by_cases he : 0 ≤ e
  · obtain ⟨n, rfl⟩ := Int.eq_ofNat_of_zero_le he
    have hvalue : (c : ℚ) * (10 : ℚ) ^ (n : Int) =
        (c <<< 53 : Nat) * 2 ^ (-53 : Int) * ((10 ^ n : Nat) * 2 ^ (0 : Int)) := by
      rw [Nat.shiftLeft_eq, zpow_natCast]
      push_cast
      norm_num
      ring
    have hbits : 2 ^ 52 ≤ (c <<< 53) * 10 ^ n := by
      rw [Nat.shiftLeft_eq]
      have hone : 1 ≤ 10 ^ n := Nat.one_le_pow _ _ (by decide)
      nlinarith
    rw [hvalue, if_pos he]
    exact isRounding_pack_mul _ _ hbits
  · obtain ⟨n, rfl⟩ : ∃ n : Nat, e = -n := ⟨(-e).toNat, by omega⟩
    have hnat : (- -(n : Int)).toNat = n := by omega
    have hvalue : (c : ℚ) * (10 : ℚ) ^ (-n : Int) =
        c * 2 ^ (0 : Int) / ((10 ^ (- -(n : Int)).toNat : Nat) * 2 ^ (0 : Int)) := by
      rw [hnat, zpow_neg, zpow_natCast, ← div_eq_mul_inv]
      push_cast
      norm_num
    rw [hvalue, if_neg he]
    exact isRounding_pack_div _ _

/-- Short or not, such a decimal is read as the double that it rounds to. -/
theorem isRounding_ofScientific (hc : 0 < c) (hlow : -(2 ^ 11 + c.log2 : Int) ≤ e)
    (hhigh : e ≤ 2 ^ 11) : IsRounding (c * 10 ^ e) (Float.ofScientific c (e < 0) e.natAbs) := by
  unfold Float.ofScientific
  by_cases hnegative : e < 0
  · obtain ⟨n, rfl⟩ : ∃ n : Nat, e = -n := ⟨(-e).toNat, by omega⟩
    simp only [hnegative, decide_true, if_true, Int.natAbs_neg, Int.natAbs_natCast,
      Int.negOfNat_eq]
    split
    · next hshort =>
      rw [zpow_neg, zpow_natCast, ← div_eq_mul_inv]
      exact (isRounding_short hc hshort.1 _).2
    · exact isRounding_pack_ofScientific hc hlow hhigh
  · obtain ⟨n, rfl⟩ := Int.eq_ofNat_of_zero_le (not_lt.mp hnegative)
    simp only [hnegative, decide_false, Bool.false_eq_true, if_false, Int.natAbs_natCast]
    split
    · next hshort =>
      rw [zpow_natCast]
      exact (isRounding_short hc hshort.1 _).1
    · exact isRounding_pack_ofScientific hc hlow hhigh

/-! ## Decimals out of range -/

/-- A number that is next to zero rounds to zero. -/
theorem isRounding_zero (hw : 0 ≤ w) (hsmall : w ≤ 2 ^ (-1075 : Int)) : IsRounding w 0 := by
  have hhalf : (2 : ℚ) ^ (-1074 : Int) = 2 ^ (-1075 : Int) * 2 := by
    rw [← zpow_add_one₀ two_ne_zero]
    rfl
  have hunit := Binary.unit_pos (-1074)
  refine .inl ⟨0, -1074, by decide, ?_, ?_, fun hodd => absurd hodd (by decide)⟩
  · rw [Binary.low, Binary.below, if_neg (by decide)]
    generalize (2 : ℚ) ^ (-1074 : Int) = u at hunit
    push_cast
    linarith
  · rw [Binary.high, hhalf]
    generalize (2 : ℚ) ^ (-1075 : Int) = u at hsmall
    push_cast
    linarith

/-- The number of digits says how large a number is. -/
theorem lt_pow_length_toDigits (c : Nat) : c < 10 ^ (Nat.toDigits 10 c).length :=
  (Nat.length_toDigits_le_iff (by decide) Nat.length_toDigits_pos).mp le_rfl

theorem pow_length_toDigits_le (hc : 0 < c) : 10 ^ ((Nat.toDigits 10 c).length - 1) ≤ c := by
  by_contra! hlt
  obtain hone | hmore : (Nat.toDigits 10 c).length - 1 = 0 ∨
      0 < (Nat.toDigits 10 c).length - 1 := by omega
  · rw [hone] at hlt
    omega
  · have hle := (Nat.length_toDigits_le_iff (by decide) hmore).mpr hlt
    omega

/-- The bounds on the leading digit lie outside the doubles. -/
theorem two_pow_le_ten_pow : (2 : ℚ) ^ (1200 : Int) ≤ 10 ^ (400 : Int) := by
  have hpower : (2 : ℚ) ^ (1200 : Int) = 8 ^ (400 : Nat) := by
    rw [show (8 : ℚ) = 2 ^ 3 by norm_num, ← pow_mul]
    rfl
  rw [hpower]
  exact pow_le_pow_left₀ (by norm_num) (by norm_num) 400

theorem ten_zpow_le_of_lt (he : e < -400) : (10 : ℚ) ^ e ≤ 2 ^ (-1075 : Int) :=
  calc (10 : ℚ) ^ e ≤ 10 ^ (-400 : Int) := zpow_le_zpow_right₀ (by norm_num) he.le
    _ ≤ 2 ^ (-1200 : Int) := by
      rw [zpow_neg, zpow_neg]
      exact inv_anti₀ (Binary.unit_pos _) two_pow_le_ten_pow
    _ ≤ 2 ^ (-1075 : Int) := zpow_le_zpow_right₀ one_le_two (by decide)

theorem limit_le_ten_zpow (he : 400 ≤ e) : limit ≤ 10 ^ e :=
  calc limit ≤ 2 ^ (54 : Int) * 2 ^ (970 : Int) :=
        mul_le_mul_of_nonneg_right (by norm_num) (Binary.unit_pos 970).le
    _ = 2 ^ (1024 : Int) := (zpow_add₀ two_ne_zero 54 970).symm
    _ ≤ 2 ^ (1200 : Int) := zpow_le_zpow_right₀ one_le_two (by decide)
    _ ≤ 10 ^ (400 : Int) := two_pow_le_ten_pow
    _ ≤ 10 ^ e := zpow_le_zpow_right₀ (by norm_num) he

/-! ## All decimals -/

/-- **A decimal is read as the double that it rounds to**, or as an infinity if it lies beyond
all doubles. -/
theorem isRounding_ofDecimal (c : Nat) (e : Int) : IsRounding (c * 10 ^ e) (ofDecimal c e) := by
  obtain rfl | hc := Nat.eq_zero_or_pos c
  · rw [Nat.cast_zero, zero_mul]
    exact isRounding_zero le_rfl (by positivity)
  unfold ofDecimal
  have hupper := lt_pow_length_toDigits c
  have hlower := pow_length_toDigits_le hc
  have hlength : 0 < (Nat.toDigits 10 c).length := Nat.length_toDigits_pos
  generalize (Nat.toDigits 10 c).length = l at *
  have hpower : (0 : ℚ) < 10 ^ e := zpow_pos (by norm_num) e
  simp only
  split
  · next hsmall =>
    have hexponent : (l : Int) + e < -400 := hsmall.resolve_left hc.ne'
    refine isRounding_zero (by positivity) ?_
    calc (c : ℚ) * 10 ^ e ≤ 10 ^ l * 10 ^ e :=
          mul_le_mul_of_nonneg_right (by exact_mod_cast hupper.le) hpower.le
      _ = 10 ^ ((l : Int) + e) := by rw [zpow_add₀ (by norm_num), zpow_natCast]
      _ ≤ 2 ^ (-1075 : Int) := ten_zpow_le_of_lt hexponent
  split
  · next hlarge =>
    refine .inr ⟨by decide, ?_⟩
    calc limit ≤ 10 ^ (((l - 1 : Nat) : Int) + e) := limit_le_ten_zpow (by omega)
      _ = 10 ^ (l - 1) * 10 ^ e := by rw [zpow_add₀ (by norm_num), zpow_natCast]
      _ ≤ c * 10 ^ e := mul_le_mul_of_nonneg_right (by exact_mod_cast hlower) hpower.le
  · next hlow hhigh =>
    -- the leading digit is within bounds, so the exponent is: the digits are no more than the bits
    have htwo : 2 ^ (l - 1) ≤ 10 ^ (l - 1) := Nat.pow_le_pow_left (by decide) _
    have hlog := (Nat.le_log2 hc.ne').mpr (htwo.trans hlower)
    exact isRounding_ofScientific hc (by omega) (by omega)

end Number

end Abacus
