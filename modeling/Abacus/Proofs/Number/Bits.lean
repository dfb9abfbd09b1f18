import Abacus.Number.Read
import Abacus.Proofs.Number.Rounding

/-!
# Abacus.Proofs.Number.Bits

What the bits of a double say of it.  The parts of a finite double are canonical
(`canonical_of_ofFloat`), and with its sign they determine it (`ofFloat_inj`).  Arithmetic
on doubles whose sign bit is clear leaves it clear; so a text without a sign spells such a
double (`Number.isUnsigned_of_read?`).
-/

namespace Abacus

namespace Binary

variable {m : Nat} {q : Int}

/-! ## Parts -/

/-- The parts of a finite double, as fields of its bits. -/
theorem fields_of_ofBits {bits : UInt64} {negative : Bool} (h : ofBits bits = finite negative m q) :
    negative = decide (2 ^ 63 ≤ bits.toNat) ∧
      ((bits.toNat / 2 ^ 52 % 2 ^ 11 = 0 ∧ m = bits.toNat % 2 ^ 52 ∧ q = -1074) ∨
        (bits.toNat / 2 ^ 52 % 2 ^ 11 ∈ Set.Ico 1 2047 ∧ m = bits.toNat % 2 ^ 52 + 2 ^ 52 ∧
          q = (bits.toNat / 2 ^ 52 % 2 ^ 11 : Nat) - 1075)) := by
  unfold ofBits at h
  simp only [Nat.pow_eq] at h
  have hlt := Nat.mod_lt (bits.toNat / 2 ^ 52) (show 0 < 2 ^ 11 by decide)
  split at h
  · split at h <;> contradiction
  split at h
  · next hzero =>
    obtain ⟨rfl, rfl, rfl⟩ := finite.inj h
    exact ⟨rfl, .inl ⟨hzero, rfl, rfl⟩⟩
  · obtain ⟨rfl, rfl, rfl⟩ := finite.inj h
    refine ⟨rfl, .inr ⟨?_, rfl, rfl⟩⟩
    rw [Set.mem_Ico]
    omega

/-- The parts of a finite double are canonical. -/
theorem canonical_of_ofFloat {x : Float} {negative : Bool} (h : ofFloat x = finite negative m q) :
    Canonical m q := by
  have hlt := Nat.mod_lt x.toBits.toNat (show 0 < 2 ^ 52 by decide)
  obtain ⟨_, ⟨_, rfl, rfl⟩ | ⟨hbiased, rfl, rfl⟩⟩ := fields_of_ofBits h
  · exact ⟨by omega, le_rfl, by decide, .inl rfl⟩
  · rw [Set.mem_Ico] at hbiased
    exact ⟨by omega, by omega, by omega, .inr (by omega)⟩

/-- A double is determined by its bits. -/
theorem eq_of_toBits_eq {x y : Float} (h : x.toBits = y.toBits) : x = y := by
  obtain ⟨⟨bits, _⟩⟩ := x
  obtain ⟨⟨bits', _⟩⟩ := y
  obtain rfl : bits = bits' := h
  rfl

/-- A finite double is determined by its sign and its parts. -/
theorem ofFloat_inj {x y : Float} {negative : Bool} (hx : ofFloat x = finite negative m q)
    (hy : ofFloat y = finite negative m q) : x = y := by
  obtain ⟨hsign, hfields⟩ := fields_of_ofBits hx
  obtain ⟨hsign', hfields'⟩ := fields_of_ofBits hy
  have hiff : 2 ^ 63 ≤ x.toBits.toNat ↔ 2 ^ 63 ≤ y.toBits.toNat :=
    decide_eq_decide.mp (hsign.symm.trans hsign')
  have hlt := x.toBits.toNat_lt
  have hlt' := y.toBits.toNat_lt
  rw [Set.mem_Ico] at hfields hfields'
  refine eq_of_toBits_eq (UInt64.toNat_inj.mp ?_)
  omega

end Binary

namespace Number

open Float.Model Float.Model.UnpackedFloat

/-! ## Clear signs -/

/-- The sign bit of the double is clear. -/
def IsUnsigned (x : Float) : Prop := x.toBits.toNat < 2 ^ 63

/-- The unpacked double has no sign. -/
def Signless : UnpackedFloat → Prop
  | .infinity s | .zero s | .finite s _ _ _ => s = .positive
  | .notANumber => True

/-- The bits that are packed without a sign are below that of the sign. -/
theorem packComponents_lt (e : BitVec 11) (m : BitVec 52) :
    (packComponents .binary64 .positive e m).toNat < 2 ^ 63 := by
  have he := e.isLt
  have hm := m.isLt
  change ((0#1 ++ e ++ m : BitVec _)).toNat < 2 ^ 63
  rw [BitVec.toNat_append, BitVec.toNat_append, BitVec.toNat_ofNat, Nat.zero_mod,
    Nat.zero_shiftLeft, Nat.zero_or, Nat.shiftLeft_eq]
  exact Nat.or_lt_two_pow (by omega) (by omega)

/-- What has no sign is packed with a clear sign bit. -/
theorem Signless.isUnsigned {u : UnpackedFloat} (h : Signless u) :
    IsUnsigned (Float.ofModel (Float.Model.pack u)) := by
  change (UnpackedFloat.pack .binary64 u).toNat < 2 ^ 63
  cases u with
  | notANumber => decide
  | infinity s =>
      cases h
      exact packComponents_lt _ _
  | zero s =>
      cases h
      exact packComponents_lt _ _
  | finite s m e hm =>
      cases h
      unfold UnpackedFloat.pack
      simp only
      split
      · exact packComponents_lt _ _
      split
      · exact packComponents_lt _ _
      · exact packComponents_lt _ _

/-- The sign bit of a word below `2 ^ 63` is clear. -/
theorem unpackSign_of_lt {b : BitVec 64} (h : b.toNat < 2 ^ 63) :
    @unpackSign .binary64 b = 0#1 := by
  refine BitVec.eq_of_toNat_eq ?_
  change (BitVec.extractLsb 63 63 b).toNat = 0
  rw [BitVec.extractLsb_toNat, Nat.shiftRight_eq_div_pow]
  omega

/-- A choice of two numbers without a sign. -/
theorem Signless.ite {c : Prop} [Decidable c] {u v : UnpackedFloat} (hu : Signless u)
    (hv : Signless v) : Signless (if c then u else v) := by
  split <;> assumption

/-- A choice of two numbers without a sign, each of which may use the condition. -/
theorem Signless.dite {c : Prop} [Decidable c] {u : c → UnpackedFloat} {v : ¬ c → UnpackedFloat}
    (hu : ∀ h, Signless (u h)) (hv : ∀ h, Signless (v h)) :
    Signless (if h : c then u h else v h) := by
  split
  · exact hu _
  · exact hv _

/-- A word below `2 ^ 63` has no sign. -/
theorem signless_unpack {b : BitVec 64} (h : b.toNat < 2 ^ 63) :
    Signless (unpack .binary64 b) := by
  have hsign := unpackSign_of_lt h
  unfold UnpackedFloat.unpack
  rw [hsign]
  extract_lets
  exact .ite (.ite rfl trivial) (.ite (.dite (fun _ => rfl) fun _ => rfl) rfl)

/-- Rounding gives no sign to what has none. -/
theorem signless_roundWithAccuracy (m : Nat) (e : Int) (a : Accuracy) :
    Signless (roundWithAccuracy .binary64 .positive m e a) := by
  unfold roundWithAccuracy
  exact .dite (fun _ => rfl) fun _ => rfl

/-- A product of numbers without a sign has none. -/
theorem signless_mul {u v : UnpackedFloat} (hu : Signless u) (hv : Signless v) :
    Signless (UnpackedFloat.mul .binary64 u v) := by
  cases u <;> cases v <;> cases hu <;> cases hv <;>
    first | exact rfl | exact trivial | exact signless_roundWithAccuracy _ _ _

/-- A quotient of numbers without a sign has none. -/
theorem signless_div {u v : UnpackedFloat} (hu : Signless u) (hv : Signless v) :
    Signless (UnpackedFloat.div .binary64 u v) := by
  cases u <;> cases v <;> cases hu <;> cases hv <;>
    first | exact rfl | exact trivial | exact signless_roundWithAccuracy _ _ _

/-- A natural number has no sign. -/
theorem signless_ofNat (n : Nat) : Signless (UnpackedFloat.ofNat .binary64 n) := by
  cases n with
  | zero => rfl
  | succ n => exact signless_roundWithAccuracy _ _ _

/-- A natural number with an exponent of ten has no sign. -/
theorem signless_ofScientific (m : Nat) (e : Int) :
    Signless (UnpackedFloat.ofScientific .binary64 m e) := by
  unfold UnpackedFloat.ofScientific
  refine .dite (fun _ => rfl) fun _ => .ite ?large (.ite ?small (.ite ?whole ?fraction))
  case large => exact rfl
  case small => exact rfl
  case whole => exact signless_mul rfl rfl
  case fraction => exact signless_div rfl rfl

/-! ## Doubles -/

/-- Bits below that of the sign make a double whose sign is clear. -/
theorem isUnsigned_ofBits {bits : UInt64} (h : bits.toNat < 2 ^ 63) :
    IsUnsigned (Float.ofBits bits) := (signless_unpack h).isUnsigned

/-- A product of doubles with clear signs has a clear sign. -/
theorem IsUnsigned.mul {x y : Float} (hx : IsUnsigned x) (hy : IsUnsigned y) :
    IsUnsigned (x * y) := (signless_mul (signless_unpack hx) (signless_unpack hy)).isUnsigned

/-- A quotient of doubles with clear signs has a clear sign. -/
theorem IsUnsigned.div {x y : Float} (hx : IsUnsigned x) (hy : IsUnsigned y) :
    IsUnsigned (x / y) := (signless_div (signless_unpack hx) (signless_unpack hy)).isUnsigned

theorem isUnsigned_toFloat (n : UInt64) : IsUnsigned n.toFloat :=
  (signless_ofNat n.toNat).isUnsigned

/-- The powers of ten that short literals are scaled by. -/
theorem isUnsigned_powersOfTen :
    ∀ x ∈ Float.exactlyRepresentablePowersOfTen, IsUnsigned x := by
  show ∀ x ∈ Float.exactlyRepresentablePowersOfTen, x.toBits.toNat < 2 ^ 63
  decide

theorem isUnsigned_ofScientific (m : Nat) (negative : Bool) (e : Nat) :
    IsUnsigned (Float.ofScientific m negative e) := by
  unfold Float.ofScientific
  split
  · simp only
    split
    · exact (isUnsigned_toFloat _).div (isUnsigned_powersOfTen _ (Array.getElem_mem _))
    · exact (isUnsigned_toFloat _).mul (isUnsigned_powersOfTen _ (Array.getElem_mem _))
  · exact (signless_ofScientific _ _).isUnsigned

/-- The exponent bits of a finite double are not all set. -/
theorem biased_ne_of_isFinite {x : Float} (h : x.isFinite = true) :
    x.toBits.toNat / Nat.pow 2 52 % Nat.pow 2 11 ≠ 2047 := by
  intro hbiased
  have hexponent : @unpackExponent .binary64 x.toModel.toBits.toBitVec = -1#11 := by
    refine BitVec.eq_of_toNat_eq ?_
    change (BitVec.extractLsb 62 52 x.toBits.toBitVec).toNat = 2047
    rw [BitVec.extractLsb_toNat, Nat.shiftRight_eq_div_pow]
    exact hbiased
  unfold Float.isFinite Float.Model.isFinite Float.Model.unpack UnpackedFloat.unpack at h
  extract_lets at h
  rw [if_pos hexponent] at h
  split at h <;> contradiction

/-- The parts of a double with a clear sign bit. -/
theorem IsUnsigned.ofFloat_cases {x : Float} (hx : IsUnsigned x) :
    (x.isFinite = false ∧ (Binary.ofFloat x = .nan ∨ Binary.ofFloat x = .infinite false)) ∨
      ∃ m q, Binary.ofFloat x = .finite false m q := by
  have hnegative : decide (Nat.pow 2 63 ≤ x.toBits.toNat) = false := by
    rw [Nat.pow_eq, decide_eq_false_iff_not]
    exact Nat.not_le.mpr hx
  unfold Binary.ofFloat Binary.ofBits
  simp only [hnegative]
  split
  · next hbiased =>
    refine .inl ⟨Bool.not_eq_true _ ▸ fun h => biased_ne_of_isFinite h hbiased, ?_⟩
    split
    · exact .inr rfl
    · exact .inl rfl
  split
  · exact .inr ⟨_, _, rfl⟩
  · exact .inr ⟨_, _, rfl⟩

/-- A finite double with a clear sign bit is made of its parts. -/
theorem IsUnsigned.exists_finite {x : Float} (hx : IsUnsigned x) (h : x.isFinite = true) :
    ∃ m q, Binary.ofFloat x = .finite false m q := by
  obtain ⟨hinfinite, _⟩ | hfinite := hx.ofFloat_cases
  · rw [h] at hinfinite
    contradiction
  · exact hfinite

/-! ## Literals -/

/-- A decimal with its digits and its exponent has a clear sign. -/
theorem isUnsigned_ofDecimal (c : Nat) (e : Int) : IsUnsigned (ofDecimal c e) := by
  unfold ofDecimal
  simp only
  split
  · exact (show (0 : Float).toBits.toNat < 2 ^ 63 by decide)
  split
  · exact isUnsigned_ofBits (by decide)
  · exact isUnsigned_ofScientific _ _ _

/-- What is read without a sign has a clear one. -/
theorem isUnsigned_of_unsigned? {cs : List Char} {x : Float} (h : unsigned? cs = some x) :
    IsUnsigned x := by
  unfold unsigned? at h
  simp only at h
  split at h <;> split at h
  · contradiction
  · obtain ⟨e, _, rfl⟩ := Option.map_eq_some_iff.mp h
    exact isUnsigned_ofDecimal _ _
  · contradiction
  · obtain ⟨e, _, rfl⟩ := Option.map_eq_some_iff.mp h
    exact isUnsigned_ofDecimal _ _

/-- A text without a sign spells a double whose sign bit is clear. -/
theorem isUnsigned_of_read? {s : String} {x : Float} (hsign : takeSign s.toList = (false, s.toList))
    (h : read? s = some x) : IsUnsigned x := by
  unfold read? at h
  rw [hsign] at h
  obtain ⟨y, hy, rfl⟩ := Option.map_eq_some_iff.mp h
  rw [if_neg (by decide)]
  obtain hword | hdecimal := Option.or_eq_some_iff.mp hy
  · unfold word? at hword
    simp only at hword
    split at hword
    · cases hword
      exact isUnsigned_ofBits (by decide)
    split at hword
    · cases hword
      exact isUnsigned_ofBits (by decide)
    · contradiction
  · exact isUnsigned_of_unsigned? hdecimal.2

end Number

end Abacus
