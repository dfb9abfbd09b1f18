import Abacus.Number.Read
import Abacus.Number.Style
import Abacus.Proofs.Token.Pattern
import Mathlib.Algebra.Field.Rat
import Mathlib.Data.List.Basic

/-!
# Abacus.Proofs.Number.Positional

Decimal texts and the numbers that they write.  `Writes text w` says that a text is
digits, or digits with a point after the first of them, and that it stands for `w`.  A
text writes one number only (`Writes.unique`).  The digits of a decimal, written
positionally, write its value (`writes_positionally`).
-/

namespace Abacus

namespace Number

/-! ## Digits -/

/-- The value of digits after digits. -/
theorem digitsValue_append (ds es : List Char) :
    digitsValue (ds ++ es) = digitsValue ds * 10 ^ es.length + digitsValue es := by
  have h := Nat.ofDigitChars_append (b := 10) (l := ds) (m := es) 0
  rw [Nat.ofDigitChars_eq_ofDigitChars_zero (l := es), Nat.mul_comm (10 ^ es.length)] at h
  exact h

/-- Zeros in front do not count. -/
theorem digitsValue_zeros_append (n : Nat) (ds : List Char) :
    digitsValue (List.replicate n '0' ++ ds) = digitsValue ds := by
  have hzeros : digitsValue (List.replicate n '0') = 10 ^ n * 0 := Nat.ofDigitChars_replicate_zero
  rw [digitsValue_append, hzeros, Nat.mul_zero, Nat.zero_mul, Nat.zero_add]

/-- A zero behind multiplies by ten. -/
theorem digitsValue_append_zeros (ds : List Char) (n : Nat) :
    digitsValue (ds ++ List.replicate n '0') = digitsValue ds * 10 ^ n := by
  have hzeros : digitsValue (List.replicate n '0') = 10 ^ n * 0 := Nat.ofDigitChars_replicate_zero
  rw [digitsValue_append, hzeros, List.length_replicate, Nat.mul_zero, Nat.add_zero]

/-- The digits of a number spell it. -/
theorem digitsValue_toDigits (n : Nat) : digitsValue (Nat.toDigits 10 n) = n :=
  Nat.ofDigitChars_ten_toDigits

theorem isDigit_toDigits (n : Nat) : ∀ d ∈ Nat.toDigits 10 n, d.isDigit :=
  fun _ hd => Nat.isDigit_of_mem_toDigits (by decide) (by decide) hd

theorem isDigit_zeros (n : Nat) : ∀ d ∈ List.replicate n '0', d.isDigit := by
  intro d hd
  rw [List.eq_of_mem_replicate hd]
  decide

/-- Digits have no point among them. -/
theorem point_notMem {ds : List Char} (h : ∀ d ∈ ds, d.isDigit) : '.' ∉ ds :=
  List.count_eq_zero.mp (Scan.count_point h)

/-! ## Decimal texts -/

/-- A decimal text and the number that it stands for: digits, of which those after the
point, if there is one, count as tenths and less. -/
inductive Writes : List Char → ℚ → Prop
  | whole {ds : List Char} (hne : ds ≠ []) (hds : ∀ d ∈ ds, d.isDigit) : Writes ds (digitsValue ds)
  | fraction {ds es : List Char} (hne : ds ≠ []) (hds : ∀ d ∈ ds, d.isDigit)
      (hes : ∀ e ∈ es, e.isDigit) :
      Writes (ds ++ '.' :: es) (digitsValue (ds ++ es) / 10 ^ es.length)

namespace Writes

variable {text : List Char} {v w : ℚ}

/-- A decimal text begins with a digit. -/
theorem exists_cons (h : Writes text w) : ∃ d ds, text = d :: ds ∧ d.isDigit := by
  cases h with
  | whole hne hds | fraction hne hds _ =>
      obtain ⟨d, ds, rfl⟩ := List.exists_cons_of_ne_nil hne
      exact ⟨d, _, rfl, hds d List.mem_cons_self⟩

/-- A decimal text is the text of a number token. -/
theorem matches_number (h : Writes text w) : Scan.Matches .number text := by
  cases h with
  | whole hne hds => exact .whole hne hds
  | fraction hne hds hes => exact .fraction hne hds hes

/-- A decimal text stands for one number. -/
theorem unique (h : Writes text v) (h' : Writes text w) : v = w := by
  have hclash : ∀ ds es : List Char, (∀ d ∈ ds ++ '.' :: es, d.isDigit) → False :=
    fun ds es hds => point_notMem hds (by simp)
  cases h with
  | whole hne hds =>
      generalize htext : text = text' at h'
      cases h' with
      | whole => rfl
      | fraction => exact (hclash _ _ (htext ▸ hds)).elim
  | @fraction ds es hne hds hes =>
      generalize htext : ds ++ '.' :: es = text' at h'
      cases h' with
      | whole _ hds' => exact (hclash _ _ (htext ▸ hds')).elim
      | fraction =>
          obtain ⟨rfl, _, rfl⟩ := (List.append_cons_inj_of_notMem (point_notMem hds)
            (point_notMem hes)).mp htext
          rfl

end Writes

/-! ## Positional texts -/

/-- The digits of a natural number write it. -/
theorem writes_toDigits (n : Nat) : Writes (Nat.toDigits 10 n) n := by
  have h := Writes.whole Nat.toDigits_ne_nil (isDigit_toDigits n)
  rwa [digitsValue_toDigits] at h

/-- Digits written positionally write what they spell, times the power of ten that their
last one stands for. -/
theorem writes_positionally {ds : List Char} (hne : ds ≠ []) (hds : ∀ d ∈ ds, d.isDigit)
    (e : Int) :
    Writes (Style.positionally false ds e).toList (digitsValue ds * (10 : ℚ) ^ e) := by
  unfold Style.positionally
  split
  · next he =>
    obtain ⟨n, rfl⟩ := Int.eq_ofNat_of_zero_le he
    have hall : ∀ d ∈ ds ++ List.replicate n '0', d.isDigit :=
      List.forall_mem_append.mpr ⟨hds, isDigit_zeros n⟩
    have h := Writes.whole (List.append_ne_nil_of_left_ne_nil hne _) hall
    rw [digitsValue_append_zeros] at h
    simpa [Style.zeros] using h
  · next he =>
    obtain ⟨n, rfl⟩ : ∃ n : Nat, e = -n := ⟨(-e).toNat, by omega⟩
    have hplaces : ((- -(n : Int)).toNat) = n := by omega
    rw [zpow_neg, zpow_natCast, ← div_eq_mul_inv]
    simp only [hplaces]
    split
    · next hlt =>
      have hlen : (ds.drop (ds.length - n)).length = n := by
        rw [List.length_drop]
        omega
      have hfront : ds.take (ds.length - n) ≠ [] := by
        intro hnil
        have hzero := congrArg List.length hnil
        rw [List.length_take, List.length_nil] at hzero
        omega
      have htail : ∀ d ∈ ds.drop (ds.length - n), d.isDigit :=
        fun d hd => hds d (List.mem_of_mem_drop hd)
      have h := Writes.fraction hfront (fun d hd => hds d (List.mem_of_mem_take hd)) htail
      rw [List.take_append_drop, hlen] at h
      simpa using h
    · next hle =>
      have hlen : (List.replicate (n - ds.length) '0' ++ ds).length = n := by
        rw [List.length_append, List.length_replicate]
        omega
      have h := @Writes.fraction ['0'] (List.replicate (n - ds.length) '0' ++ ds)
        (List.cons_ne_nil _ _) (List.forall_mem_singleton.mpr (by decide))
        (List.forall_mem_append.mpr ⟨isDigit_zeros _, hds⟩)
      have hvalue : digitsValue (['0'] ++ (List.replicate (n - ds.length) '0' ++ ds)) =
          digitsValue ds := by
        rw [digitsValue_append, digitsValue_zeros_append]
        exact (congrArg (· + _) (Nat.zero_mul _)).trans (Nat.zero_add _)
      rw [hvalue, hlen] at h
      simpa [Style.zeros] using h

end Number

namespace Decimal

/-- The number that a decimal stands for. -/
def value (d : Decimal) : ℚ := d.coefficient * (10 : ℚ) ^ d.exponent

/-- The printed text of a decimal writes it. -/
theorem writes_display (d : Decimal) : Number.Writes (Style.display.decimal d).toList d.value := by
  have h := Number.writes_positionally Nat.toDigits_ne_nil
    (Number.isDigit_toDigits d.coefficient) d.exponent
  rwa [Number.digitsValue_toDigits] at h

end Decimal

end Abacus
