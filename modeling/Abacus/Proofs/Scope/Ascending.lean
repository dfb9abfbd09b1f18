import Abacus.Bindings

/-!
# Abacus.Proofs.Scope.Ascending

Bindings and their listing.  Binding a name keeps every name bound once
(`Distinct.put`), so the bindings are what names read as (`mem_iff`), and the listing has
the same bindings with the names strictly ascending (`Distinct.pairwise_sorted`).
-/

namespace Abacus

namespace Bindings

variable {name : String} {v : Value} {bs : Bindings}

/-- No name is bound twice. -/
def Distinct (bs : Bindings) : Prop := (bs.map Prod.fst).Nodup

theorem distinct_nil : Distinct [] := List.nodup_nil

theorem mem_names_put {other : String} (h : other ∈ (put name v bs).map Prod.fst) :
    other = name ∨ other ∈ bs.map Prod.fst := by
  induction bs with
  | nil => exact .inl (by simpa [put] using h)
  | cons b bs ih =>
      rw [put] at h
      split at h
      · exact .inr h
      · obtain rfl | h := List.mem_cons.mp h
        · exact .inr List.mem_cons_self
        · exact (ih h).imp_right (List.mem_cons_of_mem _)

/-- An old binding is replaced in place, so no name is bound twice after it either. -/
theorem Distinct.put (h : bs.Distinct) (name : String) (v : Value) :
    (Bindings.put name v bs).Distinct := by
  induction bs with
  | nil => exact List.pairwise_singleton _ _
  | cons b bs ih =>
      obtain ⟨hb, hbs⟩ := List.nodup_cons.mp h
      rw [Bindings.put]
      split
      · exact List.nodup_cons.mpr ⟨hb, hbs⟩
      · next hne =>
        refine List.nodup_cons.mpr ⟨fun hmem => ?_, ih hbs⟩
        obtain heq | hold := mem_names_put hmem
        · exact hne heq
        · exact hb hold

/-- Where no name is bound twice, the bindings are what names read as. -/
theorem Distinct.mem_iff (h : bs.Distinct) : (name, v) ∈ bs ↔ lookup name bs = some v := by
  induction bs with
  | nil => simp [lookup]
  | cons b bs ih =>
      obtain ⟨hb, hbs⟩ := List.nodup_cons.mp h
      rw [lookup, List.mem_cons]
      split
      · next heq =>
        have hnot : (name, v) ∉ bs := fun hmem => hb (heq ▸ List.mem_map_of_mem hmem)
        simp only [hnot, or_false, Prod.ext_iff, heq, true_and, Option.some.injEq, eq_comm]
      · next hne =>
        have hother : (name, v) ≠ b := fun hb' => hne (hb' ▸ rfl)
        simp only [hother, false_or]
        exact ih hbs

/-! ## The listing -/

/-- The listing has the bindings. -/
theorem mem_sorted {b : String × Value} : b ∈ bs.sorted ↔ b ∈ bs := List.mem_mergeSort

/-- The listing ascends. -/
theorem pairwise_sorted_le (bs : Bindings) : bs.sorted.Pairwise fun a b => a.1 ≤ b.1 := by
  have hle : ∀ a b : String × Value, (!decide (b.1 < a.1)) = true ↔ a.1 ≤ b.1 := by
    intro a b
    rw [Bool.not_eq_true', decide_eq_false_iff_not, String.not_lt]
  have hsorted : bs.sorted.Pairwise fun a b => (!decide (b.1 < a.1)) = true :=
    List.pairwise_mergeSort
      (fun a b c hab hbc => (hle a c).mpr (String.le_trans ((hle a b).mp hab) ((hle b c).mp hbc)))
      (fun a b => by simpa only [Bool.or_eq_true, hle] using String.le_total a.1 b.1) bs
  exact hsorted.imp fun hab => (hle _ _).mp hab

/-- Where no name is bound twice, the listing ascends strictly. -/
theorem Distinct.pairwise_sorted (h : bs.Distinct) : bs.sorted.Pairwise fun a b => a.1 < b.1 := by
  have hdistinct : bs.sorted.Pairwise fun a b => a.1 ≠ b.1 := by
    have hperm : (bs.sorted.map Prod.fst).Perm (bs.map Prod.fst) :=
      (List.mergeSort_perm bs _).map Prod.fst
    exact List.pairwise_map.mp (hperm.nodup_iff.mpr h)
  refine (pairwise_sorted_le bs).imp₂ (fun a b hle hne => ?_) hdistinct
  by_cases hlt : a.1 < b.1
  · exact hlt
  · exact absurd (String.le_antisymm hle (String.not_lt.mp hlt)) hne

end Bindings

end Abacus
