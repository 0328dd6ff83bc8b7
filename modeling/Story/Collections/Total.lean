/-
# Story.Collections.Total -- the sum of all entries of a mapping

A mapping of a contract is a function that is zero almost everywhere. Its total is the
sum over all keys, and writing one entry changes it by the difference.
-/
import Mathlib

namespace Story.Collections

variable {κ : Type*} [DecidableEq κ]

/-- The sum of all entries. -/
noncomputable def total (m : κ → ℕ) : ℕ := ∑ᶠ k, m k

omit [DecidableEq κ] in
theorem total_eq_zero {m : κ → ℕ} (h : ∀ k, m k = 0) : total m = 0 := by
  unfold total
  rw [finsum_congr h]
  exact finsum_zero

theorem support_update_subset (m : κ → ℕ) (k : κ) (v : ℕ) :
    (Function.update m k v).support ⊆ insert k m.support := by
  intro j hj
  rcases eq_or_ne j k with rfl | hne
  · exact Set.mem_insert _ _
  · rw [Function.mem_support, Function.update_of_ne hne] at hj
    exact Set.mem_insert_of_mem _ hj

theorem finite_support_update {m : κ → ℕ} (h : m.support.Finite) (k : κ) (v : ℕ) :
    (Function.update m k v).support.Finite :=
  (h.insert k).subset (support_update_subset m k v)

/-- **Writing an entry** adds the new value and takes the old one away. -/
theorem total_update {m : κ → ℕ} (h : m.support.Finite) (k : κ) (v : ℕ) :
    total (Function.update m k v) + m k = total m + v := by
  have hsum (f : κ → ℕ) (hf : f.support ⊆ insert k m.support) :
      total f = f k + ∑ j ∈ h.toFinset.erase k, f j := by
    unfold total
    rw [finsum_eq_sum_of_support_subset f (s := insert k h.toFinset) (by simpa using hf),
      ← Finset.add_sum_erase _ f (Finset.mem_insert_self k _), Finset.erase_insert_eq_erase]
  have hrest : ∑ j ∈ h.toFinset.erase k, Function.update m k v j
      = ∑ j ∈ h.toFinset.erase k, m j :=
    Finset.sum_congr rfl fun j hj => Function.update_of_ne (Finset.ne_of_mem_erase hj) _ _
  rw [hsum _ (support_update_subset m k v), hsum m (Set.subset_insert _ _), hrest,
    Function.update_self]
  omega

end Story.Collections
