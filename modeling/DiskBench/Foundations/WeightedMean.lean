import Mathlib.Algebra.BigOperators.Fin
import Mathlib.Algebra.BigOperators.Ring.List
import Mathlib.Algebra.Order.BigOperators.Group.List
import Mathlib.Algebra.Order.Chebyshev
import Mathlib.Algebra.Order.Field.Basic

/-!
# Weighted means

A quotient of two sums with positive divisors lies between two of the quotients of the summands.
How the mean of values compares with their sum is Chebyshev's inequality: it depends on whether the
weights are ordered as the values or against them.
-/

namespace WeightedMean

variable {ι α : Type*} [Field α] [LinearOrder α] [IsStrictOrderedRing α] {l : List ι}
  {a v w : ι → α}

/-- A sum of positive weights is positive. -/
theorem sum_pos (hne : l ≠ []) (hw : ∀ x ∈ l, 0 < w x) : 0 < (l.map w).sum := by
  apply List.sum_pos
  · intro y hy
    obtain ⟨x, hx, rfl⟩ := List.mem_map.mp hy
    exact hw x hx
  · simpa using hne

/-- One of the quotients is at most the quotient of the sums. -/
theorem exists_div_le_sum_div_sum (hne : l ≠ []) (hw : ∀ x ∈ l, 0 < w x) :
    ∃ x ∈ l, a x / w x ≤ (l.map a).sum / (l.map w).sum := by
  have hsum : (l.map a).sum ≤
      (l.map fun x => (l.map a).sum / (l.map w).sum * w x).sum := by
    rw [List.sum_map_mul_left, div_mul_cancel₀ _ (sum_pos hne hw).ne']
  obtain ⟨x, hx, hle⟩ := List.exists_le_of_sum_le hne _ _ hsum
  exact ⟨x, hx, (div_le_iff₀ (hw x hx)).mpr hle⟩

/-- One of the quotients is at least the quotient of the sums. -/
theorem exists_sum_div_sum_le_div (hne : l ≠ []) (hw : ∀ x ∈ l, 0 < w x) :
    ∃ x ∈ l, (l.map a).sum / (l.map w).sum ≤ a x / w x := by
  have hsum : (l.map fun x => (l.map a).sum / (l.map w).sum * w x).sum ≤ (l.map a).sum := by
    rw [List.sum_map_mul_left, div_mul_cancel₀ _ (sum_pos hne hw).ne']
  obtain ⟨x, hx, hle⟩ := List.exists_le_of_sum_le hne _ _ hsum
  exact ⟨x, hx, (le_div_iff₀ (hw x hx)).mpr hle⟩

/-- Where a larger value never has a smaller weight, the mean times the number of the values is at
least their sum. -/
theorem sum_le_length_mul_mean (hne : l ≠ []) (hw : ∀ x ∈ l, 0 < w x)
    (h : ∀ x ∈ l, ∀ y ∈ l, v x < v y → w x ≤ w y) :
    (l.map v).sum ≤ (l.length : α) * ((l.map fun x => w x * v x).sum / (l.map w).sum) := by
  have hvary : Monovary (fun i : Fin l.length => w l[i.1]) fun i => v l[i.1] :=
    fun i j hij => h _ (l.getElem_mem _) _ (l.getElem_mem _) hij
  have hsum := hvary.sum_mul_sum_le_card_mul_sum
  simp only [Fin.sum_univ_fun_getElem, Fintype.card_fin] at hsum
  rw [Fin.sum_univ_fun_getElem l fun x => w x * v x] at hsum
  rw [← mul_div_assoc, le_div_iff₀ (sum_pos hne hw), mul_comm]
  exact hsum

/-- Where a larger value never has a larger weight, the mean times the number of the values is at
most their sum. -/
theorem length_mul_mean_le_sum (hne : l ≠ []) (hw : ∀ x ∈ l, 0 < w x)
    (h : ∀ x ∈ l, ∀ y ∈ l, v x < v y → w y ≤ w x) :
    (l.length : α) * ((l.map fun x => w x * v x).sum / (l.map w).sum) ≤ (l.map v).sum := by
  have hvary : Antivary (fun i : Fin l.length => w l[i.1]) fun i => v l[i.1] :=
    fun i j hij => h _ (l.getElem_mem _) _ (l.getElem_mem _) hij
  have hsum := hvary.card_mul_sum_le_sum_mul_sum
  simp only [Fin.sum_univ_fun_getElem, Fintype.card_fin] at hsum
  rw [Fin.sum_univ_fun_getElem l fun x => w x * v x] at hsum
  rw [← mul_div_assoc, div_le_iff₀ (sum_pos hne hw), mul_comm _ (l.map w).sum]
  exact hsum

end WeightedMean
