import Mathlib.Order.Bounds.Basic
import Mathlib.Data.Set.Lattice
import Mathlib.Order.MinMax

/-!
# Extremes of families

The extreme values of a list are found by folding `min` or `max`, and those of a family of sets by
folding the extremes of its members. A member without elements has no extreme value; where it
counts with some other value, the result is the extreme of the family only in the cases listed by
`isLeast_biUnion_iff` and `isGreatest_biUnion_iff`.
-/

namespace Extremes

variable {α : Type*} [LinearOrder α]

/-- Folding `min` finds the least value. -/
theorem foldl_min_isLeast (l : List α) (a : α) :
    IsLeast {x | x ∈ a :: l} (l.foldl min a) := by
  induction l generalizing a with
  | nil => simp [IsLeast, lowerBounds]
  | cons x l ih =>
    obtain ⟨hmem, hle⟩ := ih (min a x)
    rw [List.foldl_cons]
    constructor
    · obtain heq | hl := List.mem_cons.mp hmem
      · rcases min_choice a x with h | h
        · exact List.mem_cons.mpr (Or.inl (heq.trans h))
        · exact List.mem_cons_of_mem _ (List.mem_cons.mpr (Or.inl (heq.trans h)))
      · exact List.mem_cons_of_mem _ (List.mem_cons_of_mem _ hl)
    · intro y hy
      have hfirst := hle (a := min a x) List.mem_cons_self
      obtain rfl | rfl | hl := by simpa using hy
      · exact hfirst.trans (min_le_left _ _)
      · exact hfirst.trans (min_le_right _ _)
      · exact hle (List.mem_cons_of_mem _ hl)

/-- Folding `max` finds the greatest value. -/
theorem foldl_max_isGreatest (l : List α) (a : α) :
    IsGreatest {x | x ∈ a :: l} (l.foldl max a) :=
  @foldl_min_isLeast αᵒᵈ _ l a

section Family

variable {ι : Type*} {s : Set ι} {l : ι → Set α} {g : ι → α} {m z : α}

/-- A family whose empty members count with the value `z`: the least of the values is the least
element exactly when no member is empty or some element is at most `z`. -/
theorem isLeast_biUnion_iff (hempty : ∀ i ∈ s, l i = ∅ → g i = z)
    (hleast : ∀ i ∈ s, (l i).Nonempty → IsLeast (l i) (g i)) (hm : IsLeast (g '' s) m) :
    IsLeast (⋃ i ∈ s, l i) m ↔ (∀ i ∈ s, (l i).Nonempty) ∨ ∃ x ∈ ⋃ i ∈ s, l i, x ≤ z := by
  have hlower : m ∈ lowerBounds (⋃ i ∈ s, l i) := by
    intro x hx
    obtain ⟨i, hi, hxi⟩ := Set.mem_iUnion₂.mp hx
    exact (hm.2 (Set.mem_image_of_mem g hi)).trans ((hleast i hi ⟨x, hxi⟩).2 hxi)
  constructor
  · intro h
    by_contra hnot
    rw [not_or] at hnot
    apply hnot.1
    intro i hi
    by_contra hnone
    rw [Set.not_nonempty_iff_eq_empty] at hnone
    have hz : m ≤ z := hempty i hi hnone ▸ hm.2 (Set.mem_image_of_mem g hi)
    exact hnot.2 ⟨m, h.1, hz⟩
  · intro h
    refine ⟨?_, hlower⟩
    obtain ⟨i, hi, rfl⟩ := hm.1
    by_cases hnone : (l i).Nonempty
    · exact Set.mem_biUnion hi (hleast i hi hnone).1
    · obtain hall | ⟨x, hx, hxz⟩ := h
      · exact absurd (hall i hi) hnone
      · rw [Set.not_nonempty_iff_eq_empty] at hnone
        rw [hempty i hi hnone] at hlower ⊢
        rw [le_antisymm (hlower hx) hxz]
        exact hx

/-- The same for the greatest element. -/
theorem isGreatest_biUnion_iff (hempty : ∀ i ∈ s, l i = ∅ → g i = z)
    (hgreatest : ∀ i ∈ s, (l i).Nonempty → IsGreatest (l i) (g i)) (hm : IsGreatest (g '' s) m) :
    IsGreatest (⋃ i ∈ s, l i) m ↔ (∀ i ∈ s, (l i).Nonempty) ∨ ∃ x ∈ ⋃ i ∈ s, l i, z ≤ x :=
  @isLeast_biUnion_iff αᵒᵈ _ ι s l g m z hempty hgreatest hm

end Family

end Extremes
