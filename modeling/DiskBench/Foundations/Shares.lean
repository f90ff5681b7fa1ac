import Mathlib.Algebra.BigOperators.Ring.List
import Mathlib.Algebra.Order.BigOperators.Group.List
import Mathlib.Tactic.Ring

/-!
# Shares of a budget

Sizes are changed one after another, each within what is free and what it had before. A pair holds
a size before and after its turn. When each change has its share of the budget that is there at its
turn, then it has its share of what is free at the start and the sizes that are changed, and the
growth of all sizes together is within the sum of the shares.
-/

namespace Shares

/-- The sum of the old sizes that are changed. -/
def changedTotal (sizes : List (ℕ × ℕ)) : ℕ :=
  ((sizes.filter fun p => p.2 ≠ p.1).map Prod.fst).sum

/-- The growth of all sizes together. -/
def growth (sizes : List (ℕ × ℕ)) : ℕ := (sizes.map fun p => p.2 - p.1).sum

/-- Each size is kept, or it is changed within the budget of its turn and grows by a share of it
at most. -/
inductive Within (share : ℕ → ℕ → Prop) : ℕ → List (ℕ × ℕ) → Prop
  | nil {free : ℕ} : Within share free []
  | kept {free size : ℕ} {sizes : List (ℕ × ℕ)} (hrest : Within share free sizes) :
      Within share free ((size, size) :: sizes)
  | changed {free old new : ℕ} {sizes : List (ℕ × ℕ)} (hne : new ≠ old)
      (hle : new ≤ free + old) (hshare : share (free + old) (new - old))
      (hrest : Within share (free + old - new) sizes) : Within share free ((old, new) :: sizes)

variable {share : ℕ → ℕ → Prop} {free : ℕ} {sizes : List (ℕ × ℕ)}

@[simp] theorem changedTotal_nil : changedTotal [] = 0 := rfl

@[simp] theorem growth_nil : growth [] = 0 := rfl

@[simp] theorem changedTotal_kept (size : ℕ) :
    changedTotal ((size, size) :: sizes) = changedTotal sizes := by
  simp [changedTotal]

theorem changedTotal_changed {old new : ℕ} (h : new ≠ old) :
    changedTotal ((old, new) :: sizes) = old + changedTotal sizes := by
  simp [changedTotal, h]

@[simp] theorem growth_cons (old new : ℕ) :
    growth ((old, new) :: sizes) = new - old + growth sizes := by
  simp [growth]

/-- Each change is within its share of the budget of all changes. -/
theorem Within.share_total (h : Within share free sizes)
    (hmono : ∀ budget budget' size, budget ≤ budget' → share budget size → share budget' size) :
    ∀ p ∈ sizes, p.2 ≠ p.1 → share (free + changedTotal sizes) (p.2 - p.1) := by
  induction h with
  | nil => exact fun p hp => absurd hp List.not_mem_nil
  | kept _ ih =>
    intro p hp hne
    rcases List.mem_cons.mp hp with rfl | hmem
    · exact absurd rfl hne
    · rw [changedTotal_kept]
      exact ih p hmem hne
  | changed hchange hle hshare _ ih =>
    intro p hp hne
    rw [changedTotal_changed hchange]
    rcases List.mem_cons.mp hp with rfl | hmem
    · exact hmono _ _ _ (by omega) hshare
    · exact hmono _ _ _ (by omega) (ih p hmem hne)

/-- When each of at most `m` changes has a part of `a / (b * m)`, all together have a part of
`a / b`. -/
theorem mul_growth_le {a b m budget : ℕ} (hlen : sizes.length ≤ m)
    (h : ∀ p ∈ sizes, p.2 ≠ p.1 → b * m * (p.2 - p.1) ≤ a * budget) :
    b * growth sizes ≤ a * budget := by
  have hparts : ∀ x ∈ sizes.map fun p => b * m * (p.2 - p.1), x ≤ a * budget := by
    intro x hx
    obtain ⟨p, hp, rfl⟩ := List.mem_map.mp hx
    by_cases hne : p.2 = p.1
    · simp [hne]
    · exact h p hp hne
  have hsum : m * (b * growth sizes) ≤ m * (a * budget) := by
    calc m * (b * growth sizes) = (sizes.map fun p => b * m * (p.2 - p.1)).sum := by
          rw [List.sum_map_mul_left, growth]
          ring
      _ ≤ sizes.length * (a * budget) := by
          simpa using List.sum_le_card_nsmul _ _ hparts
      _ ≤ m * (a * budget) := Nat.mul_le_mul_right _ hlen
  rcases Nat.eq_zero_or_pos m with hzero | hpos
  · obtain rfl : sizes = [] := List.eq_nil_of_length_eq_zero (by omega)
    simp
  · exact Nat.le_of_mul_le_mul_left hsum hpos

/-- A part of `a / (b * m)` of the budget at a turn, or of another budget when that is larger. -/
def Portion (a b m other budget size : ℕ) : Prop := b * m * size ≤ a * max budget other

/-- **Shares.** The growth of at most `m` sizes is within a part of `a / b` of what is free and
the sizes that are changed, when each change has a part of `a / (b * m)`. -/
theorem Within.growth_le {a b m other : ℕ} (h : Within (Portion a b m other) free sizes)
    (hlen : sizes.length ≤ m) (hother : other ≤ free + changedTotal sizes) :
    b * growth sizes ≤ a * (free + changedTotal sizes) := by
  apply mul_growth_le hlen
  intro p hp hne
  have hpart := h.share_total (fun budget budget' size hle hpart =>
    Nat.le_trans hpart (Nat.mul_le_mul_left _ (by omega))) p hp hne
  rwa [Portion, Nat.max_eq_left hother] at hpart

end Shares
