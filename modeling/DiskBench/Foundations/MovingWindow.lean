import Mathlib.Algebra.BigOperators.Group.Finset.Basic
import Mathlib.Data.Finset.Lattice.Fold
import Mathlib.Order.Interval.Finset.Nat

/-!
# Moving windows

A loop goes through the values of a sequence and keeps the last `k` of them in an array that it
indexes modulo `k`, together with the least and the greatest of all values so far. It ends at the
first index with a property, or at the last index.
-/

namespace MovingWindow

variable {α : Type*}

/-- The array holds the last `k` of the first `n` values. -/
def Window (k : ℕ) (ring x : ℕ → α) (n : ℕ) : Prop :=
  ∀ i < n, n ≤ i + k → ring (i % k) = x i

variable {k n : ℕ} {ring x : ℕ → α}

/-- Before the first value any array will do. -/
theorem Window.start (k : ℕ) (ring x : ℕ → α) : Window k ring x 0 :=
  fun _ h => absurd h (Nat.not_lt_zero _)

/-- The next value takes the place of the oldest one. -/
theorem Window.next (h : Window k ring x n) :
    Window k (Function.update ring (n % k) (x n)) x (n + 1) := by
  intro i hi hrecent
  rcases Nat.lt_succ_iff_lt_or_eq.mp hi with hlt | rfl
  · -- Two of the last `k` indices differ modulo `k`.
    have hne : i % k ≠ n % k := fun heq =>
      hlt.ne (Nat.mod_injOn_Ico (n + 1 - k) k (by simp; omega) (by simp; omega) heq)
    rw [Function.update_of_ne hne, h i hlt (by omega)]
  · rw [Function.update_self]

/-- The sum over the array is the sum of the last `k` values. -/
theorem Window.sum_eq [AddCommMonoid α] (h : Window k ring x n) (hk : k ≤ n) :
    ∑ j ∈ Finset.range k, ring j = ∑ i ∈ Finset.Ico (n - k) n, x i := by
  have hn : n - k + k = n := by omega
  rw [← Nat.image_Ico_mod (n - k) k, Finset.sum_image (Nat.mod_injOn_Ico _ _), hn]
  apply Finset.sum_congr rfl
  intro i hi
  rw [Finset.mem_Ico] at hi
  exact h i hi.2 (by omega)

section Extremes

variable [LinearOrder α]

/-- The least of the values up to the index `n`. -/
def least (x : ℕ → α) (n : ℕ) : α :=
  (Finset.range (n + 1)).inf' Finset.nonempty_range_add_one x

/-- The greatest of the values up to the index `n`. -/
def greatest (x : ℕ → α) (n : ℕ) : α :=
  (Finset.range (n + 1)).sup' Finset.nonempty_range_add_one x

@[simp] theorem least_zero (x : ℕ → α) : least x 0 = x 0 := by simp [least]

@[simp] theorem greatest_zero (x : ℕ → α) : greatest x 0 = x 0 := by simp [greatest]

theorem least_succ (x : ℕ → α) (n : ℕ) : least x (n + 1) = min (x (n + 1)) (least x n) := by
  simp only [least, Finset.range_add_one (n := n + 1)]
  rw [Finset.inf'_insert]

theorem greatest_succ (x : ℕ → α) (n : ℕ) :
    greatest x (n + 1) = max (x (n + 1)) (greatest x n) := by
  simp only [greatest, Finset.range_add_one (n := n + 1)]
  rw [Finset.sup'_insert]

end Extremes

/-- The first index below `n` with a property, or the last index if there is none. -/
def firstOrLast (p : ℕ → Bool) (n : ℕ) : ℕ := ((List.range n).find? p).getD (n - 1)

variable {p : ℕ → Bool}

/-- A loop that has not met the property before, and meets it or has come to the last index. -/
theorem firstOrLast_eq {i : ℕ} (hi : i < n) (hnone : ∀ j < i, p j = false)
    (hstop : p i = true ∨ i + 1 = n) : firstOrLast p n = i := by
  cases hp : p i with
  | true =>
    have hfind : (List.range n).find? p = some i :=
      List.find?_range_eq_some.mpr ⟨hp, List.mem_range.mpr hi, by simpa using hnone⟩
    rw [firstOrLast, hfind, Option.getD_some]
  | false =>
    have hlast : i + 1 = n := hstop.resolve_left (by simp [hp])
    have hfind : (List.range n).find? p = none := by
      apply List.find?_range_eq_none.mpr
      intro j hj
      rcases Nat.lt_succ_iff_lt_or_eq.mp (hlast ▸ hj) with hlt | rfl
      · simpa using hnone j hlt
      · simp [hp]
    rw [firstOrLast, hfind, Option.getD_none]
    omega

end MovingWindow
