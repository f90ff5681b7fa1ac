import Mathlib.Algebra.Order.Field.Basic
import Mathlib.Algebra.Order.Floor.Semiring
import Mathlib.Data.List.Sort

/-!
# Nearest ranks

The element of a rank in the sorted order of a list, found by counts: when a monotone map puts the
elements into numbered buckets, its bucket is the first one up to which the elements reach the rank.
-/

namespace NearestRank

variable {α : Type*} [LinearOrder α]

/-- In a sorted list the elements up to a bucket reach behind a place when its own element is one of
them. -/
theorem lt_countP_iff {β : Type*} [LinearOrder β] {f : α → β} {l : List α}
    (hl : l.Pairwise (· ≤ ·)) (hf : ∀ x ∈ l, ∀ y ∈ l, x ≤ y → f x ≤ f y) {k : ℕ}
    (hk : k < l.length) (b : β) : k < l.countP (fun x => f x ≤ b) ↔ f l[k] ≤ b := by
  induction l generalizing k with
  | nil => exact absurd hk (Nat.not_lt_zero k)
  | cons x l ih =>
    obtain ⟨hx, hl⟩ := List.pairwise_cons.mp hl
    have hle : ∀ y ∈ l, f x ≤ f y :=
      fun y hy => hf x List.mem_cons_self y (List.mem_cons_of_mem x hy) (hx y hy)
    by_cases hb : f x ≤ b
    · rw [List.countP_cons_of_pos (by simpa using hb)]
      cases k with
      | zero => simpa using hb
      | succ k =>
        rw [List.getElem_cons_succ, ← ih hl (fun y hy z hz => hf y (List.mem_cons_of_mem x hy) z
          (List.mem_cons_of_mem x hz)), Nat.succ_lt_succ_iff]
    · have hnone : (x :: l).countP (fun x => f x ≤ b) = 0 := by
        rw [List.countP_eq_zero]
        intro y hy
        rw [decide_eq_true_iff]
        obtain rfl | hmem := List.mem_cons.mp hy
        · exact hb
        · exact fun h => hb ((hle y hmem).trans h)
      rw [hnone]
      refine iff_of_false (Nat.not_lt_zero k) ?_
      cases k with
      | zero => exact hb
      | succ k => exact fun h => hb ((hle _ (List.getElem_mem _)).trans h)

/-- The list in its sorted order. -/
def sorted (l : List α) : List α := l.mergeSort

theorem sorted_perm (l : List α) : (sorted l).Perm l := List.mergeSort_perm l _

theorem pairwise_sorted (l : List α) : (sorted l).Pairwise (· ≤ ·) :=
  List.pairwise_mergeSort' (· ≤ ·) l

/-- The element of a rank, counted from 1, in the sorted order. -/
def ofRank (l : List α) (rank : ℕ) : Option α := (sorted l)[rank - 1]?

theorem mem_of_ofRank {l : List α} {rank : ℕ} {x : α} (h : ofRank l rank = some x) : x ∈ l :=
  (sorted_perm l).mem_iff.mp (List.mem_of_getElem? h)

/-- The ranks of a list have an element each, and the elements up to a bucket reach the rank exactly
from the bucket of this element on. -/
theorem exists_ofRank {β : Type*} [LinearOrder β] {f : α → β} {l : List α}
    (hf : ∀ x ∈ l, ∀ y ∈ l, x ≤ y → f x ≤ f y) {rank : ℕ} (hpos : 0 < rank)
    (hle : rank ≤ l.length) :
    ∃ x, ofRank l rank = some x ∧ ∀ b, rank ≤ l.countP (fun y => f y ≤ b) ↔ f x ≤ b := by
  have hperm := sorted_perm l
  have hlt : rank - 1 < (sorted l).length := by
    rw [hperm.length_eq]
    omega
  refine ⟨(sorted l)[rank - 1], List.getElem?_eq_getElem hlt, fun b => ?_⟩
  rw [← hperm.countP_eq, ← lt_countP_iff (pairwise_sorted l) (fun x hx y hy =>
    hf x (hperm.mem_iff.mp hx) y (hperm.mem_iff.mp hy)) hlt b]
  omega

/-- A larger rank has no smaller element. -/
theorem ofRank_le {l : List α} {rank rank' : ℕ} (h : rank ≤ rank') {x y : α}
    (hx : ofRank l rank = some x) (hy : ofRank l rank' = some y) : x ≤ y := by
  obtain ⟨hlt, rfl⟩ := List.getElem?_eq_some_iff.mp hx
  obtain ⟨hlt', rfl⟩ := List.getElem?_eq_some_iff.mp hy
  obtain heq | hless := Nat.eq_or_lt_of_le (Nat.sub_le_sub_right h 1)
  · simp only [heq, le_refl]
  · exact List.pairwise_iff_getElem.mp (pairwise_sorted l) _ _ hlt hlt' hless

section Percentage

variable {K : Type*} [Field K] [LinearOrder K] [IsStrictOrderedRing K] [FloorSemiring K]

/-- A share of the elements in percent is reached when the rank is. -/
theorem percentage_le_iff {percentile : K} {count total : ℕ} (htotal : 0 < total) :
    percentile ≤ 100 * (count : K) / total ↔ ⌈percentile * total / 100⌉₊ ≤ count := by
  have htotal' : (0 : K) < total := Nat.cast_pos.mpr htotal
  rw [Nat.ceil_le, div_le_iff₀ (by norm_num), le_div_iff₀ htotal', mul_comm (100 : K)]

/-- The rank of a percentage is one of the list's. -/
theorem rank_bounds {percentile : K} {total : ℕ} (htotal : 0 < total) (hpos : 0 < percentile)
    (hle : percentile ≤ 100) :
    0 < ⌈percentile * total / 100⌉₊ ∧ ⌈percentile * total / 100⌉₊ ≤ total := by
  have htotal' : (0 : K) < total := Nat.cast_pos.mpr htotal
  constructor
  · exact Nat.ceil_pos.mpr (div_pos (mul_pos hpos htotal') (by norm_num))
  · rw [Nat.ceil_le, div_le_iff₀ (by norm_num), mul_comm (total : K)]
    exact mul_le_mul_of_nonneg_right hle htotal'.le

/-- A larger percentage has no smaller rank. -/
theorem rank_mono {p q : K} (total : ℕ) (h : p ≤ q) :
    ⌈p * total / 100⌉₊ ≤ ⌈q * total / 100⌉₊ :=
  Nat.ceil_mono (div_le_div_of_nonneg_right
    (mul_le_mul_of_nonneg_right h (Nat.cast_nonneg total)) (by norm_num))

end Percentage

/-- One more bucket. -/
theorem countP_lt_succ {α : Type*} (index : α → ℤ) (l : List α) (b : ℤ) :
    l.countP (fun x => index x < b + 1) =
      l.countP (fun x => index x < b) + l.countP (fun x => index x = b) := by
  induction l with
  | nil => rfl
  | cons x l ih =>
    simp only [List.countP_cons, ih, decide_eq_true_iff]
    split_ifs <;> omega

end NearestRank
