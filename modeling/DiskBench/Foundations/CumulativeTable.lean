import Mathlib.Algebra.BigOperators.Group.Finset.Basic
import Mathlib.Algebra.Order.BigOperators.Group.Finset
import Mathlib.Algebra.Order.Field.Basic
import Mathlib.Algebra.Order.Floor.Semiring
import Mathlib.Tactic.Linarith

/-!
# Cumulative tables

A draw among weighted entries by a table of thresholds. The entries from `start` on hold the partial
sums of the weights, divided by their total and scaled to a largest draw. Tables are filled entry by
entry, and the lookup takes the first entry whose threshold is above the draw.
-/

namespace CumulativeTable

section Filled

variable {α : Type*}

/-- The `m` entries from `start` on are the first values of a sequence. -/
def Filled (table : ℕ → Option α) (values : ℕ → α) (start m : ℕ) : Prop :=
  ∀ k < m, table (start + k) = some (values k)

variable {table : ℕ → Option α} {values : ℕ → α} {start m : ℕ}

theorem Filled.zero (table : ℕ → Option α) (values : ℕ → α) (start : ℕ) :
    Filled table values start 0 :=
  fun _ hk => absurd hk (Nat.not_lt_zero _)

/-- One more entry. -/
theorem Filled.update (h : Filled table values start m) :
    Filled (Function.update table (start + m) (some (values m))) values start (m + 1) := by
  intro k hk
  obtain hlt | rfl := Nat.lt_succ_iff_lt_or_eq.mp hk
  · rw [Function.update_of_ne (by omega), h k hlt]
  · rw [Function.update_self]

end Filled

section Lookup

variable {τ β : Type*} [LT τ] [DecidableLT τ]

/-- The value of the first of `n` entries from `i` on whose threshold is above the draw, and that of
the entry behind them when there is none. An entry that has not been filled stops the lookup. -/
def lookup (table : ℕ → Option τ) (value : ℕ → Option β) (draw : τ) : ℕ → ℕ → Option β
  | 0, i => value i
  | n + 1, i => (table i).bind fun threshold =>
      if draw < threshold then value i else lookup table value draw n (i + 1)

/-- A lookup in filled entries ends with one of them, or with the one behind. -/
theorem lookup_eq {table : ℕ → Option τ} (value : ℕ → Option β) (draw : τ) {n i : ℕ}
    (h : ∀ j, i ≤ j → j < i + n → (table j).isSome) :
    ∃ j, i ≤ j ∧ j ≤ i + n ∧ lookup table value draw n i = value j := by
  induction n generalizing i with
  | zero => exact ⟨i, Nat.le_refl _, Nat.le_refl _, rfl⟩
  | succ n ih =>
    obtain ⟨threshold, hthreshold⟩ :=
      Option.isSome_iff_exists.mp (h i (Nat.le_refl _) (by omega))
    rw [lookup, hthreshold, Option.bind_some]
    split
    · exact ⟨i, Nat.le_refl _, by omega, rfl⟩
    · obtain ⟨j, hij, hjn, heq⟩ := ih fun j (hj : i + 1 ≤ j) hjn => h j (by omega) (by omega)
      exact ⟨j, by omega, by omega, heq⟩

end Lookup

section Cumulative

variable {K : Type*} [Field K]

/-- The sum of the weights from `start` up to the entry `n` places behind. -/
def cumulative (weight : ℕ → K) (start n : ℕ) : K :=
  ∑ k ∈ Finset.range (n + 1), weight (start + k)

/-- The threshold of the entry `n` places behind the start: its part of the total up to the entry
`last` places behind, of a largest draw. -/
def threshold [LinearOrder K] [FloorSemiring K] (largest : ℕ) (weight : ℕ → K)
    (start last n : ℕ) : ℕ :=
  ⌊largest * (cumulative weight start n / cumulative weight start last)⌋₊

/-- The first draw of the entry `n` places behind the start. -/
def firstDraw [LinearOrder K] [FloorSemiring K] (largest : ℕ) (weight : ℕ → K)
    (start last : ℕ) : ℕ → ℕ
  | 0 => 0
  | n + 1 => threshold largest weight start last n

/-- The draw behind the last one of the entry. The last entry takes the largest draw. -/
def endDraw [LinearOrder K] [FloorSemiring K] (largest : ℕ) (weight : ℕ → K)
    (start last n : ℕ) : ℕ :=
  if n = last then largest + 1 else threshold largest weight start last n

variable {weight : ℕ → K} {start : ℕ}

theorem cumulative_zero : cumulative weight start 0 = weight start := by
  simp [cumulative]

theorem cumulative_succ (n : ℕ) :
    cumulative weight start (n + 1) = weight (start + (n + 1)) + cumulative weight start n := by
  rw [cumulative, Finset.sum_range_succ, add_comm, ← cumulative]

variable [LinearOrder K] [IsStrictOrderedRing K] {last : ℕ}

/-- A total of `last + 1` weights that are at most `bound`. -/
theorem cumulative_le {bound : K} (hweight : ∀ k ≤ last, weight (start + k) ≤ bound) :
    cumulative weight start last ≤ (last + 1) * bound := by
  have hsum := Finset.sum_le_card_nsmul (Finset.range (last + 1)) (fun k => weight (start + k))
    bound fun k hk => hweight k (Nat.lt_succ_iff.mp (Finset.mem_range.mp hk))
  rw [Finset.card_range, nsmul_eq_mul, Nat.cast_add, Nat.cast_one] at hsum
  exact hsum

section Positive

variable (hweight : ∀ k ≤ last, 0 < weight (start + k))

include hweight

theorem cumulative_mono {m n : ℕ} (hmn : m ≤ n) (hn : n ≤ last) :
    cumulative weight start m ≤ cumulative weight start n :=
  Finset.sum_le_sum_of_subset_of_nonneg (Finset.range_mono (Nat.succ_le_succ hmn))
    fun k hk _ => (hweight k (by have := Finset.mem_range.mp hk; omega)).le

theorem cumulative_pos {n : ℕ} (hn : n ≤ last) : 0 < cumulative weight start n := by
  have hfirst : cumulative weight start 0 ≤ cumulative weight start n :=
    cumulative_mono hweight (Nat.zero_le n) hn
  rw [cumulative_zero] at hfirst
  exact (hweight 0 (Nat.zero_le last)).trans_le hfirst

variable [FloorSemiring K] (largest : ℕ)

theorem threshold_mono {m n : ℕ} (hmn : m ≤ n) (hn : n ≤ last) :
    threshold largest weight start last m ≤ threshold largest weight start last n :=
  Nat.floor_le_floor (mul_le_mul_of_nonneg_left
    (div_le_div_of_nonneg_right (cumulative_mono hweight hmn hn)
      (cumulative_pos hweight (Nat.le_refl last)).le) (Nat.cast_nonneg _))

/-- The last threshold is the largest draw. -/
theorem threshold_last : threshold largest weight start last last = largest := by
  rw [threshold, div_self (cumulative_pos hweight (Nat.le_refl last)).ne', mul_one,
    Nat.floor_natCast]

theorem threshold_le {n : ℕ} (hn : n ≤ last) : threshold largest weight start last n ≤ largest :=
  (threshold_mono hweight largest hn (Nat.le_refl last)).trans_eq (threshold_last hweight largest)

/-- A part of the total that is not too small has a positive threshold. -/
theorem threshold_pos {n : ℕ}
    (h : cumulative weight start last ≤ largest * cumulative weight start n) :
    0 < threshold largest weight start last n := by
  rw [threshold, Nat.floor_pos, mul_div_assoc',
    one_le_div (cumulative_pos hweight (Nat.le_refl last))]
  exact h

/-- The thresholds are the parts of the total but for the rounding. -/
theorem threshold_bounds {n : ℕ} (hn : n ≤ last) :
    (threshold largest weight start last n : K) ≤
        largest * (cumulative weight start n / cumulative weight start last) ∧
      largest * (cumulative weight start n / cumulative weight start last) <
        threshold largest weight start last n + 1 := by
  have hpart : 0 ≤ cumulative weight start n / cumulative weight start last :=
    div_nonneg (cumulative_pos hweight hn).le (cumulative_pos hweight (Nat.le_refl last)).le
  exact ⟨Nat.floor_le (mul_nonneg (Nat.cast_nonneg largest) hpart), Nat.lt_floor_add_one _⟩

/-- The draws of an entry are as many as its weight says, but for less than two. -/
theorem abs_draws_sub_lt {n : ℕ} (hn : n ≤ last) :
    firstDraw largest weight start last n ≤ endDraw largest weight start last n ∧
      |((endDraw largest weight start last n - firstDraw largest weight start last n : ℕ) : K) -
        largest * (weight (start + n) / cumulative weight start last)| < 2 := by
  have hend : largest * (cumulative weight start n / cumulative weight start last) - 1 <
        (endDraw largest weight start last n : K) ∧
      (endDraw largest weight start last n : K) ≤
        largest * (cumulative weight start n / cumulative weight start last) + 1 := by
    rw [endDraw]
    split
    next hlast =>
      subst hlast
      rw [div_self (cumulative_pos hweight (Nat.le_refl n)).ne', mul_one]
      push_cast
      constructor <;> linarith
    next =>
      have hbounds := threshold_bounds hweight largest hn
      constructor <;> linarith
  have hfirst : firstDraw largest weight start last n ≤ endDraw largest weight start last n ∧
      largest * (cumulative weight start n / cumulative weight start last) -
          largest * (weight (start + n) / cumulative weight start last) - 1 <
        (firstDraw largest weight start last n : K) ∧
      (firstDraw largest weight start last n : K) ≤
        largest * (cumulative weight start n / cumulative weight start last) -
          largest * (weight (start + n) / cumulative weight start last) := by
    cases n with
    | zero =>
      rw [firstDraw, cumulative_zero, Nat.add_zero, sub_self, Nat.cast_zero]
      exact ⟨Nat.zero_le _, by linarith, le_refl 0⟩
    | succ n =>
      have hbounds := threshold_bounds hweight largest (Nat.le_of_succ_le hn)
      have hmono : threshold largest weight start last n ≤
          threshold largest weight start last (n + 1) :=
        threshold_mono hweight largest (Nat.le_succ n) hn
      have hle := threshold_le hweight largest hn
      rw [firstDraw, cumulative_succ, add_div, mul_add, add_sub_cancel_left]
      refine ⟨?_, by linarith, hbounds.1⟩
      rw [endDraw]
      split <;> omega
  refine ⟨hfirst.1, ?_⟩
  rw [Nat.cast_sub hfirst.1, abs_lt]
  constructor <;> linarith

end Positive

end Cumulative

end CumulativeTable
