import Mathlib.Algebra.BigOperators.Ring.List
import Mathlib.Algebra.Order.BigOperators.Group.List
import Mathlib.Algebra.Order.Field.Basic
import Mathlib.Data.Nat.Cast.Field
import Mathlib.Tactic.FieldSimp
import Mathlib.Tactic.LinearCombination
import Mathlib.Tactic.Ring

/-!
# Means and deviations

The mean of a list and the sum of the squared deviations from it. Both are found value by value,
with a deviation before and one after the mean has moved, and the deviations of two lists together
are those of each and the distance of their means. Populations are pooled by their moments; samples,
whose variance has one degree of freedom less, are not.
-/

namespace Deviations

section Lists

variable {K : Type*} [Field K]

/-- The arithmetic mean. -/
def mean (l : List K) : K := l.sum / l.length

/-- The sum of the squared deviations from the mean. -/
def squares (l : List K) : K := (l.map fun x => (x - mean l) ^ 2).sum

variable {l l' : List K}

theorem mean_perm (h : l.Perm l') : mean l = mean l' := by
  rw [mean, mean, h.sum_eq, h.length_eq]

theorem squares_perm (h : l.Perm l') : squares l = squares l' := by
  rw [squares, squares, mean_perm h]
  exact (h.map _).sum_eq

/-- The mean of two lists together. -/
theorem mean_append : mean (l ++ l') = (l.sum + l'.sum) / (l.length + l'.length) := by
  rw [mean, List.sum_append, List.length_append, Nat.cast_add]

/-- Values that do not deviate are all equal to the mean. -/
theorem eq_mean_of_squares_eq_zero [LinearOrder K] [IsStrictOrderedRing K] (h : squares l = 0)
    {x : K} (hx : x ∈ l) : x = mean l := by
  have hnonneg : ∀ y ∈ l.map fun x => (x - mean l) ^ 2, 0 ≤ y := by
    intro y hy
    obtain ⟨z, -, rfl⟩ := List.mem_map.mp hy
    exact sq_nonneg _
  have hle := List.single_le_sum hnonneg _ (List.mem_map_of_mem hx)
  have hzero : (x - mean l) ^ 2 = 0 := le_antisymm (h ▸ hle) (sq_nonneg _)
  exact sub_eq_zero.mp (pow_eq_zero_iff two_ne_zero |>.mp hzero)

variable [CharZero K]

theorem length_ne_zero (hne : l ≠ []) : (l.length : K) ≠ 0 :=
  Nat.cast_ne_zero.mpr (List.length_pos_iff.mpr hne).ne'

theorem sum_eq_length_mul_mean (hne : l ≠ []) : l.sum = l.length * mean l := by
  rw [mean, mul_div_cancel₀ _ (length_ne_zero hne)]

/-- The squared deviations from any value. -/
theorem sum_sq_sub (hne : l ≠ []) (c : K) :
    (l.map fun x => (x - c) ^ 2).sum = squares l + l.length * (mean l - c) ^ 2 := by
  have hexpand (c x : K) : (x - c) ^ 2 = x ^ 2 + (-2 * c * x + c ^ 2) := by ring
  have hlinear (c : K) : (l.map fun x => -2 * c * x).sum = -2 * c * l.sum := by
    rw [List.sum_map_mul_left, List.map_id']
  have hsum (c : K) : (l.map fun x => (x - c) ^ 2).sum =
      (l.map fun x => x ^ 2).sum + (-2 * c * l.sum + l.length * c ^ 2) := by
    simp only [hexpand c]
    rw [List.sum_map_add, List.sum_map_add, hlinear, List.map_const', List.sum_replicate,
      nsmul_eq_mul]
  rw [squares, hsum, hsum, sum_eq_length_mul_mean hne]
  ring

/-- The squared deviations of two lists together. -/
theorem squares_append (hne : l ≠ []) (hne' : l' ≠ []) :
    squares (l ++ l') = squares l + squares l' +
      l.length * l'.length / (l.length + l'.length) * (mean l - mean l') ^ 2 := by
  have hlength : (l.length + l'.length : K) ≠ 0 := by
    rw [← Nat.cast_add, ← List.length_append]
    exact length_ne_zero (List.append_ne_nil_of_left_ne_nil hne l')
  rw [squares, List.map_append, List.sum_append, sum_sq_sub hne, sum_sq_sub hne', mean_append,
    sum_eq_length_mul_mean hne, sum_eq_length_mul_mean hne']
  field_simp
  ring

/-- The mean moves by a share of the deviation of a new value. -/
theorem mean_concat (hne : l ≠ []) (x : K) :
    mean (l ++ [x]) = mean l + (x - mean l) / (l.length + 1) := by
  have hlength : (l.length + 1 : K) ≠ 0 := Nat.cast_add_one_ne_zero l.length
  rw [mean_append, sum_eq_length_mul_mean hne]
  simp only [List.sum_singleton, List.length_singleton, Nat.cast_one]
  field_simp
  ring

/-- The squared deviations grow by the product of the deviations of a new value from the old mean
and from the new one. -/
theorem squares_concat (hne : l ≠ []) (x : K) :
    squares (l ++ [x]) = squares l + (x - mean l) * (x - mean (l ++ [x])) := by
  have hlength : (l.length + 1 : K) ≠ 0 := Nat.cast_add_one_ne_zero l.length
  have hsingle : mean [x] = x := by simp [mean]
  have hzero : squares [x] = 0 := by simp [squares, hsingle]
  rw [squares_append hne (List.cons_ne_nil x []), mean_concat hne, hsingle, hzero]
  simp only [List.length_singleton, Nat.cast_one]
  field_simp
  ring

end Lists

/-- A number of values, their mean and a variance. -/
@[ext]
structure Moments (K : Type*) where
  weight : K
  mean : K
  variance : K

namespace Moments

variable {K : Type*} [Field K] {a b c : Moments K}

/-- The moments of two populations together. -/
def pool (a b : Moments K) : Moments K :=
  let weight := a.weight + b.weight
  let mean := (a.weight * a.mean + b.weight * b.mean) / weight
  ⟨weight, mean, (a.weight * (a.variance + (a.mean - mean) * (a.mean - mean)) +
    b.weight * (b.variance + (b.mean - mean) * (b.mean - mean))) / weight⟩

/-- The sum of the squares in a population. -/
def second (a : Moments K) : K := a.weight * (a.variance + a.mean ^ 2)

/-- Weight, sum and sum of squares say everything about a population that is not empty. -/
theorem eq_of_sums (hne : a.weight ≠ 0) (hweight : a.weight = b.weight)
    (hmean : a.weight * a.mean = b.weight * b.mean) (hsecond : a.second = b.second) : a = b := by
  rw [← hweight] at hmean
  have hmean' := mul_left_cancel₀ hne hmean
  rw [second, second, ← hweight, ← hmean'] at hsecond
  exact Moments.ext hweight hmean' (add_right_cancel (mul_left_cancel₀ hne hsecond))

theorem weight_pool : (a.pool b).weight = a.weight + b.weight := rfl

theorem sum_pool (h : a.weight + b.weight ≠ 0) :
    (a.pool b).weight * (a.pool b).mean = a.weight * a.mean + b.weight * b.mean :=
  mul_div_cancel₀ _ h

theorem second_pool (h : a.weight + b.weight ≠ 0) :
    (a.pool b).second = a.second + b.second := by
  have hmean := sum_pool h
  have hvariance : (a.weight + b.weight) * (a.pool b).variance =
      a.weight * (a.variance + (a.mean - (a.pool b).mean) * (a.mean - (a.pool b).mean)) +
        b.weight * (b.variance + (b.mean - (a.pool b).mean) * (b.mean - (a.pool b).mean)) :=
    mul_div_cancel₀ _ h
  rw [weight_pool] at hmean
  rw [second, second, second, weight_pool, mul_add, hvariance]
  linear_combination 2 * (a.pool b).mean * hmean

theorem pool_comm (a b : Moments K) : a.pool b = b.pool a := by
  simp only [pool, add_comm]

theorem pool_assoc (hab : a.weight + b.weight ≠ 0) (hbc : b.weight + c.weight ≠ 0)
    (habc : a.weight + b.weight + c.weight ≠ 0) : (a.pool b).pool c = a.pool (b.pool c) := by
  have hbc' : a.weight + (b.pool c).weight ≠ 0 := by rwa [weight_pool, ← add_assoc]
  refine eq_of_sums habc ?_ ?_ ?_
  · simp only [weight_pool, add_assoc]
  · rw [sum_pool habc, sum_pool hab, sum_pool hbc', sum_pool hbc, add_assoc]
  · rw [second_pool habc, second_pool hab, second_pool hbc', second_pool hbc, add_assoc]

/-- The variance within the populations and between them. -/
theorem variance_pool (h : a.weight + b.weight ≠ 0) :
    (a.pool b).variance = (a.weight * a.variance + b.weight * b.variance) / (a.weight + b.weight) +
      a.weight * b.weight * (a.mean - b.mean) ^ 2 / (a.weight + b.weight) ^ 2 := by
  simp only [pool]
  field_simp
  ring

end Moments

section Samples

variable {K : Type*} [Field K] [CharZero K] {l l' : List K}

/-- A sample with a given mean, and the variance that has one degree of freedom less. -/
def sample (l : List K) (m : K) : Moments K := ⟨l.length, m, squares l / (l.length - 1)⟩

/-- The pooled variance of two samples is that of the sample of both exactly when the distance of
their means makes up for the degrees of freedom. -/
theorem variance_pool_sample_iff (h : 2 ≤ l.length) (h' : 2 ≤ l'.length) (m m' : K) :
    ((sample l m).pool (sample l' m')).variance = (sample (l ++ l') 0).variance ↔
      (l.length + l'.length) * (l'.length * (sample l m).variance +
          l.length * (sample l' m').variance) +
        (l.length + l'.length - 1) * (l.length * l'.length * (m - m') ^ 2) =
      (l.length + l'.length) * (l.length * l'.length * (mean l - mean l') ^ 2) := by
  have hne : l ≠ [] := List.length_pos_iff.mp (by omega)
  have hne' : l' ≠ [] := List.length_pos_iff.mp (by omega)
  have hless {n : ℕ} (hn : 2 ≤ n) : (n : K) - 1 ≠ 0 := by
    rw [sub_ne_zero]
    exact_mod_cast (show n ≠ 1 by omega)
  have hboth := hless (show 2 ≤ l.length + l'.length by omega)
  have hlength : (l.length : K) + l'.length ≠ 0 := by
    exact_mod_cast (show l.length + l'.length ≠ 0 by omega)
  rw [Nat.cast_add] at hboth
  have hsquares : squares l = (l.length - 1) * (sample l m).variance :=
    (mul_div_cancel₀ _ (hless h)).symm
  have hsquares' : squares l' = (l'.length - 1) * (sample l' m').variance :=
    (mul_div_cancel₀ _ (hless h')).symm
  have hpool := @Moments.variance_pool K _ (sample l m) (sample l' m') hlength
  have htogether : (sample (l ++ l') 0).variance = (squares l + squares l' +
      l.length * l'.length / (l.length + l'.length) * (mean l - mean l') ^ 2) /
        (l.length + l'.length - 1) := by
    simp only [sample, squares_append hne hne', List.length_append, Nat.cast_add]
  rw [hpool, htogether, hsquares, hsquares']
  generalize (sample l m).variance = v
  generalize (sample l' m').variance = v'
  simp only [sample]
  rw [← sub_eq_zero, ← @sub_eq_zero K _ (_ + _) (_ * _)]
  have hdifference : (l.length * v + l'.length * v') / (l.length + l'.length) +
      l.length * l'.length * (m - m') ^ 2 / (l.length + l'.length) ^ 2 -
        ((l.length - 1) * v + (l'.length - 1) * v' +
          l.length * l'.length / (l.length + l'.length) * (mean l - mean l') ^ 2) /
            (l.length + l'.length - 1) =
      ((l.length + l'.length) * (l'.length * v + l.length * v') +
        (l.length + l'.length - 1) * (l.length * l'.length * (m - m') ^ 2) -
          (l.length + l'.length) * (l.length * l'.length * (mean l - mean l') ^ 2)) /
            ((l.length + l'.length) ^ 2 * (l.length + l'.length - 1) : K) := by
    field_simp
    ring
  rw [hdifference, div_eq_zero_iff]
  exact or_iff_left (mul_ne_zero (pow_ne_zero 2 hlength) hboth)

end Samples

end Deviations
