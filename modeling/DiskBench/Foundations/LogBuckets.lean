import Mathlib.Algebra.Order.Group.Abs
import Mathlib.Algebra.Order.Ring.Int
import Mathlib.Data.Nat.Log
import Mathlib.Order.Monotone.Basic

/-!
# Logarithmic buckets

Numbers are sorted into buckets by their leading bits: each power of two above the first ones is cut
into `2^bits` buckets of one width. A bucket has a number, which grows with the numbers in it.
-/

namespace LogBuckets

/-- The bits that a number loses behind its leading `bits + 1` ones. -/
def exponent (bits x : ℕ) : ℕ := x.log2 - bits

/-- The leading bits of a number. -/
def mantissa (bits x : ℕ) : ℕ := x / 2 ^ exponent bits x

/-- The number of the bucket. -/
def bucket (bits x : ℕ) : ℕ := exponent bits x * 2 ^ bits + mantissa bits x

variable {bits x y e m r : ℕ}

theorem exponent_of_lt (h : x < 2 ^ (bits + 1)) : exponent bits x = 0 := by
  obtain rfl | hne := Nat.eq_zero_or_pos x
  · simp [exponent]
  · have hlog := (Nat.log2_lt hne.ne').mpr h
    rw [exponent]
    omega

/-- The numbers of at most `bits + 1` bits have a bucket each. -/
theorem bucket_of_lt (h : x < 2 ^ (bits + 1)) : bucket bits x = x := by
  rw [bucket, mantissa, exponent_of_lt h, Nat.zero_mul, Nat.zero_add, Nat.pow_zero, Nat.div_one]

/-- Leading bits in front of other ones. -/
theorem exponent_mul_add (hm : m < 2 ^ (bits + 1)) (hle : e ≠ 0 → 2 ^ bits ≤ m) (hr : r < 2 ^ e) :
    exponent bits (m * 2 ^ e + r) = e := by
  obtain rfl | he := Nat.eq_zero_or_pos e
  · apply exponent_of_lt
    rw [Nat.pow_zero] at hr ⊢
    omega
  · have hle' := hle he.ne'
    have hpos : m * 2 ^ e + r ≠ 0 := by
      have hbits := Nat.two_pow_pos bits
      have hfirst := Nat.mul_pos (show 0 < m by omega) (Nat.two_pow_pos e)
      omega
    have hlog : (m * 2 ^ e + r).log2 = bits + e := by
      rw [Nat.log2_eq_iff hpos]
      constructor
      · rw [Nat.pow_add]
        exact (Nat.mul_le_mul_right _ hle').trans (Nat.le_add_right _ _)
      · rw [Nat.add_right_comm, Nat.pow_add]
        calc m * 2 ^ e + r < (m + 1) * 2 ^ e := by rw [Nat.add_mul, Nat.one_mul]; omega
          _ ≤ 2 ^ (bits + 1) * 2 ^ e := Nat.mul_le_mul_right _ hm
    rw [exponent, hlog]
    omega

/-- A number with given leading bits is in their bucket. -/
theorem bucket_mul_add (hm : m < 2 ^ (bits + 1)) (hle : e ≠ 0 → 2 ^ bits ≤ m) (hr : r < 2 ^ e) :
    bucket bits (m * 2 ^ e + r) = e * 2 ^ bits + m := by
  rw [bucket, mantissa, exponent_mul_add hm hle hr, Nat.mul_comm m,
    Nat.mul_add_div (Nat.two_pow_pos e), Nat.div_eq_of_lt hr, Nat.add_zero]

/-- The leading bits of a number, and the other ones. -/
theorem eq_mantissa_mul_add (bits x : ℕ) :
    x = mantissa bits x * 2 ^ exponent bits x + x % 2 ^ exponent bits x :=
  (Nat.div_add_mod' _ _).symm

theorem mantissa_lt (bits x : ℕ) : mantissa bits x < 2 ^ (bits + 1) := by
  rw [mantissa, Nat.div_lt_iff_lt_mul (Nat.two_pow_pos _), ← Nat.pow_add]
  refine Nat.lt_log2_self.trans_le (Nat.pow_le_pow_right (by decide) ?_)
  rw [exponent]
  omega

theorem le_mantissa (h : exponent bits x ≠ 0) : 2 ^ bits ≤ mantissa bits x := by
  have hpos : x ≠ 0 := by
    rintro rfl
    exact h (by simp [exponent])
  rw [mantissa, Nat.le_div_iff_mul_le (Nat.two_pow_pos _), ← Nat.pow_add]
  refine (Nat.pow_le_pow_right (by decide) ?_).trans (Nat.log2_self_le hpos)
  rw [exponent] at h ⊢
  omega

/-- A larger number is in no earlier bucket. -/
theorem bucket_monotone (bits : ℕ) : Monotone (bucket bits) := by
  intro x y hxy
  have hexponent : exponent bits x ≤ exponent bits y := by
    rw [exponent, exponent, Nat.log2_eq_log_two, Nat.log2_eq_log_two]
    exact Nat.sub_le_sub_right (Nat.log_mono_right hxy) bits
  obtain heq | hlt := Nat.eq_or_lt_of_le hexponent
  · rw [bucket, bucket, mantissa, mantissa, heq]
    exact Nat.add_le_add_left (Nat.div_le_div_right hxy) _
  · have hmantissa := mantissa_lt bits x
    have hfirst := le_mantissa (show exponent bits y ≠ 0 by omega)
    have hstep := Nat.mul_le_mul_right (2 ^ bits) (Nat.succ_le_of_lt hlt)
    rw [Nat.succ_mul] at hstep
    rw [Nat.pow_succ] at hmantissa
    rw [bucket, bucket]
    omega

/-- A number differs from one in the middle of its bucket by half of the width at most, which is a
`2^(bits+1)`-th of the number. -/
theorem abs_sub_middle_le {c : ℕ} (he : exponent bits x ≠ 0)
    (hc : c ≤ 2 ^ (exponent bits x - 1)) (hc' : 2 ^ (exponent bits x - 1) ≤ c + 1) :
    2 ^ (bits + 1) * |((mantissa bits x * 2 ^ exponent bits x + c : ℕ) : ℤ) - x| ≤ x := by
  obtain ⟨e, hexponent⟩ := Nat.exists_eq_succ_of_ne_zero he
  have hsplit := eq_mantissa_mul_add bits x
  have hlast := Nat.mod_lt x (Nat.two_pow_pos (exponent bits x))
  have hfirst := le_mantissa he
  rw [hexponent, Nat.succ_eq_add_one] at hsplit hlast hc hc' ⊢
  rw [Nat.add_sub_cancel] at hc hc'
  generalize x % 2 ^ (e + 1) = r at hsplit hlast
  have hhalf : |(c : ℤ) - r| ≤ (2 ^ e : ℕ) := by
    rw [Nat.pow_succ] at hlast
    rw [abs_le]
    omega
  have hwidth : 2 ^ (bits + 1) * 2 ^ e ≤ x := by
    calc 2 ^ (bits + 1) * 2 ^ e = 2 ^ bits * 2 ^ (e + 1) := by
          rw [← Nat.pow_add, ← Nat.pow_add]
          congr 1
          omega
      _ ≤ mantissa bits x * 2 ^ (e + 1) := Nat.mul_le_mul_right _ hfirst
      _ ≤ x := by omega
  have hdiff : ((mantissa bits x * 2 ^ (e + 1) + c : ℕ) : ℤ) - x = c - r := by
    rw [Nat.cast_add]
    omega
  calc 2 ^ (bits + 1) * |((mantissa bits x * 2 ^ (e + 1) + c : ℕ) : ℤ) - x|
      ≤ 2 ^ (bits + 1) * (2 ^ e : ℕ) := by
        rw [hdiff]
        exact mul_le_mul_of_nonneg_left hhalf (pow_nonneg (by decide) _)
    _ ≤ x := by exact_mod_cast hwidth

end LogBuckets
