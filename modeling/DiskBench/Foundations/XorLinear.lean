import Mathlib.Data.Nat.Bitwise
import Mathlib.Logic.Function.Iterate

/-!
# Functions that are linear for the exclusive or

The values of such a function at the powers of two, its columns, give all its values, and applied to
its own columns it gives those of its square. An iterate takes as many squares as its number has
binary digits.
-/

namespace XorLinear

/-- The exclusive or of the columns at the bits of a word. The operations are those that the kernel
evaluates on numerals. -/
def combine : List ℕ → ℕ → ℕ
  | [], _ => 0
  | c :: cs, x => Nat.xor (Nat.mul (Nat.mod x 2) c) (combine cs (Nat.div x 2))

/-- The values at the powers of two below `2 ^ w`. -/
def columns (w : ℕ) (g : ℕ → ℕ) : List ℕ := (List.range w).map fun i => g (2 ^ i)

/-- An iterate for a number of `k` binary digits, by squaring. -/
def power : ℕ → List ℕ → ℕ → ℕ → ℕ
  | 0, _, _, x => x
  | k + 1, cs, n, x =>
    power k (cs.map (combine cs)) (n / 2) (if n % 2 = 1 then combine cs x else x)

/-- A function on words of `w` bits that is linear for the exclusive or. -/
structure Linear (w : ℕ) (g : ℕ → ℕ) : Prop where
  xor : ∀ x y, g (x ^^^ y) = g x ^^^ g y
  lt : ∀ x, g x < 2 ^ w

section Combine

variable {w : ℕ} {g : ℕ → ℕ}

theorem zero_of_xor (hxor : ∀ x y, g (x ^^^ y) = g x ^^^ g y) : g 0 = 0 := by
  have hzero := hxor 0 0
  rw [Nat.xor_self] at hzero
  rw [hzero, Nat.xor_self]

/-- A word is its last bit and the others. -/
theorem xor_mod_div (x : ℕ) : (x % 2) ^^^ (2 * (x / 2)) = x := by
  apply Nat.eq_of_testBit_eq
  intro i
  cases i with
  | zero => simp [Nat.testBit_zero]
  | succ i =>
    have hlast : x % 2 / 2 = 0 := by omega
    rw [Nat.testBit_succ, Nat.testBit_succ, Nat.xor_div_two, hlast, Nat.zero_xor,
      Nat.mul_div_cancel_left _ Nat.two_pos]

/-- The columns of a linear function give its values. -/
theorem combine_columns (hxor : ∀ x y, g (x ^^^ y) = g x ^^^ g y) {x : ℕ} (hx : x < 2 ^ w) :
    combine (columns w g) x = g x := by
  induction w generalizing g x with
  | zero =>
    obtain rfl : x = 0 := by omega
    exact (zero_of_xor hxor).symm
  | succ w ih =>
    have hdouble : ∀ y y', g (2 * (y ^^^ y')) = g (2 * y) ^^^ g (2 * y') := by
      intro y y'
      rw [← hxor]
      congr 1
      simpa [Nat.shiftLeft_eq, Nat.mul_comm] using @Nat.shiftLeft_xor_distrib 1 y y'
    have hcolumns : columns (w + 1) g = g 1 :: columns w fun y => g (2 * y) := by
      simp only [columns, List.range_succ_eq_map, List.map_cons, List.map_map, pow_zero,
        List.cons.injEq, true_and]
      refine List.map_congr_left fun i _ => ?_
      show g (2 ^ (i + 1)) = g (2 * 2 ^ i)
      rw [pow_succ, Nat.mul_comm]
    have hlast : x % 2 * g 1 = g (x % 2) := by
      obtain hbit | hbit := Nat.mod_two_eq_zero_or_one x
      · rw [hbit, Nat.zero_mul, zero_of_xor hxor]
      · rw [hbit, Nat.one_mul]
    have hrest : combine (columns w fun y => g (2 * y)) (x / 2) = g (2 * (x / 2)) :=
      ih hdouble (by omega)
    rw [hcolumns, combine]
    show (x % 2 * g 1) ^^^ combine (columns w fun y => g (2 * y)) (x / 2) = g x
    rw [hlast, hrest, ← hxor, xor_mod_div]

end Combine

section Power

variable {w : ℕ} {g : ℕ → ℕ}

theorem Linear.square (h : Linear w g) : Linear w fun x => g (g x) :=
  ⟨fun x y => by rw [h.xor, h.xor], fun x => h.lt (g x)⟩

/-- A linear function applied to its columns gives those of its square. -/
theorem Linear.columns_square (h : Linear w g) :
    (columns w g).map (combine (columns w g)) = columns w fun x => g (g x) := by
  rw [columns, columns, List.map_map]
  refine List.map_congr_left fun i _ => ?_
  exact combine_columns h.xor (h.lt (2 ^ i))

theorem iterate_square (g : ℕ → ℕ) (n : ℕ) : (fun x => g (g x))^[n] = g^[2 * n] := by
  rw [Function.iterate_mul]
  rfl

/-- **Iterates by squaring.** -/
theorem Linear.power_eq (h : Linear w g) {k n x : ℕ} (hn : n < 2 ^ k) (hx : x < 2 ^ w) :
    power k (columns w g) n x = g^[n] x := by
  induction k generalizing g n x with
  | zero =>
    obtain rfl : n = 0 := by omega
    rfl
  | succ k ih =>
    have hhalf : n / 2 < 2 ^ k := by omega
    rw [power, h.columns_square]
    split
    next hodd =>
      rw [combine_columns h.xor hx, ih h.square hhalf (h.lt x), iterate_square,
        ← Function.iterate_succ_apply]
      congr 1
      omega
    next heven =>
      rw [ih h.square hhalf hx, iterate_square]
      congr 1
      omega

end Power

end XorLinear
