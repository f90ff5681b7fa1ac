import Mathlib.Data.List.Basic

/-!
# Ranges and the prefix they cover

A range is a pair of a start and a length. `PrefixEnd ranges x` says that `[0, x)`
is the longest initial segment of the natural numbers that a list of ranges covers.
-/

namespace Coverage

/-- Some range of the list contains the position `b`. -/
def Covers (ranges : List (ℕ × ℕ)) (b : ℕ) : Prop :=
  ∃ r ∈ ranges, r.1 ≤ b ∧ b < r.1 + r.2

/-- `[0, x)` is the longest initial segment covered by the ranges. -/
def PrefixEnd (ranges : List (ℕ × ℕ)) (x : ℕ) : Prop :=
  (∀ b, b < x → Covers ranges b) ∧ ¬Covers ranges x

/-- The longest covered initial segment is unique. -/
theorem PrefixEnd.unique {ranges : List (ℕ × ℕ)} {x y : ℕ} (hx : PrefixEnd ranges x)
    (hy : PrefixEnd ranges y) : x = y := by
  rcases Nat.lt_trichotomy x y with hlt | heq | hgt
  · exact absurd (hy.1 x hlt) hx.2
  · exact heq
  · exact absurd (hx.1 y hgt) hy.2

end Coverage
