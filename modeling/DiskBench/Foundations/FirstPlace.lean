import Mathlib.Algebra.Order.Field.Basic
import Mathlib.Data.Nat.Cast.Order.Field

/-!
# The first place that reaches a share

A scan over counts stops at the first place up to which they make up a share of all of them. When
the counts of two lists are added up, the scan stops between the places of both: the sum reaches the
share where both lists do, and only where one of them does.
-/

namespace FirstPlace

section Place

variable {n a b c : ℕ} {A B C : ℕ → Prop}

/-- The first of `n` places at which a condition holds, or `n` without one. The condition holds from
its first place on. -/
structure IsFirst (n : ℕ) (A : ℕ → Prop) (a : ℕ) : Prop where
  le : a ≤ n
  le_iff : ∀ k, k < n → (a ≤ k ↔ A k)

/-- A condition between two others has its first place between theirs. -/
theorem IsFirst.between (ha : IsFirst n A a) (hb : IsFirst n B b) (hc : IsFirst n C c)
    (hboth : ∀ k, k < n → A k → B k → C k) (hone : ∀ k, k < n → C k → A k ∨ B k) :
    min a b ≤ c ∧ c ≤ max a b := by
  constructor
  · obtain hlt | heq := hc.le.lt_or_eq
    · obtain h | h := hone c hlt ((hc.le_iff c hlt).mp (Nat.le_refl c))
      · exact (Nat.min_le_left a b).trans ((ha.le_iff c hlt).mpr h)
      · exact (Nat.min_le_right a b).trans ((hb.le_iff c hlt).mpr h)
    · exact heq ▸ (Nat.min_le_left a b).trans ha.le
  · obtain hlt | heq := (Nat.max_le.mpr ⟨ha.le, hb.le⟩).lt_or_eq
    · refine (hc.le_iff _ hlt).mpr (hboth _ hlt ?_ ?_)
      · exact (ha.le_iff _ hlt).mp (Nat.le_max_left a b)
      · exact (hb.le_iff _ hlt).mp (Nat.le_max_right a b)
    · exact heq ▸ hc.le

end Place

section Share

variable {K : Type*} [Field K] [LinearOrder K] [IsStrictOrderedRing K] {p : K}
  {part part' total total' : ℕ}

/-- A part makes up a share of a total; no part of nothing does. -/
def Reached (p : K) (part total : ℕ) : Prop := total ≠ 0 ∧ p * total ≤ part

theorem Reached.mono (h : Reached p part total) (hle : part ≤ part') : Reached p part' total :=
  ⟨h.1, h.2.trans (Nat.cast_le.mpr hle)⟩

/-- What both parts make up of their totals they make up together. -/
theorem Reached.add (h : Reached p part total) (h' : Reached p part' total') :
    Reached p (part + part') (total + total') := by
  refine ⟨fun hzero => h.1 (Nat.eq_zero_of_add_eq_zero_right hzero), ?_⟩
  rw [Nat.cast_add, Nat.cast_add, mul_add]
  exact add_le_add h.2 h'.2

/-- What two parts make up together one of them does by itself. -/
theorem Reached.of_add (hpart : part ≤ total) (hpart' : part' ≤ total')
    (h : Reached p (part + part') (total + total')) :
    Reached p part total ∨ Reached p part' total' := by
  obtain ⟨hne, hle⟩ := h
  rw [Nat.cast_add, Nat.cast_add, mul_add] at hle
  by_cases hzero : total = 0
  · -- Nothing has no part, so the other part is the whole of it.
    obtain rfl : part = 0 := Nat.eq_zero_of_le_zero (hzero ▸ hpart)
    subst hzero
    rw [Nat.cast_zero, mul_zero, zero_add, zero_add] at hle
    exact Or.inr ⟨by omega, hle⟩
  by_cases hzero' : total' = 0
  · obtain rfl : part' = 0 := Nat.eq_zero_of_le_zero (hzero' ▸ hpart')
    subst hzero'
    rw [Nat.cast_zero, mul_zero, add_zero, add_zero] at hle
    exact Or.inl ⟨hzero, hle⟩
  · by_contra hnone
    rw [not_or, Reached, Reached, not_and, not_and, not_le, not_le] at hnone
    exact absurd hle (not_le.mpr (add_lt_add (hnone.1 hzero) (hnone.2 hzero')))

end Share

end FirstPlace
