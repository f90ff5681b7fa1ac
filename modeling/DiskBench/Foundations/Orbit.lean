import Mathlib.Data.List.Iterate
import Mathlib.Dynamics.PeriodicPts.Lemmas
import Mathlib.SetTheory.Cardinal.NatCard
import DiskBench.Foundations.XorShift

/-!
# Orbits of the largest length

A point whose period is as large as the number of points that are not fixed: its orbit is all of
them. A period is exact if no maximal proper divisor of it is a period.
-/

namespace Orbit

open Function

variable {α : Type*} {f : α → α} {x z : α} {n : ℕ}

/-- A period is the smallest one if no quotient by a prime is a period. -/
theorem minimalPeriod_eq (hperiod : IsPeriodicPt f n x)
    (hproper : ∀ p, p.Prime → p ∣ n → ¬IsPeriodicPt f (n / p) x) : minimalPeriod f x = n := by
  obtain ⟨m, hm⟩ := hperiod.minimalPeriod_dvd
  by_contra hne
  have hm1 : m ≠ 1 := by
    rintro rfl
    exact hne (by rw [hm, Nat.mul_one])
  obtain ⟨p, hp, q, rfl⟩ := Nat.exists_prime_and_dvd hm1
  have hquotient : n / p = minimalPeriod f x * q := by
    rw [hm, Nat.mul_comm p q, ← Nat.mul_assoc, Nat.mul_div_cancel _ hp.pos]
  refine hproper p hp ⟨minimalPeriod f x * q, by rw [hm, Nat.mul_left_comm]⟩ ?_
  rw [hquotient]
  exact (isPeriodicPt_minimalPeriod f x).mul_const q

/-- Within a period no point comes twice. -/
theorem nodup_iterate (hn : n ≤ minimalPeriod f x) : (List.iterate f x n).Nodup := by
  rw [← List.range_map_iterate]
  refine List.nodup_range.map_on fun i hi j hj hij => ?_
  have hi := List.mem_range.mp hi
  have hj := List.mem_range.mp hj
  exact iterate_injOn_Iio_minimalPeriod (hi.trans_le hn) (hj.trans_le hn) hij

/-- **An orbit of the largest length has all points but the fixed one**, each of them once in a
period. -/
theorem bijective_orbit [Finite α] (hf : Injective f) (hz : f z = z) (hx : x ≠ z)
    (hcard : Nat.card α = minimalPeriod f x + 1) :
    Bijective fun k : Fin (minimalPeriod f x) =>
      (⟨f^[k] x, XorShift.iterate_ne_of_fixed hf hz hx k⟩ : {y // y ≠ z}) := by
  refine (Nat.bijective_iff_injective_and_card _).mpr ⟨?_, ?_⟩
  · intro i j hij
    have hiterate : f^[i] x = f^[j] x := congrArg Subtype.val hij
    exact Fin.ext (iterate_injOn_Iio_minimalPeriod i.isLt j.isLt hiterate)
  · classical
    have hoption := Nat.card_congr (Equiv.optionSubtypeNe z)
    rw [Finite.card_option] at hoption
    rw [Nat.card_fin]
    omega

section Full

variable [Finite α] {y : α} (hf : Injective f) (hz : f z = z) (hx : x ≠ z)
  (hcard : Nat.card α = minimalPeriod f x + 1)

include hf hz hx hcard

/-- Each point comes once in a period. -/
theorem existsUnique_iterate (hy : y ≠ z) : ∃! n, n < minimalPeriod f x ∧ f^[n] x = y := by
  obtain ⟨k, hk, hunique⟩ := (bijective_orbit hf hz hx hcard).existsUnique ⟨y, hy⟩
  refine ⟨k, ⟨k.isLt, congrArg Subtype.val hk⟩, ?_⟩
  rintro n ⟨hn, hiterate⟩
  exact congrArg Fin.val (hunique ⟨n, hn⟩ (Subtype.ext hiterate))

/-- What is counted over a period is counted over all points but the fixed one. -/
theorem card_period (hn : minimalPeriod f x = n) (p : α → Prop) :
    Nat.card {k : Fin n // p (f^[k] x)} = Nat.card {y : {y // y ≠ z} // p y} := by
  subst hn
  exact Nat.card_congr
    ((Equiv.ofBijective _ (bijective_orbit hf hz hx hcard)).subtypeEquiv fun _ => Iff.rfl)

/-- All points have the same period. -/
theorem minimalPeriod_eq_of_ne (hy : y ≠ z) : minimalPeriod f y = minimalPeriod f x := by
  obtain ⟨n, ⟨hn, rfl⟩, -⟩ := existsUnique_iterate hf hz hx hcard hy
  exact minimalPeriod_apply_iterate
    (minimalPeriod_pos_iff_mem_periodicPts.mp (Nat.zero_lt_of_lt hn)) n

end Full

end Orbit
