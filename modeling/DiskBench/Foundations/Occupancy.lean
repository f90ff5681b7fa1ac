import Mathlib.Algebra.Order.BigOperators.Group.List
import Mathlib.Algebra.Order.Ring.Defs
import Mathlib.Tactic.Ring

/-!
# Jobs in a bounded number of places

A job arrives, stays and departs, and never more than a given number of jobs are present. Then the
time that the departed jobs have stayed and the time that the present ones have stayed so far are
together at most what all places offer. This is the half of Little's law that needs no steady state.
-/

namespace Occupancy

variable {R : Type*} [CommRing R]

/-- The time that jobs with these times of arrival have stayed so far. -/
def stayed (now : R) (present : List R) : R := (present.map fun arrival => now - arrival).sum

@[simp] theorem stayed_nil (now : R) : stayed now [] = 0 := rfl

@[simp] theorem stayed_cons (now arrival : R) (present : List R) :
    stayed now (arrival :: present) = now - arrival + stayed now present := List.sum_cons

/-- Every present job stays as long as time passes. -/
theorem stayed_wait (now now' : R) (present : List R) :
    stayed now' present = stayed now present + present.length * (now' - now) := by
  induction present with
  | nil => simp
  | cons arrival present ih =>
    rw [stayed_cons, stayed_cons, ih, List.length_cons, Nat.cast_add, Nat.cast_one]
    ring

theorem stayed_perm (now : R) {present present' : List R} (h : present.Perm present') :
    stayed now present = stayed now present' :=
  (h.map _).sum_eq

variable [LinearOrder R]

/-- The present jobs have arrived since `start`, there are places for all of them, and the places
account for all the time that jobs have stayed. -/
structure Within (places : ℕ) (start now : R) (present : List R) (departed : R) : Prop where
  start_le : start ≤ now
  arrived : ∀ arrival ∈ present, start ≤ arrival ∧ arrival ≤ now
  length_le : present.length ≤ places
  total_le : departed + stayed now present ≤ places * (now - start)

variable {places places' : ℕ} {start now now' departed arrival : R} {present present' : List R}

/-- The service opens without jobs. -/
theorem Within.open (places : ℕ) (start : R) : Within places start start [] 0 where
  start_le := le_refl start
  arrived := fun _ h => absurd h List.not_mem_nil
  length_le := Nat.zero_le places
  total_le := by simp

/-- A job arrives, and there is a place for it. -/
theorem Within.arrive (h : Within places start now present departed)
    (hplace : present.length < places) :
    Within places start now (now :: present) departed where
  start_le := h.start_le
  arrived := by
    intro a ha
    rcases List.mem_cons.mp ha with rfl | ha
    · exact ⟨h.start_le, le_refl a⟩
    · exact h.arrived a ha
  length_le := hplace
  total_le := by
    rw [stayed_cons, sub_self, zero_add]
    exact h.total_le

/-- A job departs, and the time that it has stayed is added up. -/
theorem Within.depart (h : Within places start now (arrival :: present) departed) :
    Within places start now present (departed + (now - arrival)) where
  start_le := h.start_le
  arrived := fun a ha => h.arrived a (List.mem_cons_of_mem arrival ha)
  length_le := (Nat.le_succ _).trans h.length_le
  total_le := by
    have htotal := h.total_le
    rw [stayed_cons, ← add_assoc] at htotal
    exact htotal

/-- The order of the present jobs does not matter. -/
theorem Within.perm (h : Within places start now present departed)
    (hperm : present.Perm present') : Within places start now present' departed where
  start_le := h.start_le
  arrived := fun a ha => h.arrived a (hperm.mem_iff.mpr ha)
  length_le := hperm.length_eq ▸ h.length_le
  total_le := by
    rw [← stayed_perm now hperm]
    exact h.total_le

variable [IsStrictOrderedRing R]

/-- Time passes. -/
theorem Within.wait (h : Within places start now present departed) (hle : now ≤ now') :
    Within places start now' present departed where
  start_le := h.start_le.trans hle
  arrived := fun a ha => ⟨(h.arrived a ha).1, (h.arrived a ha).2.trans hle⟩
  length_le := h.length_le
  total_le := by
    have hlength : (present.length : R) ≤ places := Nat.cast_le.mpr h.length_le
    have hpassed : (present.length : R) * (now' - now) ≤ places * (now' - now) :=
      mul_le_mul_of_nonneg_right hlength (sub_nonneg.mpr hle)
    calc departed + stayed now' present
        = departed + stayed now present + present.length * (now' - now) := by
          rw [stayed_wait now now', add_assoc]
      _ ≤ places * (now - start) + places * (now' - now) := add_le_add h.total_le hpassed
      _ = places * (now' - start) := by ring

/-- More places leave room for the same jobs. -/
theorem Within.mono (h : Within places start now present departed) (hle : places ≤ places') :
    Within places' start now present departed :=
  { h with
    length_le := h.length_le.trans hle
    total_le := h.total_le.trans
      (mul_le_mul_of_nonneg_right (Nat.cast_le.mpr hle) (sub_nonneg.mpr h.start_le)) }

/-- The time that the present jobs have stayed is not negative. -/
theorem Within.stayed_nonneg (h : Within places start now present departed) :
    0 ≤ stayed now present := by
  apply List.sum_nonneg
  intro time htime
  obtain ⟨a, ha, rfl⟩ := List.mem_map.mp htime
  exact sub_nonneg.mpr (h.arrived a ha).2

/-- **The departed jobs.** They have stayed for at most the time that the places offer. -/
theorem Within.departed_le (h : Within places start now present departed) :
    departed ≤ places * (now - start) :=
  (le_add_of_nonneg_right h.stayed_nonneg).trans h.total_le

end Occupancy
