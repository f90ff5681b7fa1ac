import DiskBench.Foundations.Observation

/-!
# Things taken from a ring in turn

A system takes things from the front of a ring and gives them back to its end, until it takes no
more. What has been taken is then the beginning of what the ring has held, followed by what has been
given back. When the things come back in the order in which they have been taken, they are taken in
turn.
-/

namespace Rotation

open Transition

variable {σ α β : Type*} {step : σ → α → Option σ}

/-- The steps of a system with a ring. -/
structure Rotates (step : σ → α → Option σ) (P : σ → α → Prop) (ring : σ → List β)
    (takes gives : σ → α → Option β) (Ended : σ → Prop) : Prop where
  /-- What is taken is at the front. -/
  front : ∀ s a t, P s a → step s a = some t → (takes s a).toList <+: ring s
  /-- A step takes from the front and gives to the end, or it ends the system. -/
  moves : ∀ s a t, P s a → step s a = some t →
    Ended t ∨ ring s ++ (gives s a).toList = (takes s a).toList ++ ring t
  /-- A system that has ended takes nothing any more. -/
  ended : ∀ s a t, P s a → Ended s → step s a = some t → takes s a = none ∧ Ended t

variable {P : σ → α → Prop} {ring : σ → List β} {takes gives : σ → α → Option β} {Ended : σ → Prop}
  {s t : σ} {as : List α}

/-- After the end nothing is taken. -/
theorem Rotates.observe_nil (h : Rotates step P ring takes gives Ended) (hs : Ended s)
    (hrun : exec step s as = some t) (halong : Along step P s as) :
    observe step takes s as = [] := by
  induction as generalizing s with
  | nil => rfl
  | cons a as ih =>
    obtain ⟨u, hu, hrest⟩ := exec_cons_eq_some.mp hrun
    obtain ⟨htakes, hended⟩ := h.ended s a u halong.1 hs hu
    rw [observe_cons hu, htakes, ih hended hrest (halong.2 u hu)]
    rfl

/-- What is taken in a run is the beginning of the ring and what is given back. -/
theorem Rotates.observe_takes (h : Rotates step P ring takes gives Ended)
    (hrun : exec step s as = some t) (halong : Along step P s as) :
    observe step takes s as <+: ring s ++ observe step gives s as := by
  induction as generalizing s with
  | nil => exact List.nil_prefix
  | cons a as ih =>
    obtain ⟨u, hu, hrest⟩ := exec_cons_eq_some.mp hrun
    rw [observe_cons hu, observe_cons hu]
    rcases h.moves s a u halong.1 hu with hended | hmoved
    · rw [h.observe_nil hended hrest (halong.2 u hu), List.append_nil]
      exact (h.front s a u halong.1 hu).trans (List.prefix_append _ _)
    · rw [← List.append_assoc, hmoved, List.append_assoc]
      exact (List.prefix_append_right_inj _).mpr (ih hrest (halong.2 u hu))

/-- **In turn.** Things that come back in order are taken in turn. -/
theorem getElem?_eq_mod {ring taken given : List β} (hring : ring ≠ [])
    (htaken : taken <+: ring ++ given) (hgiven : given <+: taken) {n : ℕ}
    (hn : n < taken.length) : taken[n]? = ring[n % ring.length]? := by
  have hpos : 0 < ring.length := List.length_pos_of_ne_nil hring
  have hlength := htaken.length_le
  rw [List.length_append] at hlength
  obtain ⟨later, hlater⟩ := htaken
  obtain ⟨away, haway⟩ := hgiven
  induction n using Nat.strongRecOn with
  | _ n ih =>
    have hfirst : taken[n]? = (ring ++ given)[n]? := by
      rw [← hlater, List.getElem?_append_left hn]
    by_cases hlt : n < ring.length
    · rw [hfirst, List.getElem?_append_left hlt, Nat.mod_eq_of_lt hlt]
    · have hle : ring.length ≤ n := Nat.le_of_not_lt hlt
      have hback : given[n - ring.length]? = taken[n - ring.length]? := by
        rw [← haway, List.getElem?_append_left (by omega)]
      rw [hfirst, List.getElem?_append_right hle, hback, ih (n - ring.length) (by omega) (by omega),
        ← Nat.mod_eq_sub_mod hle]

end Rotation
