import DiskBench.Foundations.Observation

/-!
# Accounts of a run

What is observed along a run can be checked against the states at its ends. A variable that every
step updates with what is seen is at the end the fold over everything that has been seen. And when a
system holds things that arrive and leave, then what it has held and what has arrived is what has
left and what it still holds.
-/

namespace Transition

variable {σ α β ρ : Type*} {step : σ → α → Option σ} {P : σ → α → Prop} {I : σ → Prop} {s t : σ}
  {as : List α}

/-- An observer that notes down something else about what it sees. -/
theorem observe_map (see : σ → α → Option β) (f : β → ρ) (s : σ) (as : List α) :
    observe step (fun s a => (see s a).map f) s as = (observe step see s as).map f := by
  induction as generalizing s with
  | nil => rfl
  | cons a as ih =>
    rw [observe, observe]
    split
    · rfl
    · rw [ih, List.map_append, Option.toList_map]

/-- A variable that every step updates with what is seen. -/
theorem foldl_observe {see : σ → α → Option β} {f : σ → ρ} {g : ρ → β → ρ}
    (hinv : ∀ s a t, I s → P s a → step s a = some t → I t)
    (hstep : ∀ s a t, I s → P s a → step s a = some t →
      f t = (see s a).toList.foldl g (f s))
    (hs : I s) (hrun : exec step s as = some t) (halong : Along step P s as) :
    f t = (observe step see s as).foldl g (f s) := by
  induction as generalizing s with
  | nil =>
    obtain rfl : s = t := by simpa using hrun
    rfl
  | cons a as ih =>
    obtain ⟨u, hu, hrest⟩ := exec_cons_eq_some.mp hrun
    rw [observe_cons hu, List.foldl_append, ← hstep s a u hs halong.1 hu]
    exact ih (hinv s a u hs halong.1 hu) hrest (halong.2 u hu)

/-- **Nothing is lost and nothing is invented.** When every step keeps the balance between what is
held, what arrives and what leaves, then so does every run. -/
theorem observe_balance {held : σ → List β} {arrives leaves : σ → α → Option β}
    (hinv : ∀ s a t, I s → P s a → step s a = some t → I t)
    (hstep : ∀ s a t, I s → P s a → step s a = some t →
      (held s ++ (arrives s a).toList).Perm ((leaves s a).toList ++ held t))
    (hs : I s) (hrun : exec step s as = some t) (halong : Along step P s as) :
    (held s ++ observe step arrives s as).Perm (observe step leaves s as ++ held t) := by
  induction as generalizing s with
  | nil =>
    obtain rfl : s = t := by simpa using hrun
    exact (List.append_nil _).symm ▸ List.Perm.refl _
  | cons a as ih =>
    obtain ⟨u, hu, hrest⟩ := exec_cons_eq_some.mp hrun
    have hfirst := hstep s a u hs halong.1 hu
    have hlater := ih (hinv s a u hs halong.1 hu) hrest (halong.2 u hu)
    rw [observe_cons hu, observe_cons hu, ← List.append_assoc,
      List.append_assoc (leaves s a).toList]
    refine (hfirst.append_right _).trans ?_
    rw [List.append_assoc]
    exact hlater.append_left _

end Transition
