import Mathlib.Algebra.GroupWithZero.Nat
import DiskBench.Foundations.Observation

/-!
# Runs that are bounded by a measure

When every step uses up some of a measure, apart from what the step itself brings in, the length of
a run is bounded by the measure of its start and by what its steps have brought in. A run that is
bounded in this way can be continued until no step is possible any more.
-/

namespace Transition

variable {σ α β : Type*} {step : σ → α → Option σ} {P : σ → α → Prop} {μ : σ → ℕ} {f : σ → α → ℕ}
  {s t : σ} {as : List α}

/-- What the steps of a run bring in together. -/
def gain (step : σ → α → Option σ) (f : σ → α → ℕ) : σ → List α → ℕ
  | _, [] => 0
  | s, a :: as =>
    match step s a with
    | none => 0
    | some t => f s a + gain step f t as

theorem gain_cons {a : α} (hstep : step s a = some t) :
    gain step f s (a :: as) = f s a + gain step f t as := by
  rw [gain, hstep]

@[simp] theorem gain_zero : gain step (fun _ _ => 0) s as = 0 := by
  induction as generalizing s with
  | nil => rfl
  | cons a as ih =>
    rw [gain]
    split
    · rfl
    · rw [ih]

/-- What the steps bring in, when each of them brings in `c` or nothing and the weight of what is
seen of it. -/
theorem gain_eq_observe {see : σ → α → Option β} {w : β → ℕ} {p : α → Bool} {c : ℕ}
    (hf : ∀ s a, f s a = c * (if p a then 1 else 0) + ((see s a).toList.map w).sum)
    (hrun : exec step s as = some t) :
    gain step f s as = c * as.countP p + ((observe step see s as).map w).sum := by
  induction as generalizing s with
  | nil => rfl
  | cons a as ih =>
    obtain ⟨u, hu, hrest⟩ := exec_cons_eq_some.mp hrun
    rw [gain_cons hu, observe_cons hu, ih hrest, hf, List.countP_cons, List.map_append,
      List.sum_append, Nat.mul_add]
    omega

/-- **A bound on the length of a run.** The invariant `I` is kept by the steps of the run. -/
theorem length_add_le {I : σ → Prop} (hinv : ∀ s a t, I s → P s a → step s a = some t → I t)
    (hstep : ∀ s a t, I s → P s a → step s a = some t → μ t + 1 ≤ μ s + f s a) (hs : I s)
    (hrun : exec step s as = some t) (halong : Along step P s as) :
    as.length + μ t ≤ μ s + gain step f s as := by
  induction as generalizing s with
  | nil =>
    obtain rfl : s = t := by simpa using hrun
    simp [gain]
  | cons a as ih =>
    obtain ⟨u, hu, hrest⟩ := exec_cons_eq_some.mp hrun
    have hfirst := hstep s a u hs halong.1 hu
    have hlater := ih (hinv s a u hs halong.1 hu) hrest (halong.2 u hu)
    rw [List.length_cons, gain_cons hu]
    omega

/-- When every step uses up some of the measure, a run of steps that meet a condition can be
continued until no such step is possible. -/
theorem exists_maximal {I : σ → Prop} (hinv : ∀ s a t, I s → P s a → step s a = some t → I t)
    (hstep : ∀ s a t, I s → P s a → step s a = some t → μ t < μ s) (hs : I s) :
    ∃ t, Reaches step P s t ∧ ∀ a, P t a → step t a = none := by
  induction hn : μ s using Nat.strongRecOn generalizing s with
  | _ n ih =>
    by_cases hstuck : ∀ a, P s a → step s a = none
    · exact ⟨s, .refl P s, hstuck⟩
    · obtain ⟨a, hP, u, hu⟩ : ∃ a, P s a ∧ ∃ u, step s a = some u := by
        by_contra hnone
        refine hstuck fun a hP => Option.eq_none_iff_forall_ne_some.mpr fun u hu => ?_
        exact hnone ⟨a, hP, u, hu⟩
      obtain ⟨t, hreach, hend⟩ :=
        ih (μ u) (hn ▸ hstep s a u hs hP hu) (hinv s a u hs hP hu) rfl
      exact ⟨t, (Reaches.single hu hP).trans hreach, hend⟩

end Transition
