import Mathlib.Algebra.Order.BigOperators.Group.Finset
import DiskBench.Foundations.Transition

/-!
# The greatest value along a run

A system keeps a mark of the greatest value that a quantity has had: a step raises the mark when the
quantity rises above it, and never lowers it. Such a mark is exact at the end of every run. The
greatest value of a sum is at most the sum of the greatest values of its terms, which need not be
taken in the same state.
-/

namespace Transition

variable {σ α : Type*} {step : σ → α → Option σ} {P : σ → α → Prop} {I : σ → Prop} {f : σ → ℕ}
  {s t : σ} {as : List α}

/-- The greatest value in the states of a run. -/
def peak (step : σ → α → Option σ) (f : σ → ℕ) : σ → List α → ℕ
  | s, [] => f s
  | s, a :: as =>
    match step s a with
    | none => f s
    | some t => max (f s) (peak step f t as)

theorem peak_cons {a : α} (hstep : step s a = some t) :
    peak step f s (a :: as) = max (f s) (peak step f t as) := by
  rw [peak, hstep]

theorem le_peak_start : f s ≤ peak step f s as := by
  cases as with
  | nil => exact Nat.le_refl (f s)
  | cons a as =>
    rw [peak]
    split
    · exact Nat.le_refl (f s)
    · exact Nat.le_max_left _ _

/-- **A mark that is raised with a quantity is exact.** The invariant `I` is kept by the steps of
the run. -/
theorem mark_eq_peak {m : σ → ℕ} (hinv : ∀ s a t, I s → P s a → step s a = some t → I t)
    (hmark : ∀ s a t, I s → P s a → step s a = some t → f s ≤ m s →
      m t = max (m s) (f t))
    (hs : I s) (hstart : m s = f s) (hrun : exec step s as = some t)
    (halong : Along step P s as) : m t = peak step f s as := by
  have hgen : ∀ (as : List α) (s : σ), I s → f s ≤ m s → exec step s as = some t →
      Along step P s as → m t = max (m s) (peak step f s as) := by
    intro as
    induction as with
    | nil =>
      intro s _ hle hrun _
      obtain rfl : s = t := by simpa using hrun
      exact (Nat.max_eq_left hle).symm
    | cons a as ih =>
      intro s hs hle hrun halong
      obtain ⟨u, hu, hrest⟩ := exec_cons_eq_some.mp hrun
      have hraised := hmark s a u hs halong.1 hu hle
      have hlater := ih u (hinv s a u hs halong.1 hu) (hraised ▸ Nat.le_max_right _ _) hrest
        (halong.2 u hu)
      have hhere : f u ≤ peak step f u as := le_peak_start
      rw [hlater, hraised, peak_cons hu]
      omega
  have heq := hgen as s hs hstart.ge hrun halong
  rwa [hstart, Nat.max_eq_right le_peak_start] at heq

/-- The terms of a sum need not be greatest in the same state. -/
theorem peak_sum_le {ι : Type*} [Fintype ι] (f : ι → σ → ℕ) :
    peak step (fun s => ∑ i, f i s) s as ≤ ∑ i, peak step (f i) s as := by
  induction as generalizing s with
  | nil => exact Nat.le_refl _
  | cons a as ih =>
    have hhere : ∑ i, f i s ≤ ∑ i, peak step (f i) s (a :: as) :=
      Finset.sum_le_sum fun i _ => le_peak_start
    cases hstep : step s a with
    | none =>
      rw [peak, hstep]
      exact hhere
    | some t =>
      rw [peak_cons hstep]
      refine Nat.max_le.mpr ⟨hhere, ih.trans (Finset.sum_le_sum fun i _ => ?_)⟩
      rw [peak_cons hstep]
      exact Nat.le_max_right _ _

end Transition
