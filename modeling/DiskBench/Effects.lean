import DiskBench.Agreement
import DiskBench.Steps

/-!
# Whole requests taking effect

The sectors of a request can take effect one after the other. Then a write has done to the
file what `storeRequest` does, and a read has done to its buffer what `fetchRequest` does.
-/

namespace DiskBench

open Transition WordMemory

variable {γ : Type} {config : Config} {G : Generator γ}

/-- The device after the first `n` sectors of the request of entry `i` have taken effect. -/
def Device.serveFirst (device : Device) (i n : ℕ) : Device :=
  { device with
    served := Function.update device.served i fun k => decide (k < n) || device.served i k }

/-- The first `n` sectors of the request of entry `i` take effect in order. -/
def IoState.effects (s : IoState γ) (i : ℕ) : ℕ → IoState γ
  | 0 => s
  | n + 1 => (s.effects i n).effect i n

theorem Device.serveFirst_zero (device : Device) (i : ℕ) : device.serveFirst i 0 = device := by
  unfold Device.serveFirst
  simp

theorem Device.serveFirst_succ (device : Device) (i n : ℕ) :
    device.serveFirst i (n + 1) = (device.serveFirst i n).serve i n := by
  unfold Device.serveFirst Device.serve
  congr 1
  funext j
  by_cases hj : j = i
  · subst hj
    simp only [Function.update_self]
    funext k
    by_cases hk : k = n
    · simp [hk]
    · rw [Function.update_of_ne hk]
      congr 1
      exact decide_eq_decide.mpr (by omega)
  · simp only [Function.update_of_ne hj]

/-- The effects of a write, one sector after the other. -/
theorem effects_of_write {s : IoState γ} {i : ℕ} (n : ℕ)
    (hwrite : (s.queue.ioaqes i).request.write = true) :
    s.effects i n = { s with device :=
      ({ s.device with
        disk := storeSectors s.device.disk (s.queue.ioaqes i).request n }).serveFirst i n } := by
  induction n with
  | zero =>
    rw [Device.serveFirst_zero]
    rfl
  | succ n ih =>
    have hdir : ((s.effects i n).queue.ioaqes i).request.write = true := by
      rw [ih]
      exact hwrite
    rw [IoState.effects, effect_of_write _ _ _ hdir, ih, Device.serveFirst_succ]
    rfl

/-- The effects of a read, one sector after the other. -/
theorem effects_of_read {s : IoState γ} {i : ℕ} (n : ℕ)
    (hread : (s.queue.ioaqes i).request.write = false) :
    s.effects i n = { s with
      queue := s.queue.setRequest i (fetchSectors s.device.disk (s.queue.ioaqes i).request n)
      device := s.device.serveFirst i n } := by
  induction n with
  | zero =>
    rw [Device.serveFirst_zero]
    simp [IoState.effects, fetchSectors, AsyncQueue.setRequest, AsyncQueue.setEntry]
  | succ n ih =>
    have hentry : (s.effects i n).queue.ioaqes i = { s.queue.ioaqes i with
        request := fetchSectors s.device.disk (s.queue.ioaqes i).request n } := by
      rw [ih]
      exact AsyncQueue.setRequest_self _ _ _
    have hdir : ((s.effects i n).queue.ioaqes i).request.write = false := by
      obtain ⟨buf, hfetch, _⟩ := fetchSectors_spec s.device.disk (s.queue.ioaqes i).request n
      rw [hentry, hfetch]
      exact hread
    rw [IoState.effects, effect_of_read _ _ _ hdir, hentry, ih, Device.serveFirst_succ,
      fetchSectors]
    simp [AsyncQueue.setRequest, AsyncQueue.setEntry, Device.serveFirst]

/-- Every sector of a request in flight can take effect. -/
theorem exec_effects {s : IoState γ} {i n : ℕ} (hi : i ∈ s.device.inflight)
    (hn : n ≤ (s.queue.ioaqes i).request.sectors) (hserved : ∀ k, s.device.served i k = false) :
    exec (step config G) s ((List.range n).map (Action.effect i)) = some (s.effects i n) := by
  have hspec : ∀ m, (s.effects i m).device.inflight = s.device.inflight ∧
      ((s.effects i m).queue.ioaqes i).request.sectors = (s.queue.ioaqes i).request.sectors ∧
      (s.effects i m).device.served i m = false := by
    intro m
    cases hdir : (s.queue.ioaqes i).request.write with
    | true =>
      rw [effects_of_write m hdir]
      refine ⟨rfl, rfl, ?_⟩
      simp [Device.serveFirst, hserved]
    | false =>
      obtain ⟨buf, hfetch, _⟩ := fetchSectors_spec s.device.disk (s.queue.ioaqes i).request m
      rw [effects_of_read m hdir, hfetch]
      refine ⟨rfl, ?_, ?_⟩
      · simp only [AsyncQueue.setRequest_self]
        rfl
      · simp [Device.serveFirst, hserved]
  induction n with
  | zero => rfl
  | succ n ih =>
    obtain ⟨hinflight, hsectors, hnot⟩ := hspec n
    rw [List.range_succ, List.map_append, exec_append]
    refine ⟨s.effects i n, ih (by omega), ?_⟩
    refine exec_cons_eq_some.mpr ⟨(s.effects i n).effect i n, ?_, rfl⟩
    simp only [step, hinflight, hsectors, hnot]
    exact if_pos ⟨hi, by omega, Bool.false_ne_true⟩

end DiskBench
