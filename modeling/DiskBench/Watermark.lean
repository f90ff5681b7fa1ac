import DiskBench.Sequential

/-!
# The integrity watermark

`write_complete` moves the watermark only for the write that starts at it. After a sequential write
workload the watermark is the end of the written prefix of the file if and only if the requests
have completed in the order of their submission.
-/

namespace DiskBench

open Transition Coverage Acknowledgement

variable {config : Config}

/-- **The integrity watermark.** After the barrier of a sequential write workload that has not come
to the end of the file, the watermark is the end of the longest prefix covered by completed writes
if and only if the requests have completed in the order of their submission (or are empty). -/
theorem watermark_prefixEnd_iff {s t : IoState GeneratorData} {l : Launch GeneratorData}
    {queue : AsyncQueue} {r : UInt64} {as : List (Action GeneratorData)}
    (hdepth : 1 ≤ l.queueDepth)
    (hcreate : genericQueueCreate config s.worker l.queueDepth l.memory = .ok queue)
    (hgenerator : l.generator = .sequential (sequentialReset (sequentialFactory true) r))
    (hmark : s.worker.lastIntegrityWrittenOffset = 0)
    (hrun : exec (step config workloads) (s.start l queue) as = some t)
    (hsuccess : Along (step config workloads) (SuccessfulWorkload config) (s.start l queue) as)
    (hunwrapped : Unwrapped r t) (hpc : t.pc = .drained ∨ t.pc = .done) :
    PrefixEnd (t.device.transferred true) t.worker.lastIntegrityWrittenOffset.toNat ↔
      r = 0 ∨ Along (step config workloads) CompletesInOrder (s.start l queue) as := by
  obtain ⟨ops, w, num, hops, hw, hiff⟩ :=
    (Tracks.start hdepth hcreate hgenerator hmark).of_exec hrun hsuccess hunwrapped
  rw [hw.transferred, hw.mark rfl, hiff]
  rcases Nat.eq_zero_or_pos r.toNat with hzero | hpos
  · have hr : r = 0 := UInt64.toNat_inj.mp hzero
    refine ⟨fun _ => Or.inl hr, fun _ => ⟨fun b hb => ?_, ?_⟩⟩
    · rw [hzero, Nat.mul_zero] at hb
      exact absurd hb (Nat.not_lt_zero b)
    · rintro ⟨range, hmem, hle, hlt⟩
      obtain ⟨k, _, rfl⟩ := List.mem_map.mp hmem
      rw [hzero] at hle hlt
      exact absurd hlt (by simp)
  · have hr : r ≠ 0 := by
      rintro rfl
      exact Nat.lt_irrefl 0 hpos
    rw [prefixEnd_iff hpos hops (hw.flying_nil hpc)]
    exact ⟨Or.inr, fun h => h.resolve_left hr⟩

/-- A sequential write of two sectors by two requests that are in flight together. -/
def pairLaunch : Launch GeneratorData :=
  ⟨.sequential ⟨true, 0, 512⟩, 2, 1024, 1024, 10, fun _ _ => 0, true, 0⟩

/-- The queue of that workload. -/
def pairQueue : AsyncQueue :=
  ⟨2, 0, 2, [0, 1], fun i =>
    ⟨⟨0, 0, fun _ => 0, UInt64.ofNat i * 4096, 4096, 0, 0, 0, false⟩, .null⟩⟩

/-- The worker before that workload. -/
def pairInitial : IoState GeneratorData :=
  .initial ⟨1024, 8192, 1024, 1024, 0, 88172645463325252, true⟩ (.sequential ⟨true, 0, 512⟩)
    fun _ => 0

/-- The worker at the loop of that workload. -/
def pairStart : IoState GeneratorData := pairInitial.start pairLaunch pairQueue

/-- Both requests are submitted, and they complete in the given order. -/
def pairRun (first second : ℕ) : List (Action GeneratorData) :=
  [.iterate ⟨1, 1, 1⟩ true, .waitReturn true, .iterate ⟨2, 2, 2⟩ true, .effect 0 0, .effect 1 0,
    .reap first .full 3, .reap second .full 4, .waitReturn true, .iterate ⟨5, 5, 5⟩ true,
    .finish 6]

theorem pairRun_successful {first second : ℕ}
    (h : first = 0 ∧ second = 1 ∨ first = 1 ∧ second = 0) :
    Along (step ⟨false, .linux, 4096, true⟩ workloads)
      (SuccessfulWorkload ⟨false, .linux, 4096, true⟩) pairStart (pairRun first second) := by
  rcases h with ⟨rfl, rfl⟩ | ⟨rfl, rfl⟩ <;> decide

/-- When the second request completes first, the whole file is written and the watermark stays
behind the first request. -/
theorem watermark_left_behind : ∃ t,
    exec (step ⟨false, .linux, 4096, true⟩ workloads) pairStart (pairRun 1 0) = some t ∧
    Along (step ⟨false, .linux, 4096, true⟩ workloads)
      (SuccessfulWorkload ⟨false, .linux, 4096, true⟩) pairStart (pairRun 1 0) ∧
    Unwrapped 512 t ∧ t.pc = .done ∧ t.worker.lastIntegrityWrittenOffset = 512 ∧
    PrefixEnd (t.device.transferred true) 1024 ∧
    ¬PrefixEnd (t.device.transferred true) t.worker.lastIntegrityWrittenOffset.toNat := by
  have hrun : exec (step ⟨false, .linux, 4096, true⟩ workloads) pairStart (pairRun 1 0) =
    some _ := rfl
  have hwhole : PrefixEnd (ranges 512 [1, 0]) 1024 := by
    constructor
    · intro b hb
      rw [covers_ranges_iff (by decide)]
      have hdiv : b / 512 = 0 ∨ b / 512 = 1 := by omega
      rcases hdiv with hdiv | hdiv <;> rw [hdiv] <;> decide
    · rw [covers_ranges_iff (by decide)]
      decide
  refine ⟨_, hrun, ?_, Nat.le_refl 1024, rfl, rfl, hwhole, fun hbehind => ?_⟩
  · exact pairRun_successful (Or.inr ⟨rfl, rfl⟩)
  · exact absurd (hwhole.unique hbehind) (by decide)

/-- When the requests complete in order, the watermark is the end of the file. -/
theorem watermark_keeps_up : ∃ t,
    exec (step ⟨false, .linux, 4096, true⟩ workloads) pairStart (pairRun 0 1) = some t ∧
    PrefixEnd (t.device.transferred true) t.worker.lastIntegrityWrittenOffset.toNat := by
  have hrun : exec (step ⟨false, .linux, 4096, true⟩ workloads) pairStart (pairRun 0 1) =
    some _ := rfl
  have hcreate : genericQueueCreate ⟨false, .linux, 4096, true⟩ pairInitial.worker
      pairLaunch.queueDepth pairLaunch.memory = .ok pairQueue := rfl
  have horder : Along (step ⟨false, .linux, 4096, true⟩ workloads) CompletesInOrder pairStart
      (pairRun 0 1) := by
    decide
  have hiff := watermark_prefixEnd_iff (s := pairInitial) (r := 512) (by decide) hcreate rfl rfl
    hrun (pairRun_successful (Or.inl ⟨rfl, rfl⟩)) (Nat.le_refl 1024) (Or.inr rfl)
  exact ⟨_, hrun, hiff.mpr (Or.inr horder)⟩

end DiskBench
