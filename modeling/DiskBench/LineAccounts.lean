import Mathlib.Algebra.BigOperators.Ring.List
import Mathlib.Algebra.Order.Field.Basic
import Mathlib.Data.Int.Cast.Lemmas
import DiskBench.LatencyBound
import DiskBench.StatisticsLine

/-!
# The latencies of a line

`dump_statistics` adds up the latencies and the values of `max_active` of the workloads, and takes
the time from the earliest start to the latest end. What bounds the latencies of each workload
bounds those of the line, also where the sums of words wrap around.
-/

namespace DiskBench

open Extremes Transition

/-- A workload as a thread leaves it that has come to its end after some cooperative run with a
clock that never goes back. -/
def FinishedWorkload.LeftByThread (config : Config) (finished : FinishedWorkload) : Prop :=
  ∃ (worker : IoWorker) (generator : GeneratorData) (disk : Memory)
    (as : List (Action GeneratorData)) (t : IoState GeneratorData),
    exec (step config workloads) (IoState.initial worker generator disk) as = some t ∧
      Along (step config workloads) (Cooperative config)
        (IoState.initial worker generator disk) as ∧
      Chronological 0 as ∧ t.pc = .done ∧ finished = ⟨t.workload, t.generator⟩

theorem FinishedWorkload.LeftByThread.accounted {config : Config} {finished : FinishedWorkload}
    (h : finished.LeftByThread config) :
    finished.workload.Accounted finished.workload.endTime := by
  obtain ⟨worker, generator, disk, as, t, hrun, hco, hclock, hdone, rfl⟩ := h
  exact accounted_of_exec hrun hco hclock SlotInv.initial (LatencyInv.initial (le_refl 0))
    (fun h => by cases h) hdone

/-- A duration that is not negative, as a word, is not longer. -/
theorem toNat_ofInt_le {z : ℤ} (h : 0 ≤ z) : ((UInt64.ofInt z).toNat : ℤ) ≤ z := by
  rw [UInt64.ofInt, UInt64.toNat_ofNat']
  omega

/-- The latencies of a workload together. -/
def IoWorkload.latency (workload : IoWorkload) : AprTime :=
  workload.read.elapsed + workload.write.elapsed

/-- The latencies that are added up as words are the word of their sum. -/
theorem sum_latency (finished : List FinishedWorkload) :
    (finished.map fun f => UInt64.ofInt f.workload.read.elapsed +
      UInt64.ofInt f.workload.write.elapsed).sum =
        UInt64.ofInt (finished.map fun f => f.workload.latency).sum := by
  induction finished with
  | nil => rfl
  | cons f finished ih =>
    rw [List.map_cons, List.sum_cons, List.map_cons, List.sum_cons, ih, UInt64.ofInt_add,
      IoWorkload.latency, UInt64.ofInt_add]

/-- The values of `max_active` of all workloads together. -/
def parallelIos (workers : List (Option FinishedWorkload)) : ℤ :=
  ((workloadsOf workers).map fun finished => finished.workload.maxActive.toInt).sum

/-- Numbers of `int` that are not negative add up as words where the sum fits an `int`. -/
theorem toNat_sum_words {l : List Int32} (h : ∀ x ∈ l, 0 ≤ x.toInt)
    (hfits : (l.map Int32.toInt).sum < 2 ^ 31) :
    ((l.map Int32.toUInt32).sum.toNat : ℤ) = (l.map Int32.toInt).sum := by
  induction l with
  | nil => rfl
  | cons x l ih =>
    have hx := h x List.mem_cons_self
    have hl := fun y hy => h y (List.mem_cons_of_mem x hy)
    have hnonneg : 0 ≤ (l.map Int32.toInt).sum := by
      apply List.sum_nonneg
      intro z hz
      obtain ⟨y, hy, rfl⟩ := List.mem_map.mp hz
      exact hl y hy
    rw [List.map_cons, List.sum_cons] at hfits ⊢
    have hrest := ih hl (by omega)
    have hword := toNat_toUInt32_of_nonneg hx
    rw [List.map_cons, List.sum_cons, UInt32.toNat_add]
    omega

section Line

variable {T : Type} [Field T] {first : FinishedWorkload}
  {workers : List (Option FinishedWorkload)} {count : ℕ} {totals totals' : Totals T}

/-- The latencies of all workloads fit into the time of the line. -/
theorem latency_le (h : ∀ finished ∈ workloadsOf (some first :: workers),
      finished.workload.Accounted finished.workload.endTime)
    (hsum : sumWorkers count 0 (some first :: workers) totals = some totals') :
    0 ≤ ((workloadsOf (some first :: workers)).map fun f => f.workload.latency).sum ∧
      ((workloadsOf (some first :: workers)).map fun f => f.workload.latency).sum ≤
        parallelIos (some first :: workers) * (totals'.max - totals'.min) := by
  have hearliest := (isLeast_of_folds foldsFrom_min hsum).2
  have hlatest := (isGreatest_of_folds foldsFrom_max hsum).2
  constructor
  · apply List.sum_nonneg
    intro x hx
    obtain ⟨f, hf, rfl⟩ := List.mem_map.mp hx
    exact add_nonneg (h f hf).read.elapsed (h f hf).write.elapsed
  · rw [parallelIos, ← List.sum_map_mul_right]
    refine List.sum_le_sum fun f hf => ?_
    have hstart := hearliest (Set.mem_image_of_mem _ hf)
    have hend := hlatest (Set.mem_image_of_mem _ hf)
    calc f.workload.latency
        ≤ f.workload.maxActive.toInt * (f.workload.endTime - f.workload.startTime) := (h f hf).total
      _ ≤ f.workload.maxActive.toInt * (totals'.max - totals'.min) :=
        mul_le_mul_of_nonneg_left (sub_le_sub hend hstart) (h f hf).maxActive

/-- A time between 0 and the time from the earliest start to the latest end. -/
def Totals.Spans (totals : Totals T) (latency : AprTime) : Prop :=
  0 ≤ latency ∧ latency ≤ totals.max - totals.min

/-- No latency of a workload is below 0 or longer than the time of the line. -/
theorem extremes_span (h : ∀ finished ∈ workloadsOf (some first :: workers),
      finished.workload.Accounted finished.workload.endTime)
    (hsum : sumWorkers count 0 (some first :: workers) totals = some totals') :
    (totals'.Spans totals'.minReadLatency ∧ totals'.Spans totals'.minWriteLatency) ∧
      totals'.Spans totals'.maxReadLatency ∧ totals'.Spans totals'.maxWriteLatency := by
  have hearliest := (isLeast_of_folds foldsFrom_min hsum).2
  have hlatest := (isGreatest_of_folds foldsFrom_max hsum).2
  obtain ⟨hminRead, hmaxRead, hminWrite, hmaxWrite⟩ := @foldsFrom_latencies T _ _ _ _ _
  have hspan : ∀ f ∈ workloadsOf (some first :: workers),
      f.workload.endTime - f.workload.startTime ≤ totals'.max - totals'.min := fun f hf =>
    sub_le_sub (hlatest (Set.mem_image_of_mem _ hf)) (hearliest (Set.mem_image_of_mem _ hf))
  refine ⟨⟨?_, ?_⟩, ?_, ?_⟩
  · obtain ⟨f, hf, heq⟩ := (isLeast_of_folds hminRead hsum).1
    exact heq ▸ ⟨(h f hf).read.min, (h f hf).read.min_le.trans (hspan f hf)⟩
  · obtain ⟨f, hf, heq⟩ := (isLeast_of_folds hminWrite hsum).1
    exact heq ▸ ⟨(h f hf).write.min, (h f hf).write.min_le.trans (hspan f hf)⟩
  · obtain ⟨f, hf, heq⟩ := (isGreatest_of_folds hmaxRead hsum).1
    exact heq ▸ ⟨(h f hf).read.max_nonneg, (h f hf).read.max.trans (hspan f hf)⟩
  · obtain ⟨f, hf, heq⟩ := (isGreatest_of_folds hmaxWrite hsum).1
    exact heq ▸ ⟨(h f hf).write.max_nonneg, (h f hf).write.max.trans (hspan f hf)⟩

/-- `max_active` of the line, where it fits an `int`. -/
theorem toInt_maxActive (h : ∀ finished ∈ workloadsOf workers,
      0 ≤ finished.workload.maxActive.toInt) (hfits : parallelIos workers < 2 ^ 31)
    {uninitialized : Uninitialized}
    (hsum : sumWorkers count 0 workers (Totals.initial uninitialized) = some totals) :
    totals.maxActive.toInt = parallelIos workers := by
  have hwords := sumWorkers_sum (fun totals => totals.maxActive.toUInt32)
    (fun finished => finished.workload.maxActive.toUInt32) (fun _ _ _ _ _ => rfl) hsum
  have hnat := toNat_sum_words (fun x hx => by
    obtain ⟨f, hf, rfl⟩ := List.mem_map.mp hx
    exact h f hf) (by rwa [List.map_map])
  rw [List.map_map, List.map_map] at hnat
  have hword : totals.maxActive.toUInt32 =
      ((workloadsOf workers).map fun finished => finished.workload.maxActive.toUInt32).sum :=
    hwords.trans (UInt32.zero_add _)
  have htotal : (totals.maxActive.toUInt32.toNat : ℤ) = parallelIos workers := by
    rw [hword]
    exact hnat
  have hround : totals.maxActive.toUInt32.toInt32.toInt = totals.maxActive.toInt := rfl
  rw [← hround, toInt_toInt32 (by omega), htotal]

variable [LinearOrder T]

/-- What the latencies of a line have to do with its time, for this many requests at a time. -/
structure IoStatisticsLine.Accounted (parallel : ℤ) (line : IoStatisticsLine T) : Prop where
  min : 0 ≤ line.minLatency
  min_le : line.minLatency ≤ line.totalElapsed
  max_nonneg : 0 ≤ line.maxLatency
  max : line.maxLatency ≤ line.totalElapsed
  average : line.avgLatency * (line.totalRequests.toNat : T) ≤
    (parallel : T) * (line.totalElapsed : T)

variable [IsStrictOrderedRing T]

theorem line_accounted (h : ∀ finished ∈ workloadsOf (some first :: workers),
      finished.workload.Accounted finished.workload.endTime) (uninitialized : Uninitialized)
    (hsum : sumWorkers count 0 (some first :: workers) (Totals.initial uninitialized) =
      some totals) : totals.line.Accounted (parallelIos (some first :: workers)) := by
  obtain ⟨⟨hread, hwrite⟩, hreads, hwrites⟩ := extremes_span h hsum
  obtain ⟨hnonneg, hle⟩ := latency_le h hsum
  have hmin : totals.Spans totals.line.minLatency := by
    show totals.Spans (if totals.readRequests = 0 then totals.minWriteLatency
      else if totals.writeRequests = 0 then totals.minReadLatency
      else minTime totals.minReadLatency totals.minWriteLatency)
    rw [minTime_eq_min]
    split
    · exact hwrite
    split
    · exact hread
    · exact ⟨le_min hread.1 hwrite.1, (min_le_left _ _).trans hread.2⟩
  have hmax : totals.Spans totals.line.maxLatency := by
    show totals.Spans (if totals.readRequests = 0 then totals.maxWriteLatency
      else if totals.writeRequests = 0 then totals.maxReadLatency
      else maxTime totals.maxReadLatency totals.maxWriteLatency)
    rw [maxTime_eq_max]
    split
    · exact hwrites
    split
    · exact hreads
    · exact ⟨hreads.1.trans (le_max_left _ _), max_le hreads.2 hwrites.2⟩
  have htotal : totals.totalLatency =
      UInt64.ofInt ((workloadsOf (some first :: workers)).map fun f => f.workload.latency).sum := by
    rw [← sum_latency]
    exact (sumWorkers_sum Totals.totalLatency _ (fun _ _ _ _ _ => rfl) hsum).trans
      (UInt64.zero_add _)
  have htime : (totals.totalLatency.toNat : T) ≤
      ((parallelIos (some first :: workers) * (totals.max - totals.min) : ℤ) : T) := by
    have hint : ((totals.totalLatency.toNat : ℕ) : ℤ) ≤
        parallelIos (some first :: workers) * (totals.max - totals.min) := by
      rw [htotal]
      exact (toNat_ofInt_le hnonneg).trans hle
    exact_mod_cast hint
  refine ⟨hmin.1, hmin.2, hmax.1, hmax.2, ?_⟩
  show (totals.totalLatency.toNat : T) /
    ((totals.readRequests + totals.writeRequests).toNat : T) *
    ((totals.readRequests + totals.writeRequests).toNat : T) ≤
      _ * ((totals.max - totals.min : ℤ) : T)
  rw [← Int.cast_mul]
  by_cases hrequests : ((totals.readRequests + totals.writeRequests).toNat : T) = 0
  · rw [hrequests, mul_zero]
    exact (Nat.cast_nonneg _).trans htime
  · rw [div_mul_cancel₀ _ hrequests]
    exact htime

end Line

/-- **The latencies of a line.** Let cooperative threads have left the workloads, in whatever order
their requests have completed, and let the first worker be among those that have one: otherwise
`dump_statistics` takes the earliest start and the latest end from variables that it has not set.
Then the smallest and the greatest latency of the line lie between 0 and its time, and the average
latency times the number of requests is at most the parallel requests times the time. The parallel
requests are what the line adds to the statistics as `max_active`, where they fit an `int`. -/
theorem line_latencies_accounted {T : Type} [Field T] [LinearOrder T] [IsStrictOrderedRing T]
    {config : Config} {first : FinishedWorkload} {workers : List (Option FinishedWorkload)}
    {uninitialized : Uninitialized} {statistics statistics' : IoStatistics T}
    (hleft : ∀ finished ∈ workloadsOf (some first :: workers), finished.LeftByThread config)
    (hdump : dumpStatistics uninitialized statistics (some first :: workers) = some statistics')
    (hrequests : readRequests (some first :: workers) ≠ 0 ∨
      writeRequests (some first :: workers) ≠ 0) :
    ∃ maxActive line, statistics' = statistics.push maxActive line ∧
      line.Accounted (parallelIos (some first :: workers)) ∧
      (parallelIos (some first :: workers) < 2 ^ 31 →
        maxActive.toInt = parallelIos (some first :: workers)) := by
  have haccounted := fun finished hfinished => (hleft finished hfinished).accounted
  obtain ⟨totals, hsum, hempty | ⟨_, rfl⟩⟩ := dumpStatistics_some hdump
  · obtain ⟨⟨hread, hwrite⟩, _⟩ := hempty
    exact absurd hrequests (by simp [hread, hwrite])
  · exact ⟨totals.maxActive, totals.line, rfl, line_accounted haccounted uninitialized hsum,
      fun hfits => toInt_maxActive (fun f hf => (haccounted f hf).maxActive) hfits hsum⟩

/-- The workload that the two writes of the example run leave. -/
def twoWritesLeft : FinishedWorkload :=
  ⟨⟨1024, .zero, ⟨2, 1024, 2, 1, 1⟩, 0, 6, 1, 1⟩, .sequential ⟨true, 1024, 512⟩⟩

theorem twoWrites_left : twoWritesLeft.LeftByThread ⟨false, .linux, 4096, true⟩ := by
  have hrun : exec (step ⟨false, .linux, 4096, true⟩ workloads)
    (IoState.initial ⟨0, 8192, 0, 0, 0, 88172645463325252, true⟩ (.sequential ⟨true, 0, 512⟩)
      fun _ => 0) twoWrites = some _ := rfl
  exact ⟨_, _, _, _, _, hrun, by decide, by decide, rfl, rfl⟩

/-- The line of a test with the two writes of the example run. -/
theorem line_latencies_accounted_two_writes : ∃ maxActive line,
    dumpStatistics ⟨0, 0, 0, 0, 0, 0⟩ (IoStatistics.create ['w'] : IoStatistics ℚ)
      [some twoWritesLeft] = some ((IoStatistics.create ['w']).push maxActive line) ∧
      line.Accounted 1 ∧ maxActive.toInt = 1 := by
  have hleft : ∀ finished ∈ workloadsOf [some twoWritesLeft],
      finished.LeftByThread ⟨false, .linux, 4096, true⟩ := by
    intro finished hfinished
    obtain rfl : finished = twoWritesLeft := by simpa [workloadsOf] using hfinished
    exact twoWrites_left
  have hdivides : ∀ finished ∈ workloadsOf [some twoWritesLeft],
      finished.workload.Divides := by
    intro finished hfinished
    obtain rfl : finished = twoWritesLeft := by simpa [workloadsOf] using hfinished
    exact ⟨by decide, by decide⟩
  obtain ⟨statistics, hdump⟩ := Option.isSome_iff_exists.mp
    ((@dumpStatistics_isSome_iff ℚ _ _ _ _ _ _ _ _ ⟨0, 0, 0, 0, 0, 0⟩ (IoStatistics.create ['w'])
      [some twoWritesLeft]).mpr hdivides)
  obtain ⟨maxActive, line, rfl, hline, hmax⟩ :=
    line_latencies_accounted hleft hdump (Or.inr (by decide))
  exact ⟨maxActive, line, hdump, hline, hmax (by decide)⟩

end DiskBench
