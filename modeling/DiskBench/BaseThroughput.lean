import DiskBench.Accumulation
import DiskBench.Foundations.WeightedMean

/-!
# The base throughput

The summary divides the weighted throughputs of all workloads by their weights. A line has the
weight of its workloads divided by their number, so the base throughput of a test is the weighted
mean of the throughputs of its workloads times their number. The extremes that stand beside it are
throughputs of tests, over the time from the first start to the last end.
-/

namespace DiskBench

open WeightedMean Extremes

/-- The column `Base` of the summary. -/
def IoStatistics.baseThroughput {T : Type} [Div T] (statistics : IoStatistics T) : T :=
  statistics.accumulatedWeightedBytesPerSecond / statistics.accumulatedWeight

/-- A thread that took some time, with a queue for its requests. -/
structure FinishedWorkload.Ran (finished : FinishedWorkload) : Prop where
  elapsed : finished.workload.startTime < finished.workload.endTime
  queueDepth : 0 < finished.workload.queueDepth.toInt

/-- A test in which each worker has a workload that has run, and whose bytes do not overflow. -/
structure TestResult.Full (result : TestResult) : Prop where
  workers_ne : result.workers ≠ []
  ran : ∀ worker ∈ result.workers, ∃ finished, worker = some finished ∧ finished.Ran
  completed : result.Completed
  bytes : ((workloadsOf result.workers).map fun finished =>
    finished.workload.read.bytes.toNat + finished.workload.write.bytes.toNat).sum < 2 ^ 64

/-- All workloads of the test start at one time and end at one time. -/
def TestResult.Together (result : TestResult) : Prop :=
  ∀ x ∈ workloadsOf result.workers, ∀ y ∈ workloadsOf result.workers,
    x.workload.startTime = y.workload.startTime ∧ x.workload.endTime = y.workload.endTime

section Weights

variable (T : Type) [Field T]

/-- The weight of a workload that has one. -/
def FinishedWorkload.weightOf (finished : FinishedWorkload) : T := finished.weight.getD 0

/-- The weighted mean of the throughputs of a test, times the number of its workers. -/
def TestResult.base (result : TestResult) : T :=
  (result.workers.length : T) *
    (((workloadsOf result.workers).map fun finished =>
        finished.weightOf T * finished.workload.bytesPerSecond).sum /
      ((workloadsOf result.workers).map (FinishedWorkload.weightOf T)).sum)

variable [LinearOrder T]

/-- A workload with a higher throughput has no lower weight. -/
def TestResult.FasterHeavier (result : TestResult) : Prop :=
  ∀ x ∈ workloadsOf result.workers, ∀ y ∈ workloadsOf result.workers,
    (x.workload.bytesPerSecond : T) < y.workload.bytesPerSecond → x.weightOf T ≤ y.weightOf T

/-- A workload with a higher throughput has no higher weight. -/
def TestResult.FasterLighter (result : TestResult) : Prop :=
  ∀ x ∈ workloadsOf result.workers, ∀ y ∈ workloadsOf result.workers,
    (x.workload.bytesPerSecond : T) < y.workload.bytesPerSecond → y.weightOf T ≤ x.weightOf T

end Weights

/-- The accumulated weights are the sums over the lines, and the extreme throughputs are those of
the lines. -/
structure IoStatistics.Weighted {T : Type} [Field T] [LinearOrder T]
    (statistics : IoStatistics T) : Prop where
  weight : statistics.accumulatedWeight = (statistics.lines.map IoStatisticsLine.weight).sum
  weighted : statistics.accumulatedWeightedBytesPerSecond =
    (statistics.lines.map IoStatisticsLine.weightedBytesPerSecond).sum
  min_le : ∀ line ∈ statistics.lines, statistics.minThroughput ≤ line.bytesPerSecond
  le_max : ∀ line ∈ statistics.lines, line.bytesPerSecond ≤ statistics.maxThroughput

section Workloads

variable {result : TestResult}

/-- The number of workloads of a full test is that of its workers. -/
theorem TestResult.Full.length_workloadsOf (h : result.Full) :
    (workloadsOf result.workers).length = result.workers.length := by
  rw [workloadsOf, List.reduceOption_length_eq_iff]
  intro worker hworker
  obtain ⟨finished, rfl, _⟩ := h.ran worker hworker
  rfl

theorem TestResult.Full.workloadsOf_ne (h : result.Full) : workloadsOf result.workers ≠ [] := by
  intro hnil
  have hlength := h.length_workloadsOf
  rw [hnil] at hlength
  exact h.workers_ne (List.length_eq_zero_iff.mp hlength.symm)

theorem TestResult.Full.ran_of_mem (h : result.Full) {finished : FinishedWorkload}
    (hmem : finished ∈ workloadsOf result.workers) : finished.Ran := by
  obtain ⟨finished', heq, hran⟩ := h.ran _ (mem_workloadsOf.mp hmem)
  rw [Option.some.inj heq]
  exact hran

end Workloads

section Lines

variable {T : Type} [Field T] {result : TestResult} {line : IoStatisticsLine T}

/-- The weights of a line are the sums over the workloads. -/
theorem TestResult.HasLine.weights (h : result.HasLine line) :
    line.weight = ((workloadsOf result.workers).map fun finished =>
        finished.weightOf T / (result.workers.length : T)).sum ∧
      line.weightedBytesPerSecond = ((workloadsOf result.workers).map fun finished =>
        finished.weightOf T * finished.workload.bytesPerSecond).sum := by
  obtain ⟨totals, hsum, rfl⟩ := h
  have hweight := sumWorkers_sum Totals.weight
    (fun finished => finished.weightOf T / (result.workers.length : T))
    (fun _ finished weight _ hweight => by rw [FinishedWorkload.weightOf, hweight]; rfl) hsum
  have hweighted := sumWorkers_sum Totals.weightedBytesPerSecond
    (fun finished => finished.weightOf T * finished.workload.bytesPerSecond)
    (fun _ finished weight _ hweight => by rw [FinishedWorkload.weightOf, hweight]; rfl) hsum
  exact ⟨hweight.trans (zero_add _), hweighted.trans (zero_add _)⟩

/-- The quotient of the weights of a line is the base of its test. -/
theorem TestResult.HasLine.base_eq (h : result.HasLine line) :
    line.weightedBytesPerSecond / line.weight = result.base T := by
  obtain ⟨hweight, hweighted⟩ := h.weights
  rw [hweight, hweighted, TestResult.base]
  simp only [div_eq_mul_inv]
  rw [List.sum_map_mul_right, mul_inv, inv_inv]
  ring

/-- The bytes of a full test, of which the line counts all. -/
theorem TestResult.HasLine.totalBytes_toNat (h : result.HasLine line) (hfull : result.Full) :
    line.totalBytes.toNat = ((workloadsOf result.workers).map fun finished =>
      finished.workload.read.bytes.toNat + finished.workload.write.bytes.toNat).sum := by
  have htotal : line.totalBytes = line.bytesRead + line.bytesWritten := by
    obtain ⟨totals, _, rfl⟩ := h
    rfl
  obtain ⟨hread, hwritten, _⟩ := h.words
  have hbytes := hfull.bytes
  rw [List.sum_map_add] at hbytes ⊢
  have word : ∀ g : IoWorkload → UInt64,
      ((workloadsOf result.workers).map fun finished => (g finished.workload).toNat).sum < 2 ^ 64 →
      (result.sum g).toNat =
        ((workloadsOf result.workers).map fun finished => (g finished.workload).toNat).sum := by
    intro g hlt
    have hsum := toNat_sum_of_lt
      (l := (workloadsOf result.workers).map fun finished => g finished.workload)
    rw [List.map_map] at hsum
    exact hsum hlt
  rw [htotal, hread, hwritten, UInt64.toNat_add, word _ (by omega), word _ (by omega),
    Nat.mod_eq_of_lt hbytes]

/-- The line takes the time from the first start to the last end. -/
theorem TestResult.HasLine.totalElapsed_eq (h : result.HasLine line) (hfull : result.Full) :
    ∃ earliest latest,
      IsLeast ((fun finished => finished.workload.startTime) ''
        {finished | finished ∈ workloadsOf result.workers}) earliest ∧
      IsGreatest ((fun finished => finished.workload.endTime) ''
        {finished | finished ∈ workloadsOf result.workers}) latest ∧
      line.totalElapsed = latest - earliest := by
  obtain ⟨totals, hsum, rfl⟩ := h
  obtain ⟨worker, workers, hworkers⟩ := List.exists_cons_of_ne_nil hfull.workers_ne
  obtain ⟨finished, rfl, _⟩ := hfull.ran worker (hworkers ▸ List.mem_cons_self)
  rw [hworkers] at hsum ⊢
  exact ⟨_, _, isLeast_of_folds foldsFrom_min hsum, isGreatest_of_folds foldsFrom_max hsum, rfl⟩

/-- The throughput of a line as a sum over the workloads. -/
theorem TestResult.HasLine.bytesPerSecond_eq (h : result.HasLine line) (hfull : result.Full) :
    line.bytesPerSecond = ((workloadsOf result.workers).map fun finished =>
      throughputOf ((finished.workload.read.bytes.toNat : T) +
        (finished.workload.write.bytes.toNat : T)) line.totalElapsed).sum := by
  have hline : line.bytesPerSecond =
      throughputOf (line.totalBytes.toNat : T) line.totalElapsed := by
    obtain ⟨totals, _, rfl⟩ := h
    rfl
  rw [hline, h.totalBytes_toNat hfull, Nat.cast_list_sum, List.map_map]
  simp only [throughputOf, div_eq_mul_inv]
  rw [List.sum_map_mul_right, List.sum_map_mul_right]
  congr 4
  funext finished
  exact Nat.cast_add _ _

/-- When all workloads have the same time, it is as fast. -/
theorem TestResult.HasLine.bytesPerSecond_eq_sum (h : result.HasLine line) (hfull : result.Full)
    (htogether : result.Together) : line.bytesPerSecond =
      ((workloadsOf result.workers).map fun finished => finished.workload.bytesPerSecond).sum := by
  obtain ⟨_, _, ⟨⟨first, hfirst, rfl⟩, _⟩, ⟨⟨last, hlast, rfl⟩, _⟩, helapsed⟩ :=
    h.totalElapsed_eq hfull
  rw [h.bytesPerSecond_eq hfull]
  congr 1
  refine List.map_congr_left fun finished hmem => ?_
  rw [IoWorkload.bytesPerSecond, helapsed, (htogether _ hmem _ hfirst).1,
    (htogether _ hmem _ hlast).2]

/-- Each line is the line of a test. -/
theorem exists_test {results : List TestResult} {lines : List (IoStatisticsLine T)}
    (h : List.Forall₂ TestResult.HasLine results lines) (hmem : line ∈ lines) :
    ∃ result ∈ results, result.HasLine line := by
  induction h with
  | nil => exact absurd hmem List.not_mem_nil
  | cons hline _ ih =>
    obtain rfl | hrest := List.mem_cons.mp hmem
    · exact ⟨_, List.mem_cons_self, hline⟩
    · obtain ⟨result, hresult, hline⟩ := ih hrest
      exact ⟨result, List.mem_cons_of_mem _ hresult, hline⟩

end Lines

section Order

variable {T : Type} [Field T] [LinearOrder T] {statistics statistics' : IoStatistics T}
  {result : TestResult} {line : IoStatisticsLine T} {results : List TestResult}

theorem create_weighted (description : List Char) :
    (IoStatistics.create description : IoStatistics T).Weighted :=
  ⟨rfl, rfl, fun _ h => absurd h List.not_mem_nil, fun _ h => absurd h List.not_mem_nil⟩

/-- One more line is taken up. -/
theorem IoStatistics.Weighted.push (h : statistics.Weighted) (maxActive : Int32)
    (line : IoStatisticsLine T) : (statistics.push maxActive line).Weighted := by
  refine ⟨sum_push IoStatisticsLine.weight line h.weight,
    sum_push IoStatisticsLine.weightedBytesPerSecond line h.weighted, ?_, ?_⟩
  · intro line' hline'
    rw [push_lines, List.mem_append, List.mem_singleton] at hline'
    simp only [IoStatistics.push, List.isEmpty_iff]
    obtain hold | rfl := hline'
    · have hmin := h.min_le line' hold
      split
      next hless => exact (hless.resolve_left (List.ne_nil_of_mem hold)).le.trans hmin
      next => exact hmin
    · split
      next => exact le_rfl
      next hnone => exact not_lt.mp fun hless => hnone (Or.inr hless)
  · intro line' hline'
    rw [push_lines, List.mem_append, List.mem_singleton] at hline'
    simp only [IoStatistics.push, List.isEmpty_iff]
    obtain hold | rfl := hline'
    · have hmax := h.le_max line' hold
      split
      next hless => exact hmax.trans (hless.resolve_left (List.ne_nil_of_mem hold)).le
      next => exact hmax
    · split
      next => exact le_rfl
      next hnone => exact not_lt.mp fun hless => hnone (Or.inr hless)

/-- The statistics of tests are weighted sums over the lines of these tests. -/
theorem accumulate_weighted {description : List Char}
    (hcounts : ∀ result ∈ results, result.Counts)
    (h : (IoStatistics.create description : IoStatistics T).accumulate results =
      some statistics') :
    List.Forall₂ TestResult.HasLine results statistics'.lines ∧ statistics'.Weighted := by
  obtain ⟨lines, hlines, hnext, hweighted⟩ := accumulate_induction
    (P := fun lines next => next.lines = lines ∧ next.Weighted) hcounts
    (fun lines next maxActive line hnext => ⟨by rw [push_lines, hnext.1],
      hnext.2.push maxActive line⟩) ⟨rfl, create_weighted description⟩ h
  rw [hnext]
  exact ⟨hlines, hweighted⟩

variable [IsStrictOrderedRing T]

/-- The weight of a workload that has run is positive. -/
theorem FinishedWorkload.Ran.weightOf_pos {finished : FinishedWorkload} (h : finished.Ran)
    (hdivides : finished.workload.Divides) : 0 < finished.weightOf T := by
  obtain ⟨ratio, hratio⟩ := Option.isSome_iff_exists.mp (sizeRatio_isSome_iff.mpr hdivides)
  have hdepth : (0 : T) < (finished.workload.queueDepth.toInt : T) := Int.cast_pos.mpr h.queueDepth
  have hsize : (0 : T) ≤ (ratio.toNat : T) := Nat.cast_nonneg _
  simp only [FinishedWorkload.weightOf, FinishedWorkload.weight, hratio, Option.map_some,
    Option.getD_some]
  exact div_pos (by norm_num) (add_pos_of_nonneg_of_pos hsize hdepth)

/-- A test is not faster than its workloads together. -/
theorem TestResult.HasLine.bytesPerSecond_le (h : result.HasLine line) (hfull : result.Full) :
    line.bytesPerSecond ≤
      ((workloadsOf result.workers).map fun finished => finished.workload.bytesPerSecond).sum := by
  obtain ⟨earliest, latest, hearliest, hlatest, helapsed⟩ := h.totalElapsed_eq hfull
  rw [h.bytesPerSecond_eq hfull]
  refine List.sum_le_sum fun finished hmem => ?_
  have hran := (hfull.ran_of_mem hmem).elapsed
  have hstart : earliest ≤ finished.workload.startTime :=
    hearliest.2 (Set.mem_image_of_mem _ hmem)
  have hend : finished.workload.endTime ≤ latest := hlatest.2 (Set.mem_image_of_mem _ hmem)
  have hpos : (0 : T) < ((finished.workload.endTime - finished.workload.startTime : AprTime) : T) :=
    Int.cast_pos.mpr (sub_pos.mpr hran)
  have hle : ((finished.workload.endTime - finished.workload.startTime : AprTime) : T) ≤
      ((line.totalElapsed : AprTime) : T) := by
    rw [helapsed]
    exact Int.cast_le.mpr (sub_le_sub hend hstart)
  unfold IoWorkload.bytesPerSecond throughputOf
  gcongr

/-- The workloads of a line have positive weights. -/
theorem TestResult.HasLine.weightOf_pos (h : result.HasLine line) (hfull : result.Full) :
    ∀ finished ∈ workloadsOf result.workers, 0 < finished.weightOf T := by
  obtain ⟨totals, hsum, _⟩ := h
  have hdivides := sumWorkers_isSome_iff.mp (Option.isSome_of_eq_some hsum)
  exact fun finished hmem => (hfull.ran_of_mem hmem).weightOf_pos (hdivides finished hmem)

/-- The line itself has a positive weight. -/
theorem TestResult.HasLine.weight_pos (h : result.HasLine line) (hfull : result.Full) :
    0 < line.weight := by
  have hlength : (0 : T) < (result.workers.length : T) :=
    Nat.cast_pos.mpr (List.length_pos_iff.mpr hfull.workers_ne)
  rw [h.weights.1]
  exact sum_pos hfull.workloadsOf_ne fun finished hmem =>
    div_pos (h.weightOf_pos hfull finished hmem) hlength

/-- Where faster workloads are not lighter, a test is not faster than its base. -/
theorem TestResult.HasLine.bytesPerSecond_le_base (h : result.HasLine line) (hfull : result.Full)
    (hheavier : result.FasterHeavier T) : line.bytesPerSecond ≤ result.base T := by
  have hmean := sum_le_length_mul_mean hfull.workloadsOf_ne (h.weightOf_pos hfull) hheavier
  rw [hfull.length_workloadsOf] at hmean
  exact (h.bytesPerSecond_le hfull).trans hmean

/-- Where faster workloads are not heavier and all have the same time, a test is not slower than
its base. -/
theorem TestResult.HasLine.base_le_bytesPerSecond (h : result.HasLine line) (hfull : result.Full)
    (htogether : result.Together) (hlighter : result.FasterLighter T) :
    result.base T ≤ line.bytesPerSecond := by
  have hmean := length_mul_mean_le_sum hfull.workloadsOf_ne (h.weightOf_pos hfull) hlighter
  rw [hfull.length_workloadsOf] at hmean
  exact hmean.trans (h.bytesPerSecond_eq_sum hfull htogether).ge

/-- **The base throughput** of tests lies between two of their bases. It is at least the least
throughput where the faster workloads of each test are not lighter, and at most the greatest where
they are not heavier and all have the same time. -/
theorem accumulate_base {description : List Char} (hresults : results ≠ [])
    (hfull : ∀ result ∈ results, result.Full)
    (h : (IoStatistics.create description : IoStatistics T).accumulate results =
      some statistics) :
    (∃ result ∈ results, result.base T ≤ statistics.baseThroughput) ∧
      (∃ result ∈ results, statistics.baseThroughput ≤ result.base T) ∧
      ((∀ result ∈ results, result.FasterHeavier T) →
        statistics.minThroughput ≤ statistics.baseThroughput) ∧
      ((∀ result ∈ results, result.Together ∧ result.FasterLighter T) →
        statistics.baseThroughput ≤ statistics.maxThroughput) := by
  obtain ⟨hlines, hweighted⟩ := accumulate_weighted (fun result hmem =>
    (hfull result hmem).completed.counts (hfull result hmem).workloadsOf_ne) h
  have hne : statistics.lines ≠ [] := by
    rintro hnil
    rw [hnil, List.forall₂_nil_right_iff] at hlines
    exact hresults hlines
  have hpos : ∀ line ∈ statistics.lines, 0 < line.weight := fun line hmem => by
    obtain ⟨result, hresult, hline⟩ := exists_test hlines hmem
    exact hline.weight_pos (hfull result hresult)
  have hbase : statistics.baseThroughput =
      (statistics.lines.map IoStatisticsLine.weightedBytesPerSecond).sum /
        (statistics.lines.map IoStatisticsLine.weight).sum := by
    rw [IoStatistics.baseThroughput, hweighted.weight, hweighted.weighted]
  obtain ⟨low, hlow, hle⟩ := exists_div_le_sum_div_sum hne hpos
    (a := IoStatisticsLine.weightedBytesPerSecond)
  obtain ⟨high, hhigh, hge⟩ := exists_sum_div_sum_le_div hne hpos
    (a := IoStatisticsLine.weightedBytesPerSecond)
  obtain ⟨slow, hslow, hlowline⟩ := exists_test hlines hlow
  obtain ⟨fast, hfast, hhighline⟩ := exists_test hlines hhigh
  rw [← hbase, hlowline.base_eq] at hle
  rw [← hbase, hhighline.base_eq] at hge
  refine ⟨⟨slow, hslow, hle⟩, ⟨fast, hfast, hge⟩, fun hheavier => ?_, fun hlighter => ?_⟩
  · calc statistics.minThroughput ≤ low.bytesPerSecond := hweighted.min_le low hlow
      _ ≤ slow.base T :=
        hlowline.bytesPerSecond_le_base (hfull slow hslow) (hheavier slow hslow)
      _ ≤ statistics.baseThroughput := hle
  · calc statistics.baseThroughput ≤ fast.base T := hge
      _ ≤ high.bytesPerSecond := hhighline.base_le_bytesPerSecond (hfull fast hfast)
        (hlighter fast hfast).1 (hlighter fast hfast).2
      _ ≤ statistics.maxThroughput := hweighted.le_max high hhigh

end Order

/-- A worker whose mixed workload has read some bytes with a single request. -/
def reader (bytes : UInt64) (startTime endTime : AprTime) : Option FinishedWorkload :=
  some ⟨⟨bytes, ⟨1, bytes, 5, 5, 5⟩, .zero, startTime, endTime, 1, 1⟩,
    .mixed ⟨fun _ => 0, fun _ => 0, 0, 13, 0, 8192, 0, 8192⟩⟩

/-- Workers without garbage in the local variables. -/
def cleanResult (workers : List (Option FinishedWorkload)) : TestResult :=
  ⟨⟨0, 0, 0, 0, 0, 0⟩, workers⟩

/-- A test of one worker and a test of two with the same time. -/
def evenTests : List TestResult :=
  [cleanResult [reader 4096 0 10], cleanResult [reader 8192 20 30, reader 8192 20 30]]

/-- These workers run. -/
theorem reader_ran {bytes : UInt64} {startTime endTime : AprTime} (h : startTime < endTime) :
    ∃ finished, reader bytes startTime endTime = some finished ∧ finished.Ran :=
  ⟨_, rfl, h, show (0 : ℤ) < (1 : Int32).toInt by decide⟩

/-- Two such workers make a full test. -/
theorem pair_full {bytes bytes' : UInt64} {startTime startTime' endTime endTime' : AprTime}
    (h : startTime < endTime) (h' : startTime' < endTime')
    (hbytes : bytes.toNat + bytes'.toNat < 2 ^ 64) :
    (cleanResult [reader bytes startTime endTime, reader bytes' startTime' endTime']).Full := by
  refine ⟨List.cons_ne_nil _ _, ?_, ⟨?_, ?_⟩, ?_⟩
  · simpa [cleanResult] using ⟨reader_ran h, reader_ran h'⟩
  · simp [cleanResult, reader, workloadsOf]
  · simp [cleanResult, reader, workloadsOf, IoCounters.zero]
  · simpa [cleanResult, reader, workloadsOf, IoCounters.zero] using hbytes

theorem evenTests_full : ∀ result ∈ evenTests, result.Full := by
  simp only [evenTests, List.forall_mem_cons]
  refine ⟨⟨List.cons_ne_nil _ _, ?_, ⟨?_, by decide⟩, by decide⟩,
    pair_full (by decide) (by decide) (by decide), fun _ h => absurd h List.not_mem_nil⟩
  · simpa [cleanResult] using reader_ran (by decide)
  · simp [cleanResult, reader, workloadsOf]

/-- The base throughput of these tests lies between the extremes. -/
theorem accumulate_base_evenTests :
    ∃ statistics, (IoStatistics.create ['m'] : IoStatistics ℚ).accumulate evenTests =
        some statistics ∧ statistics.minThroughput ≤ statistics.baseThroughput ∧
      statistics.baseThroughput ≤ statistics.maxThroughput := by
  have haccumulate : (IoStatistics.create ['m'] : IoStatistics ℚ).accumulate evenTests =
    some _ := rfl
  obtain ⟨_, _, hmin, hmax⟩ := accumulate_base (by simp [evenTests]) evenTests_full haccumulate
  refine ⟨_, haccumulate, hmin ?_, hmax ?_⟩
  · simp [evenTests, TestResult.FasterHeavier, cleanResult, reader, workloadsOf]
  · simp [evenTests, TestResult.FasterLighter, TestResult.Together, cleanResult, reader,
      workloadsOf]

/-- Two workers with one time after the other. -/
def shiftedTests : List TestResult := [cleanResult [reader 4096 0 10, reader 4096 10 20]]

/-- Two workers of which the faster has the smaller weight. -/
def unevenTests : List TestResult := [cleanResult [reader 4096 0 10, reader 65536 0 10]]

/-- The base throughput is above both extremes of the first test and below those of the second. -/
theorem base_outside :
    ((∀ result ∈ shiftedTests, result.Full) ∧ ∃ statistics,
      (IoStatistics.create ['m'] : IoStatistics ℚ).accumulate shiftedTests = some statistics ∧
        statistics.maxThroughput < statistics.baseThroughput) ∧
      (∀ result ∈ unevenTests, result.Full) ∧ ∃ statistics,
        (IoStatistics.create ['m'] : IoStatistics ℚ).accumulate unevenTests = some statistics ∧
          statistics.baseThroughput < statistics.minThroughput := by
  refine ⟨⟨?_, _, rfl, by decide +kernel⟩, ?_, _, rfl, by decide +kernel⟩
  · simpa [shiftedTests] using pair_full (by decide) (by decide) (by decide)
  · simpa [unevenTests] using pair_full (by decide) (by decide) (by decide)

end DiskBench
