import Mathlib.Algebra.BigOperators.Group.List.Basic
import Mathlib.Data.Int.Cast.Defs
import Mathlib.Data.List.ReduceOption
import Mathlib.Data.Nat.Cast.Defs
import Mathlib.Data.UInt
import DiskBench.Workloads.Workloads

/-!
# The statistics of a test

`dump_statistics` of `diskBench.c`. The counters that the threads have left in the workloads are
summed up into a line, and the line is added to the statistics. The local variables that have no
value before the loop over the workers are given from outside, and an integer division by zero has
no result. A number type `T` stands for `double`.
-/

namespace DiskBench

/-- `struct io_statistics_line`. The field `iops` is never set, and `avg_latency` is kept as it is
before its conversion to `apr_time_t`. -/
structure IoStatisticsLine (T : Type) where
  weight : T
  readElapsed : AprTime
  writeElapsed : AprTime
  readRequests : UInt64
  writeRequests : UInt64
  totalRequests : UInt64
  bytesRead : UInt64
  bytesWritten : UInt64
  totalBytes : UInt64
  minReadLatency : AprTime
  minWriteLatency : AprTime
  maxReadLatency : AprTime
  maxWriteLatency : AprTime
  totalElapsed : AprTime
  minLatency : AprTime
  avgLatency : T
  maxLatency : AprTime
  bytesPerIo : T
  bytesPerSecond : T
  weightedBytesPerSecond : T

/-- `struct io_statistics`. -/
structure IoStatistics (T : Type) where
  description : List Char
  bytesRead : UInt64
  bytesWritten : UInt64
  readRequests : UInt64
  writeRequests : UInt64
  elapsed : AprTime
  accumulatedWeight : T
  accumulatedWeightedBytesPerSecond : T
  minThroughput : T
  maxThroughput : T
  maxActive : Int32
  lines : List (IoStatisticsLine T)

/-- What `run_tests` reads behind `dump_statistics`: the throughput of the last line, at the index
`nelts - 1`. -/
def IoStatistics.lastThroughput {T : Type} (statistics : IoStatistics T) : Option T :=
  statistics.lines.getLast?.map IoStatisticsLine.bytesPerSecond

/-- There is a last line exactly when there is a line. -/
theorem lastThroughput_isSome_iff {T : Type} {statistics : IoStatistics T} :
    statistics.lastThroughput.isSome ↔ statistics.lines ≠ [] := by
  simp [IoStatistics.lastThroughput]

/-- A workload whose thread has ended, with the generator that it has used. -/
structure FinishedWorkload where
  workload : IoWorkload
  generator : GeneratorData

/-- `weighted_io_size` of the three generators. -/
def GeneratorData.weightedIosize : GeneratorData → UInt64
  | .sequential _ => 128 * 1024
  | .random _ => 4 * 1024
  | .mixed _ => 4096

/-- `min_time`. -/
def minTime (a b : AprTime) : AprTime := if a < b then a else b

/-- `max_time`. -/
def maxTime (a b : AprTime) : AprTime := if a > b then a else b

/-- The local variables of `dump_statistics` without a value before the loop. -/
structure Uninitialized where
  min : AprTime
  max : AprTime
  minReadLatency : AprTime
  maxReadLatency : AprTime
  minWriteLatency : AprTime
  maxWriteLatency : AprTime

/-- The variables of the loop over the workers. -/
structure Totals (T : Type) where
  maxActive : Int32
  totalLatency : UInt64
  min : AprTime
  max : AprTime
  readElapsed : AprTime
  writeElapsed : AprTime
  readRequests : UInt64
  writeRequests : UInt64
  bytesRead : UInt64
  bytesWritten : UInt64
  minReadLatency : AprTime
  maxReadLatency : AprTime
  minWriteLatency : AprTime
  maxWriteLatency : AprTime
  weight : T
  weightedBytesPerSecond : T

/-- The number of requests of a workload. -/
def IoWorkload.requests (workload : IoWorkload) : UInt64 :=
  workload.read.requests + workload.write.requests

/-- The number of bytes of a workload. -/
def IoWorkload.bytes (workload : IoWorkload) : UInt64 :=
  workload.read.bytes + workload.write.bytes

/-- `avg_iosize`. -/
def IoWorkload.avgIosize (workload : IoWorkload) : Option UInt64 :=
  if workload.requests = 0 then none else some (workload.bytes / workload.requests)

/-- The quotient of `avg_iosize` and the weighted size, the larger one divided by the smaller. -/
def FinishedWorkload.sizeRatio (finished : FinishedWorkload) : Option UInt64 :=
  match finished.workload.avgIosize with
  | none => none
  | some avg =>
    if avg < finished.generator.weightedIosize then
      if avg = 0 then none else some (finished.generator.weightedIosize / avg)
    else some (avg / finished.generator.weightedIosize)

/-- A workload whose counters the divisions of `dump_statistics` survive: it has requests, and not
more of them than bytes. -/
structure IoWorkload.Divides (workload : IoWorkload) : Prop where
  requests_ne : workload.requests ≠ 0
  requests_le : workload.requests ≤ workload.bytes

/-- A quotient of words is 0 exactly when the dividend is below the divisor. -/
theorem div_eq_zero_iff_lt {a b : UInt64} (hb : b ≠ 0) : a / b = 0 ↔ a < b := by
  have hpos : b.toNat ≠ 0 := fun hzero => hb (UInt64.toNat_inj.mp hzero)
  rw [← UInt64.toNat_inj, UInt64.toNat_div, UInt64.toNat_zero, Nat.div_eq_zero_iff,
    UInt64.lt_iff_toNat_lt]
  exact ⟨fun h => h.resolve_left hpos, Or.inr⟩

theorem weightedIosize_pos (data : GeneratorData) : 0 < data.weightedIosize := by
  cases data with
  | sequential _ => exact (by decide : (0 : UInt64) < 128 * 1024)
  | random _ => exact (by decide : (0 : UInt64) < 4 * 1024)
  | mixed _ => exact (by decide : (0 : UInt64) < 4096)

/-- The quotient of the sizes is computed exactly for these workloads. -/
theorem sizeRatio_isSome_iff {finished : FinishedWorkload} :
    finished.sizeRatio.isSome ↔ finished.workload.Divides := by
  unfold FinishedWorkload.sizeRatio IoWorkload.avgIosize
  by_cases hrequests : finished.workload.requests = 0
  · rw [if_pos hrequests]
    exact ⟨fun h => absurd h (by simp), fun h => absurd hrequests h.requests_ne⟩
  · have hzero := @div_eq_zero_iff_lt finished.workload.bytes _ hrequests
    rw [if_neg hrequests]
    dsimp only
    split
    · split
      next havg =>
        exact ⟨fun h => absurd h (by simp),
          fun h => absurd (hzero.mp havg) (UInt64.not_lt.mpr h.requests_le)⟩
      next havg =>
        exact ⟨fun _ => ⟨hrequests, UInt64.not_lt.mp fun h => havg (hzero.mpr h)⟩, fun _ => rfl⟩
    next hlarge =>
      refine ⟨fun _ => ⟨hrequests, UInt64.not_lt.mp fun h => ?_⟩, fun _ => rfl⟩
      rw [hzero.mpr h] at hlarge
      exact hlarge (weightedIosize_pos _)

variable {T : Type} [Add T] [Div T] [NatCast T] [IntCast T]

/-- `weight`. -/
def FinishedWorkload.weight (finished : FinishedWorkload) : Option T :=
  finished.sizeRatio.map fun ratio =>
    ((10 : ℕ) : T) / ((ratio.toNat : T) + (finished.workload.queueDepth.toInt : T))

/-- So is the weight. -/
theorem weight_isSome_iff {finished : FinishedWorkload} :
    (finished.weight : Option T).isSome ↔ finished.workload.Divides := by
  rw [FinishedWorkload.weight, Option.isSome_map]
  exact sizeRatio_isSome_iff

variable [Mul T]

/-- A throughput from bytes and microseconds. -/
def throughputOf (bytes : T) (elapsed : AprTime) : T :=
  bytes / (elapsed : T) * ((1000000 : ℕ) : T)

/-- The throughput of a single workload. -/
def IoWorkload.bytesPerSecond (workload : IoWorkload) : T :=
  throughputOf ((workload.read.bytes.toNat : T) + (workload.write.bytes.toNat : T))
    (workload.endTime - workload.startTime)

/-- The variables after the workload of worker `i`. -/
def Totals.add (count i : ℕ) (finished : FinishedWorkload) (weight : T) (totals : Totals T) :
    Totals T :=
  let workload := finished.workload
  let first := i = 0
  { maxActive := totals.maxActive + workload.maxActive
    totalLatency := totals.totalLatency +
      (UInt64.ofInt workload.read.elapsed + UInt64.ofInt workload.write.elapsed)
    min := if first then workload.startTime else minTime totals.min workload.startTime
    max := if first then workload.endTime else maxTime totals.max workload.endTime
    readElapsed := totals.readElapsed + workload.read.elapsed
    writeElapsed := totals.writeElapsed + workload.write.elapsed
    readRequests := totals.readRequests + workload.read.requests
    writeRequests := totals.writeRequests + workload.write.requests
    bytesRead := totals.bytesRead + workload.read.bytes
    bytesWritten := totals.bytesWritten + workload.write.bytes
    minReadLatency := if first then workload.read.minLatency
      else minTime totals.minReadLatency workload.read.minLatency
    maxReadLatency := if first then workload.read.maxLatency
      else maxTime totals.maxReadLatency workload.read.maxLatency
    minWriteLatency := if first then workload.write.minLatency
      else minTime totals.minWriteLatency workload.write.minLatency
    maxWriteLatency := if first then workload.write.maxLatency
      else maxTime totals.maxWriteLatency workload.write.maxLatency
    weight := totals.weight + weight / (count : T)
    weightedBytesPerSecond := totals.weightedBytesPerSecond + weight * workload.bytesPerSecond }

/-- The loop over the workers from worker `i` on. -/
def sumWorkers (count : ℕ) : ℕ → List (Option FinishedWorkload) → Totals T → Option (Totals T)
  | _, [], totals => some totals
  | i, none :: workers, totals => sumWorkers count (i + 1) workers totals
  | i, some finished :: workers, totals =>
    match (finished.weight : Option T) with
    | none => none
    | some weight => sumWorkers count (i + 1) workers (totals.add count i finished weight)

/-- The workloads of the workers that have one. -/
def workloadsOf (workers : List (Option FinishedWorkload)) : List FinishedWorkload :=
  workers.reduceOption

theorem mem_workloadsOf {workers : List (Option FinishedWorkload)} {finished : FinishedWorkload} :
    finished ∈ workloadsOf workers ↔ some finished ∈ workers := by
  simp [workloadsOf, List.reduceOption]

section Loop

variable {workers : List (Option FinishedWorkload)} {count i : ℕ} {totals : Totals T}

/-- The loop ends exactly when all divisions are possible. -/
theorem sumWorkers_isSome_iff :
    (sumWorkers count i workers totals).isSome ↔
      ∀ finished ∈ workloadsOf workers, finished.workload.Divides := by
  induction workers generalizing i totals with
  | nil => exact ⟨fun _ finished h => absurd h List.not_mem_nil, fun _ => rfl⟩
  | cons worker workers ih =>
    cases worker with
    | none =>
      rw [sumWorkers, workloadsOf, List.reduceOption_cons_of_none]
      exact ih
    | some finished =>
      rw [sumWorkers, workloadsOf, List.reduceOption_cons_of_some, List.forall_mem_cons,
        ← @weight_isSome_iff T]
      cases hweight : (finished.weight : Option T) with
      | none => simp
      | some weight => simpa [workloadsOf] using ih

/-- What one workload adds to a variable, the loop adds up over the workloads. -/
theorem sumWorkers_sum {M : Type} [AddMonoid M] (f : Totals T → M) (g : FinishedWorkload → M)
    (hadd : ∀ i finished weight (totals : Totals T), finished.weight = some weight →
      f (totals.add count i finished weight) = f totals + g finished)
    {totals' : Totals T} (h : sumWorkers count i workers totals = some totals') :
    f totals' = f totals + ((workloadsOf workers).map g).sum := by
  induction workers generalizing i totals with
  | nil =>
    cases h
    simp [workloadsOf, List.reduceOption]
  | cons worker workers ih =>
    cases worker with
    | none =>
      rw [sumWorkers] at h
      rw [workloadsOf, List.reduceOption_cons_of_none]
      exact ih h
    | some finished =>
      rw [sumWorkers] at h
      cases hweight : (finished.weight : Option T) with
      | none =>
        rw [hweight] at h
        cases h
      | some weight =>
        rw [hweight] at h
        rw [workloadsOf, List.reduceOption_cons_of_some, List.map_cons, List.sum_cons, ih h,
          hadd _ _ _ _ hweight, add_assoc]
        rfl

end Loop

variable [Zero T]

/-- The variables before the loop. -/
def Totals.initial (uninitialized : Uninitialized) : Totals T where
  maxActive := 0
  totalLatency := 0
  min := uninitialized.min
  max := uninitialized.max
  readElapsed := 0
  writeElapsed := 0
  readRequests := 0
  writeRequests := 0
  bytesRead := 0
  bytesWritten := 0
  minReadLatency := uninitialized.minReadLatency
  maxReadLatency := uninitialized.maxReadLatency
  minWriteLatency := uninitialized.minWriteLatency
  maxWriteLatency := uninitialized.maxWriteLatency
  weight := 0
  weightedBytesPerSecond := 0

/-- The reads of all workloads, as the line counts them. -/
def readRequests (workers : List (Option FinishedWorkload)) : UInt64 :=
  ((workloadsOf workers).map fun finished => finished.workload.read.requests).sum

/-- The writes of all workloads, as the line counts them. -/
def writeRequests (workers : List (Option FinishedWorkload)) : UInt64 :=
  ((workloadsOf workers).map fun finished => finished.workload.write.requests).sum

theorem sumWorkers_requests {uninitialized : Uninitialized}
    {workers : List (Option FinishedWorkload)} {count : ℕ} {totals : Totals T}
    (h : sumWorkers count 0 workers (Totals.initial uninitialized) = some totals) :
    totals.readRequests = readRequests workers ∧ totals.writeRequests = writeRequests workers := by
  have hread := sumWorkers_sum Totals.readRequests
    (fun finished => finished.workload.read.requests) (fun _ _ _ _ _ => rfl) h
  have hwrite := sumWorkers_sum Totals.writeRequests
    (fun finished => finished.workload.write.requests) (fun _ _ _ _ _ => rfl) h
  exact ⟨hread.trans (UInt64.zero_add _), hwrite.trans (UInt64.zero_add _)⟩

/-- The line that is made of the variables of the loop. -/
def Totals.line (totals : Totals T) : IoStatisticsLine T :=
  let totalBytes := totals.bytesRead + totals.bytesWritten
  let totalRequests := totals.readRequests + totals.writeRequests
  let totalElapsed := totals.max - totals.min
  { weight := totals.weight
    readElapsed := totals.readElapsed
    writeElapsed := totals.writeElapsed
    readRequests := totals.readRequests
    writeRequests := totals.writeRequests
    totalRequests := totalRequests
    bytesRead := totals.bytesRead
    bytesWritten := totals.bytesWritten
    totalBytes := totalBytes
    minReadLatency := totals.minReadLatency
    minWriteLatency := totals.minWriteLatency
    maxReadLatency := totals.maxReadLatency
    maxWriteLatency := totals.maxWriteLatency
    totalElapsed := totalElapsed
    minLatency := if totals.readRequests = 0 then totals.minWriteLatency
      else if totals.writeRequests = 0 then totals.minReadLatency
      else minTime totals.minReadLatency totals.minWriteLatency
    avgLatency := (totals.totalLatency.toNat : T) / (totalRequests.toNat : T)
    maxLatency := if totals.readRequests = 0 then totals.maxWriteLatency
      else if totals.writeRequests = 0 then totals.maxReadLatency
      else maxTime totals.maxReadLatency totals.maxWriteLatency
    bytesPerIo := (totalBytes.toNat : T) / (totalRequests.toNat : T)
    bytesPerSecond := throughputOf (totalBytes.toNat : T) totalElapsed
    weightedBytesPerSecond := totals.weightedBytesPerSecond }

/-- The statistics that `run_tests` allocates. -/
def IoStatistics.create (description : List Char) : IoStatistics T :=
  ⟨description, 0, 0, 0, 0, 0, 0, 0, 0, 0, 0, []⟩

variable [LT T] [DecidableLT T]

/-- The statistics after one more line. -/
def IoStatistics.push (maxActive : Int32) (line : IoStatisticsLine T)
    (statistics : IoStatistics T) : IoStatistics T :=
  let first := statistics.lines.isEmpty
  { description := statistics.description
    bytesRead := if first then line.bytesRead else statistics.bytesRead + line.bytesRead
    bytesWritten := if first then line.bytesWritten else statistics.bytesWritten + line.bytesWritten
    readRequests := if first then line.readRequests
      else statistics.readRequests + line.readRequests
    writeRequests := if first then line.writeRequests
      else statistics.writeRequests + line.writeRequests
    elapsed := if first then line.totalElapsed else statistics.elapsed + line.totalElapsed
    accumulatedWeight := if first then line.weight else statistics.accumulatedWeight + line.weight
    accumulatedWeightedBytesPerSecond := if first then line.weightedBytesPerSecond
      else statistics.accumulatedWeightedBytesPerSecond + line.weightedBytesPerSecond
    minThroughput := if first ∨ line.bytesPerSecond < statistics.minThroughput
      then line.bytesPerSecond else statistics.minThroughput
    maxThroughput := if first ∨ statistics.maxThroughput < line.bytesPerSecond
      then line.bytesPerSecond else statistics.maxThroughput
    maxActive := if first ∨ maxActive > statistics.maxActive then maxActive
      else statistics.maxActive
    lines := statistics.lines ++ [line] }

/-- `dump_statistics`. -/
def dumpStatistics (uninitialized : Uninitialized) (statistics : IoStatistics T)
    (workers : List (Option FinishedWorkload)) : Option (IoStatistics T) :=
  match sumWorkers workers.length 0 workers (Totals.initial uninitialized) with
  | none => none
  | some totals =>
    if totals.readRequests = 0 ∧ totals.writeRequests = 0 then some statistics
    else some (statistics.push totals.maxActive totals.line)

section Dump

variable {uninitialized : Uninitialized} {statistics : IoStatistics T}
  {workers : List (Option FinishedWorkload)}

/-- `dump_statistics` returns exactly when all its divisions are possible. -/
theorem dumpStatistics_isSome_iff : (dumpStatistics uninitialized statistics workers).isSome ↔
    ∀ finished ∈ workloadsOf workers, finished.workload.Divides := by
  rw [← @sumWorkers_isSome_iff T _ _ _ _ _ _ workers.length 0 (Totals.initial uninitialized),
    dumpStatistics]
  cases hsum : sumWorkers workers.length 0 workers (Totals.initial uninitialized : Totals T) with
  | none => rfl
  | some totals =>
    dsimp only
    split <;> rfl

/-- `dump_statistics` for a test without requests. -/
theorem dumpStatistics_of_empty {totals : Totals T}
    (h : sumWorkers workers.length 0 workers (Totals.initial uninitialized) = some totals)
    (hread : readRequests workers = 0) (hwrite : writeRequests workers = 0) :
    dumpStatistics uninitialized statistics workers = some statistics := by
  obtain ⟨hreads, hwrites⟩ := sumWorkers_requests h
  rw [dumpStatistics, h]
  exact if_pos ⟨hreads.trans hread, hwrites.trans hwrite⟩

/-- `dump_statistics` for a test with requests. -/
theorem dumpStatistics_of_requests {totals : Totals T}
    (h : sumWorkers workers.length 0 workers (Totals.initial uninitialized) = some totals)
    (hrequests : readRequests workers ≠ 0 ∨ writeRequests workers ≠ 0) :
    dumpStatistics uninitialized statistics workers =
      some (statistics.push totals.maxActive totals.line) := by
  obtain ⟨hreads, hwrites⟩ := sumWorkers_requests h
  rw [dumpStatistics, h]
  refine if_neg fun hempty => ?_
  rw [hreads, hwrites] at hempty
  exact hrequests.elim (fun hread => hread hempty.1) fun hwrite => hwrite hempty.2

/-- What `dump_statistics` has done when it returns. -/
theorem dumpStatistics_some {statistics' : IoStatistics T}
    (h : dumpStatistics uninitialized statistics workers = some statistics') :
    ∃ totals, sumWorkers workers.length 0 workers (Totals.initial uninitialized) = some totals ∧
      ((readRequests workers = 0 ∧ writeRequests workers = 0) ∧ statistics' = statistics ∨
        (readRequests workers ≠ 0 ∨ writeRequests workers ≠ 0) ∧
          statistics' = statistics.push totals.maxActive totals.line) := by
  cases hsum : sumWorkers workers.length 0 workers (Totals.initial uninitialized : Totals T) with
  | none =>
    rw [dumpStatistics, hsum] at h
    cases h
  | some totals =>
    refine ⟨totals, rfl, ?_⟩
    by_cases hempty : readRequests workers = 0 ∧ writeRequests workers = 0
    · rw [dumpStatistics_of_empty hsum hempty.1 hempty.2] at h
      cases h
      exact Or.inl ⟨hempty, rfl⟩
    · have hrequests : readRequests workers ≠ 0 ∨ writeRequests workers ≠ 0 := by
        by_contra hnone
        rw [not_or, not_not, not_not] at hnone
        exact hempty hnone
      rw [dumpStatistics_of_requests hsum hrequests] at h
      cases h
      exact Or.inr ⟨hrequests, rfl⟩

end Dump

end DiskBench
