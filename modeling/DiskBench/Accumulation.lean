import Mathlib.Data.List.Forall2
import DiskBench.StatisticsLine

/-!
# Statistics over several tests

`run_tests` calls `dump_statistics` once for each test, with the statistics of the tests before.
The lines of statistics are the lines of the tests, and the other counters are the sums over the
lines: a first line is written where the others are added.
-/

namespace DiskBench

/-- What is there when `dump_statistics` is called: the workers, and what its local variables
happen to hold. -/
structure TestResult where
  uninitialized : Uninitialized
  workers : List (Option FinishedWorkload)

/-- The line counts a request. -/
def TestResult.Counts (result : TestResult) : Prop :=
  readRequests result.workers ≠ 0 ∨ writeRequests result.workers ≠ 0

/-- A sum of words that does not overflow is the sum of their values. -/
theorem toNat_sum_of_lt {l : List UInt64} (h : (l.map UInt64.toNat).sum < 2 ^ 64) :
    l.sum.toNat = (l.map UInt64.toNat).sum := by
  induction l with
  | nil => rfl
  | cons x l ih =>
    rw [List.map_cons, List.sum_cons] at h
    rw [List.sum_cons, List.map_cons, List.sum_cons, UInt64.toNat_add, ih (by omega),
      Nat.mod_eq_of_lt h]

/-- Workloads that have each completed a request, with fewer than 2^64 requests in all. -/
structure TestResult.Completed (result : TestResult) : Prop where
  requests : ∀ finished ∈ workloadsOf result.workers,
    finished.workload.read.requests ≠ 0 ∨ finished.workload.write.requests ≠ 0
  count : ((workloadsOf result.workers).map fun finished =>
    finished.workload.read.requests.toNat + finished.workload.write.requests.toNat).sum < 2 ^ 64

/-- The requests of one kind in a test are counted without overflow. -/
theorem eq_zero_of_sum_eq_zero {l : List FinishedWorkload} {g : FinishedWorkload → UInt64}
    (hsum : (l.map g).sum = 0) (h : (l.map fun finished => (g finished).toNat).sum < 2 ^ 64) :
    ∀ finished ∈ l, g finished = 0 := by
  intro finished hmem
  have hmap :
      ((l.map g).map UInt64.toNat).sum = (l.map fun finished => (g finished).toNat).sum := by
    rw [List.map_map]
    rfl
  have hzero := toNat_sum_of_lt (l := l.map g) (by rwa [hmap])
  rw [hsum, hmap, UInt64.toNat_zero] at hzero
  have hle := List.le_sum_of_mem
    (List.mem_map_of_mem (f := fun finished => (g finished).toNat) hmem)
  apply UInt64.toNat_inj.mp
  rw [UInt64.toNat_zero]
  omega

/-- The line of such workloads counts a request. -/
theorem TestResult.Completed.counts {result : TestResult} (h : result.Completed)
    (hne : workloadsOf result.workers ≠ []) : result.Counts := by
  by_contra hnone
  rw [TestResult.Counts, not_or, not_not, not_not] at hnone
  obtain ⟨finished, hmem⟩ := List.exists_mem_of_ne_nil _ hne
  have hread := eq_zero_of_sum_eq_zero hnone.1
    ((List.sum_le_sum fun _ _ => Nat.le_add_right _ _).trans_lt h.count) finished hmem
  have hwrite := eq_zero_of_sum_eq_zero hnone.2
    ((List.sum_le_sum fun _ _ => Nat.le_add_left _ _).trans_lt h.count) finished hmem
  exact (h.requests finished hmem).elim (fun hne => hne hread) fun hne => hne hwrite

section Counters

variable {T : Type}

/-- The counters of statistics are the sums over their lines. -/
structure IoStatistics.Counted (statistics : IoStatistics T) : Prop where
  bytesRead : statistics.bytesRead = (statistics.lines.map IoStatisticsLine.bytesRead).sum
  bytesWritten :
    statistics.bytesWritten = (statistics.lines.map IoStatisticsLine.bytesWritten).sum
  readRequests :
    statistics.readRequests = (statistics.lines.map IoStatisticsLine.readRequests).sum
  writeRequests :
    statistics.writeRequests = (statistics.lines.map IoStatisticsLine.writeRequests).sum

/-- New statistics have no lines, and the counters are 0. -/
theorem create_counted [Zero T] (description : List Char) :
    (IoStatistics.create description : IoStatistics T).Counted := ⟨rfl, rfl, rfl, rfl⟩

/-- The convention that a first line is written: it is the sum over one line. -/
theorem sum_push {M : Type} [AddMonoid M] {lines : List (IoStatisticsLine T)}
    (f : IoStatisticsLine T → M) (line : IoStatisticsLine T) {sum : M}
    (h : sum = (lines.map f).sum) :
    (if lines.isEmpty = true then f line else sum + f line) = ((lines ++ [line]).map f).sum := by
  rw [List.map_append, List.sum_append, ← h, List.map_singleton, List.sum_singleton]
  cases lines with
  | nil =>
    rw [h]
    simp
  | cons => rfl

variable [Add T] [LT T] [DecidableLT T]

@[simp] theorem push_lines (maxActive : Int32) (line : IoStatisticsLine T)
    (statistics : IoStatistics T) :
    (statistics.push maxActive line).lines = statistics.lines ++ [line] := rfl

@[simp] theorem push_description (maxActive : Int32) (line : IoStatisticsLine T)
    (statistics : IoStatistics T) :
    (statistics.push maxActive line).description = statistics.description := rfl

/-- One more line is counted. -/
theorem IoStatistics.Counted.push {statistics : IoStatistics T} (h : statistics.Counted)
    (maxActive : Int32) (line : IoStatisticsLine T) : (statistics.push maxActive line).Counted :=
  ⟨sum_push IoStatisticsLine.bytesRead line h.bytesRead,
    sum_push IoStatisticsLine.bytesWritten line h.bytesWritten,
    sum_push IoStatisticsLine.readRequests line h.readRequests,
    sum_push IoStatisticsLine.writeRequests line h.writeRequests⟩

end Counters

variable {T : Type} [Add T] [Div T] [NatCast T] [IntCast T] [Mul T] [Zero T]

/-- The line that `dump_statistics` makes of a test. -/
def TestResult.HasLine (result : TestResult) (line : IoStatisticsLine T) : Prop :=
  ∃ totals : Totals T, sumWorkers result.workers.length 0 result.workers
    (Totals.initial result.uninitialized) = some totals ∧ line = totals.line

section Words

variable {result : TestResult} {line : IoStatisticsLine T}

/-- A sum over the workloads of a test. -/
def TestResult.sum (g : IoWorkload → UInt64) (result : TestResult) : UInt64 :=
  ((workloadsOf result.workers).map fun finished => g finished.workload).sum

/-- The counters of a line are the sums over the workloads. -/
theorem TestResult.HasLine.words (h : result.HasLine line) :
    line.bytesRead = result.sum (fun workload => workload.read.bytes) ∧
      line.bytesWritten = result.sum (fun workload => workload.write.bytes) ∧
      line.readRequests = result.sum (fun workload => workload.read.requests) ∧
      line.writeRequests = result.sum (fun workload => workload.write.requests) := by
  obtain ⟨totals, hsum, rfl⟩ := h
  have word : ∀ (f : Totals T → UInt64) (g : IoWorkload → UInt64),
      (∀ i finished weight (totals : Totals T), finished.weight = some weight →
        f (totals.add result.workers.length i finished weight) =
          f totals + g finished.workload) →
      f (Totals.initial result.uninitialized) = 0 → f totals = result.sum g := by
    intro f g hadd hzero
    have htotal := sumWorkers_sum f (fun finished => g finished.workload) hadd hsum
    rw [hzero, zero_add] at htotal
    exact htotal
  exact ⟨word Totals.bytesRead _ (fun _ _ _ _ _ => rfl) rfl,
    word Totals.bytesWritten _ (fun _ _ _ _ _ => rfl) rfl,
    word Totals.readRequests _ (fun _ _ _ _ _ => rfl) rfl,
    word Totals.writeRequests _ (fun _ _ _ _ _ => rfl) rfl⟩

/-- A counter of the lines that sums up one of the workloads. -/
theorem sum_lines {results : List TestResult} {lines : List (IoStatisticsLine T)}
    {k : IoStatisticsLine T → UInt64} {g : IoWorkload → UInt64}
    (h : List.Forall₂ TestResult.HasLine results lines)
    (hk : ∀ result : TestResult, ∀ line, result.HasLine line → k line = result.sum g) :
    (lines.map k).sum = (results.map (TestResult.sum g)).sum := by
  induction h with
  | nil => rfl
  | cons hline _ ih =>
    rw [List.map_cons, List.sum_cons, ih, hk _ _ hline, List.map_cons, List.sum_cons]

end Words

variable [LT T] [DecidableLT T]

/-- The calls of `dump_statistics` for tests one after another. -/
def IoStatistics.accumulate (statistics : IoStatistics T) (results : List TestResult) :
    Option (IoStatistics T) :=
  results.foldlM (fun statistics result =>
    dumpStatistics result.uninitialized statistics result.workers) statistics

section Tests

variable {statistics statistics' : IoStatistics T} {result : TestResult}
  {results : List TestResult}

theorem accumulate_cons : statistics.accumulate (result :: results) =
    (dumpStatistics result.uninitialized statistics result.workers).bind fun statistics =>
      statistics.accumulate results := rfl

theorem accumulate_snoc : statistics.accumulate (results ++ [result]) =
    (statistics.accumulate results).bind fun statistics =>
      dumpStatistics result.uninitialized statistics result.workers := by
  rw [IoStatistics.accumulate, List.foldlM_append]
  simp [IoStatistics.accumulate]

/-- A test whose requests are counted adds its line. -/
theorem dumpStatistics_line (hcounts : result.Counts)
    (h : dumpStatistics result.uninitialized statistics result.workers = some statistics') :
    ∃ maxActive line, result.HasLine line ∧ statistics' = statistics.push maxActive line := by
  obtain ⟨totals, hsum, ⟨hempty, _⟩ | ⟨_, hpush⟩⟩ := dumpStatistics_some h
  · exact absurd hempty (not_and_or.mpr hcounts)
  · exact ⟨totals.maxActive, totals.line, ⟨totals, hsum, rfl⟩, hpush⟩

/-- What holds of the statistics after each line holds after all tests. -/
theorem accumulate_induction {P : List (IoStatisticsLine T) → IoStatistics T → Prop}
    (hcounts : ∀ result ∈ results, result.Counts)
    (hpush : ∀ lines statistics maxActive line, P lines statistics →
      P (lines ++ [line]) (statistics.push maxActive line))
    {before : List (IoStatisticsLine T)} (hstart : P before statistics)
    (h : statistics.accumulate results = some statistics') :
    ∃ lines, List.Forall₂ TestResult.HasLine results lines ∧ P (before ++ lines) statistics' := by
  induction results generalizing statistics before with
  | nil =>
    cases h
    exact ⟨[], .nil, by rwa [List.append_nil]⟩
  | cons result results ih =>
    rw [accumulate_cons, Option.bind_eq_some_iff] at h
    obtain ⟨next, hdump, hrest⟩ := h
    rw [List.forall_mem_cons] at hcounts
    obtain ⟨maxActive, line, hline, rfl⟩ := dumpStatistics_line hcounts.1 hdump
    obtain ⟨lines, hlines, hP⟩ := ih hcounts.2 (hpush _ _ maxActive line hstart) hrest
    refine ⟨line :: lines, .cons hline hlines, ?_⟩
    rwa [List.append_assoc, List.singleton_append] at hP

/-- The lines of the tests are added one after another, and the statistics stay counted. -/
theorem accumulate_lines (hcounts : ∀ result ∈ results, result.Counts)
    (h : statistics.accumulate results = some statistics') :
    ∃ lines, List.Forall₂ TestResult.HasLine results lines ∧
      statistics'.lines = statistics.lines ++ lines ∧
      statistics'.description = statistics.description ∧
      (statistics.Counted → statistics'.Counted) := by
  refine (accumulate_induction (P := fun lines next => next.lines = lines ∧
    next.description = statistics.description ∧ (statistics.Counted → next.Counted)) hcounts
    ?_ ⟨rfl, rfl, id⟩ h)
  rintro lines next maxActive line ⟨hlines, hdescription, hcounted⟩
  exact ⟨by rw [push_lines, hlines], hdescription, fun h => (hcounted h).push maxActive line⟩

end Tests

end DiskBench
