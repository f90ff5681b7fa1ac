import Mathlib.Algebra.Order.BigOperators.Group.List
import Mathlib.Algebra.Order.Group.Nat
import Mathlib.Algebra.Order.Ring.Rat
import DiskBench.Foundations.Extremes
import DiskBench.Statistics

/-!
# The line of a test

The latencies of a line are folded twice: `read_complete` and `write_complete` fold them into the
counters of a workload, and `dump_statistics` folds the counters of the workloads. The second fold
starts with the worker of index 0, and the extremes of a workload without requests of a kind are 0.
-/

namespace DiskBench

open Extremes

/-- A completed request, as the counters of a workload see it. -/
structure Completion where
  elapsed : AprTime
  size : UInt64

/-- The counters that the callbacks leave behind completed requests of one kind. -/
def IoCounters.after (completions : List Completion) : IoCounters :=
  completions.foldl (fun counters c => counters.record c.elapsed c.size) .zero

/-- The latencies of completed requests. -/
def latencies (completions : List Completion) : Set AprTime :=
  {x | ∃ c ∈ completions, c.elapsed = x}

/-- A thread that has ended, with all requests that it has completed. -/
structure ThreadRun where
  reads : List Completion
  writes : List Completion
  submittedBytes : UInt64
  startTime : AprTime
  endTime : AprTime
  queueDepth : Int32
  maxActive : Int32
  generator : GeneratorData

/-- The workload that the thread leaves. -/
def ThreadRun.finished (run : ThreadRun) : FinishedWorkload where
  workload := ⟨run.submittedBytes, .after run.reads, .after run.writes, run.startTime, run.endTime,
    run.queueDepth, run.maxActive⟩
  generator := run.generator

section Counters

variable {completions : List Completion}

theorem after_append (completions : List Completion) (c : Completion) :
    IoCounters.after (completions ++ [c]) =
      (IoCounters.after completions).record c.elapsed c.size := by
  simp [IoCounters.after]

/-- The counters count the requests. -/
theorem after_requests (completions : List Completion) :
    (IoCounters.after completions).requests = UInt64.ofNat completions.length := by
  induction completions using List.reverseRecOn with
  | nil => rfl
  | append_singleton completions c ih =>
    rw [after_append, List.length_append, UInt64.ofNat_add, ← ih]
    rfl

/-- The counters add up the sizes. -/
theorem after_bytes (completions : List Completion) :
    (IoCounters.after completions).bytes = (completions.map Completion.size).sum := by
  induction completions using List.reverseRecOn with
  | nil => rfl
  | append_singleton completions c ih =>
    rw [after_append, List.map_append, List.sum_append, List.map_singleton, List.sum_singleton,
      ← ih]
    rfl

theorem after_requests_eq_zero (h : completions.length < 2 ^ 64) :
    (IoCounters.after completions).requests = 0 ↔ completions = [] := by
  rw [after_requests, ← UInt64.toNat_inj, UInt64.toNat_ofNat_of_lt' h, UInt64.toNat_zero,
    List.length_eq_zero_iff]

/-- The extreme latencies that the counters keep are those of the requests. -/
theorem after_extremes (h : completions.length < 2 ^ 64) (hne : completions ≠ []) :
    IsLeast (latencies completions) (IoCounters.after completions).minLatency ∧
      IsGreatest (latencies completions) (IoCounters.after completions).maxLatency := by
  induction completions using List.reverseRecOn with
  | nil => exact absurd rfl hne
  | append_singleton completions c ih =>
    rw [List.length_append] at h
    have hlength : completions.length < 2 ^ 64 := by omega
    have hzero := after_requests_eq_zero hlength
    have hlatencies :
        latencies (completions ++ [c]) = insert c.elapsed (latencies completions) := by
      ext x
      simp only [latencies, List.mem_append, List.mem_singleton, Set.mem_ofPred_eq,
        Set.mem_insert_iff]
      constructor
      · rintro ⟨d, hd | rfl, rfl⟩
        · exact Or.inr ⟨d, hd, rfl⟩
        · exact Or.inl rfl
      · rintro (rfl | ⟨d, hd, rfl⟩)
        · exact ⟨c, Or.inr rfl, rfl⟩
        · exact ⟨d, Or.inl hd, rfl⟩
    rw [hlatencies, after_append]
    by_cases hnil : completions = []
    · subst hnil
      have hnone : latencies [] = ∅ := by simp [latencies]
      rw [hnone, insert_empty_eq]
      simp [IoCounters.record, IoCounters.after, IoCounters.zero]
    · obtain ⟨hleast, hgreatest⟩ := ih hlength hnil
      have hrequests : (IoCounters.after completions).requests ≠ 0 := fun h => hnil (hzero.mp h)
      have hmin : ((IoCounters.after completions).record c.elapsed c.size).minLatency =
          min c.elapsed (IoCounters.after completions).minLatency := by
        simp only [IoCounters.record, hrequests, false_or]
        split
        next h => exact (min_eq_left h.le).symm
        next h => exact (min_eq_right (not_lt.mp h)).symm
      have hmax : ((IoCounters.after completions).record c.elapsed c.size).maxLatency =
          max c.elapsed (IoCounters.after completions).maxLatency := by
        simp only [IoCounters.record, hrequests, false_or]
        split
        next h => exact (max_eq_left (le_of_lt h)).symm
        next h => exact (max_eq_right (not_lt.mp h)).symm
      rw [hmin, hmax]
      exact ⟨hleast.insert _, hgreatest.insert _⟩

end Counters

section Fold

variable {T : Type} [Add T] [Div T] [NatCast T] [IntCast T] [Mul T] {count i : ℕ}
  {workers : List (Option FinishedWorkload)} {totals totals' : Totals T}

theorem minTime_eq_min (a b : AprTime) : minTime a b = min a b := by
  unfold minTime
  split
  next h => exact (min_eq_left h.le).symm
  next h => exact (min_eq_right (not_lt.mp h)).symm

theorem maxTime_eq_max (a b : AprTime) : maxTime a b = max a b := by
  unfold maxTime
  split
  next h => exact (max_eq_left h.le).symm
  next h => exact (max_eq_right (not_lt.mp h)).symm

/-- A variable that starts with the worker of index 0 and takes up the others one by one. -/
structure FoldsFrom (op : AprTime → AprTime → AprTime) (f : Totals T → AprTime)
    (g : FinishedWorkload → AprTime) : Prop where
  first : ∀ count finished weight (totals : Totals T),
    f (totals.add count 0 finished weight) = g finished
  next : ∀ count i finished weight (totals : Totals T),
    f (totals.add count (i + 1) finished weight) = op (f totals) (g finished)

/-- `min` takes up the start times. -/
theorem foldsFrom_min :
    FoldsFrom (T := T) minTime Totals.min fun finished => finished.workload.startTime :=
  ⟨fun _ _ _ _ => rfl, fun _ _ _ _ _ => rfl⟩

/-- `max` takes up the end times. -/
theorem foldsFrom_max :
    FoldsFrom (T := T) maxTime Totals.max fun finished => finished.workload.endTime :=
  ⟨fun _ _ _ _ => rfl, fun _ _ _ _ _ => rfl⟩

/-- The extreme latencies of a line take up those of the workloads. -/
theorem foldsFrom_latencies :
    FoldsFrom (T := T) minTime Totals.minReadLatency
        (fun finished => finished.workload.read.minLatency) ∧
      FoldsFrom (T := T) maxTime Totals.maxReadLatency
        (fun finished => finished.workload.read.maxLatency) ∧
      FoldsFrom (T := T) minTime Totals.minWriteLatency
        (fun finished => finished.workload.write.minLatency) ∧
      FoldsFrom (T := T) maxTime Totals.maxWriteLatency
        fun finished => finished.workload.write.maxLatency :=
  ⟨⟨fun _ _ _ _ => rfl, fun _ _ _ _ _ => rfl⟩, ⟨fun _ _ _ _ => rfl, fun _ _ _ _ _ => rfl⟩,
    ⟨fun _ _ _ _ => rfl, fun _ _ _ _ _ => rfl⟩, fun _ _ _ _ => rfl, fun _ _ _ _ _ => rfl⟩

variable {op : AprTime → AprTime → AprTime} {f : Totals T → AprTime}
  {g : FinishedWorkload → AprTime}

/-- Behind the worker of index 0 the workers are taken up one by one. -/
theorem sumWorkers_fold (hfolds : FoldsFrom op f g)
    (h : sumWorkers count (i + 1) workers totals = some totals') :
    f totals' = ((workloadsOf workers).map g).foldl op (f totals) := by
  induction workers generalizing i totals with
  | nil =>
    cases h
    rfl
  | cons worker workers ih =>
    cases worker with
    | none =>
      rw [workloadsOf, List.reduceOption_cons_of_none]
      exact ih h
    | some finished =>
      rw [sumWorkers] at h
      cases hweight : (finished.weight : Option T) with
      | none =>
        rw [hweight] at h
        cases h
      | some weight =>
        rw [hweight] at h
        rw [workloadsOf, List.reduceOption_cons_of_some, List.map_cons, List.foldl_cons, ih h,
          hfolds.next]
        rfl

/-- From a worker of index 0 with a workload the variable is a fold over the workloads. -/
theorem sumWorkers_fold_first {finished : FinishedWorkload} (hfolds : FoldsFrom op f g)
    (h : sumWorkers count 0 (some finished :: workers) totals = some totals') :
    f totals' = ((workloadsOf workers).map g).foldl op (g finished) := by
  rw [sumWorkers] at h
  cases hweight : (finished.weight : Option T) with
  | none =>
    rw [hweight] at h
    cases h
  | some weight =>
    rw [hweight] at h
    rw [sumWorkers_fold hfolds h, hfolds.first]

/-- The values of the workloads behind a worker that has one. -/
theorem image_workloadsOf (g : FinishedWorkload → AprTime) (finished : FinishedWorkload)
    (workers : List (Option FinishedWorkload)) :
    g '' {x | x ∈ workloadsOf (some finished :: workers)} =
      {x | x ∈ g finished :: (workloadsOf workers).map g} := by
  rw [workloadsOf, List.reduceOption_cons_of_some]
  ext x
  simp [workloadsOf, eq_comm]

/-- A fold with `min` finds the least value over the workloads. -/
theorem isLeast_of_folds {finished : FinishedWorkload} (hfolds : FoldsFrom minTime f g)
    (h : sumWorkers count 0 (some finished :: workers) totals = some totals') :
    IsLeast (g '' {x | x ∈ workloadsOf (some finished :: workers)}) (f totals') := by
  have hop : minTime = min := funext₂ minTime_eq_min
  rw [sumWorkers_fold_first hfolds h, hop, image_workloadsOf]
  exact foldl_min_isLeast _ _

/-- A fold with `max` finds the greatest value over the workloads. -/
theorem isGreatest_of_folds {finished : FinishedWorkload} (hfolds : FoldsFrom maxTime f g)
    (h : sumWorkers count 0 (some finished :: workers) totals = some totals') :
    IsGreatest (g '' {x | x ∈ workloadsOf (some finished :: workers)}) (f totals') := by
  have hop : maxTime = max := funext₂ maxTime_eq_max
  rw [sumWorkers_fold_first hfolds h, hop, image_workloadsOf]
  exact foldl_max_isGreatest _ _

end Fold

/-- The threads of the workers that have a workload. -/
def runsOf (workers : List (Option ThreadRun)) : Set ThreadRun := {run | some run ∈ workers}

/-- The workers with the workloads that their threads leave. -/
def finishedWorkers (workers : List (Option ThreadRun)) : List (Option FinishedWorkload) :=
  workers.map (Option.map ThreadRun.finished)

/-- The latencies of all requests of a kind. -/
def kindLatencies (kind : ThreadRun → List Completion) (workers : List (Option ThreadRun)) :
    Set AprTime :=
  ⋃ run ∈ runsOf workers, latencies (kind run)

/-- The line says what has happened: the extreme latencies of the reads, of the writes and of all
requests, and the time from the earliest start to the latest end. -/
structure IoStatisticsLine.Exact {T : Type} (workers : List (Option ThreadRun))
    (line : IoStatisticsLine T) : Prop where
  reads : (kindLatencies ThreadRun.reads workers).Nonempty →
    IsLeast (kindLatencies ThreadRun.reads workers) line.minReadLatency ∧
      IsGreatest (kindLatencies ThreadRun.reads workers) line.maxReadLatency
  writes : (kindLatencies ThreadRun.writes workers).Nonempty →
    IsLeast (kindLatencies ThreadRun.writes workers) line.minWriteLatency ∧
      IsGreatest (kindLatencies ThreadRun.writes workers) line.maxWriteLatency
  all : IsLeast (kindLatencies ThreadRun.reads workers ∪ kindLatencies ThreadRun.writes workers)
      line.minLatency ∧
    IsGreatest (kindLatencies ThreadRun.reads workers ∪ kindLatencies ThreadRun.writes workers)
      line.maxLatency
  totalElapsed : ∃ earliest latest, IsLeast (ThreadRun.startTime '' runsOf workers) earliest ∧
    IsGreatest (ThreadRun.endTime '' runsOf workers) latest ∧ line.totalElapsed = latest - earliest

/-- A kind of request that no workload has made or every workload has made, or whose latencies lie
on both sides of the 0 that stands for a workload without such requests. -/
def Covered (kind : ThreadRun → List Completion) (workers : List (Option ThreadRun)) : Prop :=
  (∀ run ∈ runsOf workers, kind run = []) ∨ (∀ run ∈ runsOf workers, kind run ≠ []) ∨
    ((∃ x ∈ kindLatencies kind workers, x ≤ 0) ∧ ∃ x ∈ kindLatencies kind workers, 0 ≤ x)

/-- Threads that have each completed a request, and fewer than 2^64 requests in all. -/
structure Ended (workers : List (Option ThreadRun)) : Prop where
  nonempty : ∀ run ∈ runsOf workers, run.reads ≠ [] ∨ run.writes ≠ []
  count : (workers.reduceOption.map fun run => run.reads.length + run.writes.length).sum < 2 ^ 64

/-- Statistics with one more line tell which line it is. -/
theorem push_line_inj {T : Type} [Add T] [LT T] [DecidableLT T] {statistics : IoStatistics T}
    {m m' : Int32} {line line' : IoStatisticsLine T}
    (h : statistics.push m line = statistics.push m' line') : line = line' := by
  have hlines := congrArg IoStatistics.lines h
  simpa [IoStatistics.push] using hlines

/-- Statistics with one more line are other statistics. -/
theorem push_ne {T : Type} [Add T] [LT T] [DecidableLT T] {statistics : IoStatistics T} {m : Int32}
    {line : IoStatisticsLine T} : statistics ≠ statistics.push m line := by
  intro h
  have hlength := congrArg (fun s : IoStatistics T => s.lines.length) h
  simp [IoStatistics.push] at hlength

section Line

variable {workers : List (Option ThreadRun)} {kind : ThreadRun → List Completion}

theorem mem_reduceOption {run : ThreadRun} : run ∈ workers.reduceOption ↔ run ∈ runsOf workers := by
  simp [List.reduceOption, runsOf]

theorem latencies_nonempty {completions : List Completion} :
    (latencies completions).Nonempty ↔ completions ≠ [] := by
  constructor
  · rintro ⟨_, c, hc, _⟩
    exact List.ne_nil_of_mem hc
  · intro hne
    obtain ⟨c, hc⟩ := List.exists_mem_of_ne_nil _ hne
    exact ⟨_, c, hc, rfl⟩

theorem kindLatencies_nonempty :
    (kindLatencies kind workers).Nonempty ↔ ∃ run ∈ runsOf workers, kind run ≠ [] := by
  simp only [kindLatencies, Set.nonempty_biUnion, latencies_nonempty]

/-- The extremes over the workloads are those over the requests of a kind exactly when the kind is
covered. -/
theorem extremes_iff_covered {m M : AprTime} (hlength : ∀ run ∈ runsOf workers,
      (kind run).length < 2 ^ 64)
    (hm : IsLeast ((fun run => (IoCounters.after (kind run)).minLatency) '' runsOf workers) m)
    (hM : IsGreatest ((fun run => (IoCounters.after (kind run)).maxLatency) '' runsOf workers) M) :
    ((kindLatencies kind workers).Nonempty → IsLeast (kindLatencies kind workers) m ∧
        IsGreatest (kindLatencies kind workers) M) ↔ Covered kind workers := by
  have hnone : ∀ run, latencies (kind run) = ∅ → kind run = [] := fun run hempty => by
    by_contra hne
    exact (latencies_nonempty.mpr hne).ne_empty hempty
  have hleast := isLeast_biUnion_iff (l := fun run => latencies (kind run)) (z := 0)
    (fun run _ hempty => by rw [hnone run hempty]; rfl)
    (fun run hrun hne => (after_extremes (hlength run hrun) (latencies_nonempty.mp hne)).1) hm
  have hgreatest := isGreatest_biUnion_iff (l := fun run => latencies (kind run)) (z := 0)
    (fun run _ hempty => by rw [hnone run hempty]; rfl)
    (fun run hrun hne => (after_extremes (hlength run hrun) (latencies_nonempty.mp hne)).2) hM
  simp only [latencies_nonempty] at hleast hgreatest
  constructor
  · intro h
    by_cases hall : ∀ run ∈ runsOf workers, kind run = []
    · exact Or.inl hall
    · obtain ⟨hl, hg⟩ := h (kindLatencies_nonempty.mpr (by simpa using hall))
      by_cases hevery : ∀ run ∈ runsOf workers, kind run ≠ []
      · exact Or.inr (Or.inl hevery)
      · exact Or.inr (Or.inr ⟨(hleast.mp hl).resolve_left hevery,
          (hgreatest.mp hg).resolve_left hevery⟩)
  · rintro (hall | hevery | ⟨hlow, hhigh⟩) hne
    · obtain ⟨run, hrun, hkind⟩ := kindLatencies_nonempty.mp hne
      exact absurd (hall run hrun) hkind
    · exact ⟨hleast.mpr (Or.inl hevery), hgreatest.mpr (Or.inl hevery)⟩
    · exact ⟨hleast.mpr (Or.inr hlow), hgreatest.mpr (Or.inr hhigh)⟩

/-- A thread has at most as many requests of a kind as there are in all. -/
theorem Ended.length_lt (h : Ended workers) {run : ThreadRun} (hrun : run ∈ runsOf workers) :
    run.reads.length < 2 ^ 64 ∧ run.writes.length < 2 ^ 64 := by
  have hle := List.le_sum_of_mem (List.mem_map_of_mem (f := fun run : ThreadRun =>
    run.reads.length + run.writes.length) (mem_reduceOption.mpr hrun))
  have hcount := h.count
  omega

/-- A sum of numbers as a sum of words. -/
theorem sum_map_ofNat (l : List ThreadRun) (f : ThreadRun → ℕ) :
    (l.map fun run => UInt64.ofNat (f run)).sum = UInt64.ofNat (l.map f).sum := by
  induction l with
  | nil => rfl
  | cons run l ih =>
    rw [List.map_cons, List.sum_cons, ih, List.map_cons, List.sum_cons, UInt64.ofNat_add]

/-- The line counts the requests of a kind without overflow. -/
theorem requests_eq_zero_iff
    (hcount : (workers.reduceOption.map fun run => (kind run).length).sum < 2 ^ 64) :
    (workers.reduceOption.map fun run => (IoCounters.after (kind run)).requests).sum = 0 ↔
      ∀ run ∈ runsOf workers, kind run = [] := by
  simp only [after_requests]
  rw [sum_map_ofNat, ← UInt64.toNat_inj, UInt64.toNat_ofNat_of_lt' hcount, UInt64.toNat_zero,
    List.sum_eq_zero_iff_forall_eq_nat]
  simp [mem_reduceOption]

theorem workloadsOf_finishedWorkers (workers : List (Option ThreadRun)) :
    workloadsOf (finishedWorkers workers) = workers.reduceOption.map ThreadRun.finished :=
  List.reduceOption_map

/-- The requests of one kind are not more than those of both. -/
theorem Ended.count_kind (h : Ended workers)
    (hkind : ∀ run, (kind run).length ≤ run.reads.length + run.writes.length) :
    (workers.reduceOption.map fun run => (kind run).length).sum < 2 ^ 64 :=
  Nat.lt_of_le_of_lt (List.sum_le_sum fun run _ => hkind run) h.count

theorem Ended.readRequests_eq_zero (h : Ended workers) :
    readRequests (finishedWorkers workers) = 0 ↔ ∀ run ∈ runsOf workers, run.reads = [] := by
  rw [readRequests, workloadsOf_finishedWorkers, List.map_map]
  exact requests_eq_zero_iff (h.count_kind fun run => Nat.le_add_right _ _)

theorem Ended.writeRequests_eq_zero (h : Ended workers) :
    writeRequests (finishedWorkers workers) = 0 ↔ ∀ run ∈ runsOf workers, run.writes = [] := by
  rw [writeRequests, workloadsOf_finishedWorkers, List.map_map]
  exact requests_eq_zero_iff (h.count_kind fun run => Nat.le_add_left _ _)

theorem image_finishedWorkers (g : FinishedWorkload → AprTime) :
    g '' {x | x ∈ workloadsOf (finishedWorkers workers)} =
      (fun run : ThreadRun => g run.finished) '' runsOf workers := by
  rw [workloadsOf_finishedWorkers]
  ext x
  simp [mem_reduceOption]

variable {T : Type} [Div T] [NatCast T] [IntCast T] [Mul T] {first : ThreadRun} {count : ℕ}
  {totals totals' : Totals T} {f : Totals T → AprTime} {g : FinishedWorkload → AprTime}

/-- The union of reads and writes has the extremes that the line chooses. -/
theorem Ended.all_extremes (hended : Ended workers)
    (hrequests : totals.readRequests = readRequests (finishedWorkers workers) ∧
      totals.writeRequests = writeRequests (finishedWorkers workers))
    (hrun : (runsOf workers).Nonempty)
    (hreads : (kindLatencies ThreadRun.reads workers).Nonempty →
      IsLeast (kindLatencies ThreadRun.reads workers) totals.minReadLatency ∧
        IsGreatest (kindLatencies ThreadRun.reads workers) totals.maxReadLatency)
    (hwrites : (kindLatencies ThreadRun.writes workers).Nonempty →
      IsLeast (kindLatencies ThreadRun.writes workers) totals.minWriteLatency ∧
        IsGreatest (kindLatencies ThreadRun.writes workers) totals.maxWriteLatency) :
    IsLeast (kindLatencies ThreadRun.reads workers ∪ kindLatencies ThreadRun.writes workers)
        totals.line.minLatency ∧
      IsGreatest (kindLatencies ThreadRun.reads workers ∪ kindLatencies ThreadRun.writes workers)
        totals.line.maxLatency := by
  have hread : totals.readRequests = 0 ↔ kindLatencies ThreadRun.reads workers = ∅ := by
    rw [hrequests.1, hended.readRequests_eq_zero, ← Set.not_nonempty_iff_eq_empty,
      kindLatencies_nonempty]
    simp
  have hwrite : totals.writeRequests = 0 ↔ kindLatencies ThreadRun.writes workers = ∅ := by
    rw [hrequests.2, hended.writeRequests_eq_zero, ← Set.not_nonempty_iff_eq_empty,
      kindLatencies_nonempty]
    simp
  unfold Totals.line
  dsimp only
  by_cases hr : totals.readRequests = 0
  · rw [if_pos hr, if_pos hr, hread.mp hr, Set.empty_union]
    apply hwrites
    obtain ⟨run, hmem⟩ := hrun
    have hnil := (hended.readRequests_eq_zero).mp (hrequests.1 ▸ hr) run hmem
    exact kindLatencies_nonempty.mpr
      ⟨run, hmem, (hended.nonempty run hmem).resolve_left (not_not.mpr hnil)⟩
  · have hne := Set.nonempty_iff_ne_empty.mpr fun hempty => hr (hread.mpr hempty)
    obtain ⟨hleast, hgreatest⟩ := hreads hne
    rw [if_neg hr, if_neg hr]
    by_cases hw : totals.writeRequests = 0
    · rw [if_pos hw, if_pos hw, hwrite.mp hw, Set.union_empty]
      exact ⟨hleast, hgreatest⟩
    · obtain ⟨hleast', hgreatest'⟩ :=
        hwrites (Set.nonempty_iff_ne_empty.mpr fun hempty => hw (hwrite.mpr hempty))
      rw [if_neg hw, if_neg hw, minTime_eq_min, maxTime_eq_max]
      exact ⟨hleast.union hleast', hgreatest.union hgreatest'⟩

variable [Add T]

theorem isLeast_runs (hfolds : FoldsFrom minTime f g)
    (h : sumWorkers count 0 (finishedWorkers (some first :: workers)) totals = some totals') :
    IsLeast ((fun run : ThreadRun => g run.finished) '' runsOf (some first :: workers))
      (f totals') := by
  rw [← image_finishedWorkers]
  exact isLeast_of_folds hfolds h

theorem isGreatest_runs (hfolds : FoldsFrom maxTime f g)
    (h : sumWorkers count 0 (finishedWorkers (some first :: workers)) totals = some totals') :
    IsGreatest ((fun run : ThreadRun => g run.finished) '' runsOf (some first :: workers))
      (f totals') := by
  rw [← image_finishedWorkers]
  exact isGreatest_of_folds hfolds h

/-- The extreme reads of the line are exact when reads are covered. -/
theorem reads_iff_covered (hended : Ended (some first :: workers))
    (h : sumWorkers count 0 (finishedWorkers (some first :: workers)) totals = some totals') :
    ((kindLatencies ThreadRun.reads (some first :: workers)).Nonempty →
      IsLeast (kindLatencies ThreadRun.reads (some first :: workers)) totals'.minReadLatency ∧
        IsGreatest (kindLatencies ThreadRun.reads (some first :: workers))
          totals'.maxReadLatency) ↔ Covered ThreadRun.reads (some first :: workers) :=
  extremes_iff_covered (fun _ hrun => (hended.length_lt hrun).1)
    (isLeast_runs foldsFrom_latencies.1 h) (isGreatest_runs foldsFrom_latencies.2.1 h)

/-- The extreme writes of the line are exact when writes are covered. -/
theorem writes_iff_covered (hended : Ended (some first :: workers))
    (h : sumWorkers count 0 (finishedWorkers (some first :: workers)) totals = some totals') :
    ((kindLatencies ThreadRun.writes (some first :: workers)).Nonempty →
      IsLeast (kindLatencies ThreadRun.writes (some first :: workers)) totals'.minWriteLatency ∧
        IsGreatest (kindLatencies ThreadRun.writes (some first :: workers))
          totals'.maxWriteLatency) ↔ Covered ThreadRun.writes (some first :: workers) :=
  extremes_iff_covered (fun _ hrun => (hended.length_lt hrun).2)
    (isLeast_runs foldsFrom_latencies.2.2.1 h) (isGreatest_runs foldsFrom_latencies.2.2.2 h)

variable [Zero T] [LT T] [DecidableLT T] {uninitialized : Uninitialized}
  {statistics : IoStatistics T}

/-- The divisions of `dump_statistics` survive the counters of all threads. -/
def AllDivide (workers : List (Option ThreadRun)) : Prop :=
  ∀ run ∈ runsOf workers, run.finished.workload.Divides

theorem allDivide_iff : AllDivide workers ↔
    ∀ finished ∈ workloadsOf (finishedWorkers workers), finished.workload.Divides := by
  rw [workloadsOf_finishedWorkers]
  simp [AllDivide, mem_reduceOption]

/-- For ended threads `dump_statistics` adds a line. -/
theorem Ended.dump (hended : Ended workers) (hdivides : AllDivide workers)
    (hrun : (runsOf workers).Nonempty) :
    ∃ totals : Totals T, sumWorkers (finishedWorkers workers).length 0 (finishedWorkers workers)
        (Totals.initial uninitialized) = some totals ∧
      dumpStatistics uninitialized statistics (finishedWorkers workers) =
        some (statistics.push totals.maxActive totals.line) := by
  have hsome : (sumWorkers (finishedWorkers workers).length 0 (finishedWorkers workers)
      (Totals.initial uninitialized : Totals T)).isSome :=
    sumWorkers_isSome_iff.mpr (allDivide_iff.mp hdivides)
  obtain ⟨totals, hsum⟩ := Option.isSome_iff_exists.mp hsome
  refine ⟨totals, hsum, dumpStatistics_of_requests hsum ?_⟩
  obtain ⟨run, hmem⟩ := hrun
  obtain hreads | hwrites := hended.nonempty run hmem
  · exact Or.inl fun hzero => hreads (hended.readRequests_eq_zero.mp hzero run hmem)
  · exact Or.inr fun hzero => hwrites (hended.writeRequests_eq_zero.mp hzero run hmem)

/-- Whatever the uninitialised variables hold, `dump_statistics` adds a line that is exact. -/
def LineExact (statistics : IoStatistics T) (workers : List (Option ThreadRun)) : Prop :=
  ∀ uninitialized, ∃ maxActive line,
    dumpStatistics uninitialized statistics (finishedWorkers workers) =
      some (statistics.push maxActive line) ∧ line.Exact workers

/-- An exact line is a line that the divisions have let through. -/
theorem LineExact.allDivide (h : LineExact statistics workers) : AllDivide workers := by
  obtain ⟨m, line, hdump, _⟩ := h ⟨0, 0, 0, 0, 0, 0⟩
  obtain ⟨totals, hsum, _⟩ := dumpStatistics_some hdump
  exact allDivide_iff.mpr (sumWorkers_isSome_iff.mp (Option.isSome_of_eq_some hsum))

/-- With a workload at index 0 the line is exact when both kinds of request are covered. -/
theorem exact_iff_covered (hended : Ended (some first :: workers))
    (hdivides : AllDivide (some first :: workers)) :
    LineExact statistics (some first :: workers) ↔
      Covered ThreadRun.reads (some first :: workers) ∧
        Covered ThreadRun.writes (some first :: workers) := by
  have hrun : (runsOf (some first :: workers)).Nonempty := ⟨first, List.mem_cons_self⟩
  constructor
  · intro h
    obtain ⟨m, line, hdump, hexact⟩ := h ⟨0, 0, 0, 0, 0, 0⟩
    obtain ⟨totals, hsum, hdump'⟩ := @Ended.dump _ T _ _ _ _ _ _ _ _ ⟨0, 0, 0, 0, 0, 0⟩ statistics
      hended hdivides hrun
    obtain rfl : line = totals.line :=
      push_line_inj (Option.some.inj (hdump.symm.trans hdump'))
    exact ⟨(reads_iff_covered hended hsum).mp hexact.reads,
      (writes_iff_covered hended hsum).mp hexact.writes⟩
  · rintro ⟨hreads, hwrites⟩ u
    obtain ⟨totals, hsum, hdump⟩ :=
      @Ended.dump _ T _ _ _ _ _ _ _ _ u statistics hended hdivides hrun
    have hread := (reads_iff_covered hended hsum).mpr hreads
    have hwrite := (writes_iff_covered hended hsum).mpr hwrites
    exact ⟨_, _, hdump, hread, hwrite,
      hended.all_extremes (sumWorkers_requests hsum) hrun hread hwrite, _, _,
      isLeast_runs foldsFrom_min hsum, isGreatest_runs foldsFrom_max hsum, rfl⟩

/-- Without a workload at index 0 the line depends on uninitialised variables. -/
theorem not_exact_of_none (hended : Ended (none :: workers)) :
    ¬LineExact statistics (none :: workers) := by
  intro h
  obtain ⟨m, line, _, hexact⟩ := h ⟨0, 0, 0, 0, 0, 0⟩
  obtain ⟨earliest, latest, hearliest, hlatest, _⟩ := hexact.totalElapsed
  have hrun : (runsOf (none :: workers)).Nonempty := Set.image_nonempty.mp ⟨_, hearliest.1⟩
  -- The variable `min` starts before the earliest start.
  obtain ⟨m, line, hdump, hexact⟩ := h ⟨earliest - 1, latest, 0, 0, 0, 0⟩
  obtain ⟨totals, hsum, hdump'⟩ := @Ended.dump _ T _ _ _ _ _ _ _ _
    ⟨earliest - 1, latest, 0, 0, 0, 0⟩ statistics hended h.allDivide hrun
  obtain rfl : line = totals.line := push_line_inj (Option.some.inj (hdump.symm.trans hdump'))
  obtain ⟨earliest', latest', hearliest', hlatest', helapsed⟩ := hexact.totalElapsed
  obtain rfl := hearliest.unique hearliest'
  obtain rfl := hlatest.unique hlatest'
  have hmin : totals.min ≤ earliest - 1 := by
    rw [sumWorkers_fold foldsFrom_min hsum, funext₂ minTime_eq_min]
    exact (foldl_min_isLeast _ _).2 List.mem_cons_self
  have hmax : latest ≤ totals.max := by
    rw [sumWorkers_fold foldsFrom_max hsum, funext₂ maxTime_eq_max]
    exact (foldl_max_isGreatest _ _).2 List.mem_cons_self
  have htotal : totals.max - totals.min = latest - earliest := helapsed
  have hless : latest - (earliest - 1) ≤ totals.max - totals.min := sub_le_sub hmax hmin
  rw [htotal, sub_le_sub_iff_left] at hless
  exact absurd hless (not_le.mpr (sub_one_lt earliest))

/-- **The line of a test is exact**, whatever the uninitialised variables hold, exactly when no
division by 0 comes first, the worker of index 0 has a workload, and reads as well as writes are
made by no workload or by every one or have latencies on both sides of 0. -/
theorem lineExact_iff (statistics : IoStatistics T) (hended : Ended workers) :
    LineExact statistics workers ↔
      AllDivide workers ∧ (∃ first, workers.head? = some (some first)) ∧
        Covered ThreadRun.reads workers ∧ Covered ThreadRun.writes workers := by
  cases workers with
  | nil =>
    refine ⟨fun h => ?_, fun h => absurd h.2.1 (by simp)⟩
    obtain ⟨m, line, hdump, _⟩ := h ⟨0, 0, 0, 0, 0, 0⟩
    exact absurd (Option.some.inj hdump) push_ne
  | cons worker workers =>
    cases worker with
    | none => simp [not_exact_of_none hended]
    | some first =>
      constructor
      · intro h
        exact ⟨h.allDivide, ⟨first, rfl⟩, (exact_iff_covered hended h.allDivide).mp h⟩
      · rintro ⟨hdivides, _, hcovered⟩
        exact (exact_iff_covered hended hdivides).mpr hcovered

end Line

/-- A thread with a mixed workload and a depth of 1 that starts at 0 and ends at 10. -/
def mixedRun (reads writes : List Completion) : ThreadRun :=
  ⟨reads, writes, 4096, 0, 10, 1, 1,
    .mixed ⟨fun _ => 0, fun _ => 0, 0, 13, 0, 8192, 0, 8192⟩⟩

/-- Two threads of which the second has only written. -/
def oneReader : List (Option ThreadRun) :=
  [some (mixedRun [⟨5, 4096⟩] []), some (mixedRun [] [⟨7, 4096⟩])]

/-- Two threads and a worker without a workload. -/
def twoReaders : List (Option ThreadRun) :=
  [some (mixedRun [⟨5, 4096⟩] []), none, some (mixedRun [⟨7, 4096⟩] [])]

/-- A thread with one request of a page has counters that can be divided. -/
theorem mixedRun_divides {run : ThreadRun} (h : run = mixedRun [⟨5, 4096⟩] [] ∨
    run = mixedRun [] [⟨7, 4096⟩] ∨ run = mixedRun [⟨7, 4096⟩] []) :
    run.finished.workload.Divides := by
  rcases h with rfl | rfl | rfl <;> exact ⟨by decide, by decide⟩

/-- The line of two workloads that have only read is exact. -/
theorem lineExact_iff_twoReaders :
    LineExact (IoStatistics.create ['m'] : IoStatistics ℚ) twoReaders := by
  apply (lineExact_iff _ _).mpr
  · refine ⟨fun run hrun => mixedRun_divides ?_, ⟨_, rfl⟩, Or.inr (Or.inl ?_), Or.inl ?_⟩
    · simp [runsOf, twoReaders] at hrun
      tauto
    · simp [runsOf, twoReaders, mixedRun]
    · simp [runsOf, twoReaders, mixedRun]
  · refine ⟨?_, by decide⟩
    simp [runsOf, twoReaders, mixedRun]

/-- A read took 5, and the line has 0 for the shortest read. -/
theorem oneReader_not_exact :
    Ended oneReader ∧ kindLatencies ThreadRun.reads oneReader = {5} ∧
      (∃ maxActive line, dumpStatistics ⟨0, 0, 0, 0, 0, 0⟩ (IoStatistics.create ['m'])
          (finishedWorkers oneReader) = some ((IoStatistics.create ['m'] : IoStatistics ℚ).push
            maxActive line) ∧ line.minReadLatency = 0 ∧ line.minLatency = 0) ∧
      ¬LineExact (IoStatistics.create ['m'] : IoStatistics ℚ) oneReader := by
  have hended : Ended oneReader := by
    refine ⟨?_, by decide⟩
    simp [runsOf, oneReader, mixedRun]
  have hlatencies : kindLatencies ThreadRun.reads oneReader = {5} := by
    ext x
    simp [kindLatencies, runsOf, oneReader, mixedRun, latencies, eq_comm]
  refine ⟨hended, hlatencies, ⟨_, _, rfl, rfl, rfl⟩, fun h => ?_⟩
  have hcovered : Covered ThreadRun.reads oneReader :=
    ((exact_iff_covered hended h.allDivide).mp h).1
  rw [Covered, hlatencies] at hcovered
  simp [runsOf, oneReader, mixedRun] at hcovered

end DiskBench
