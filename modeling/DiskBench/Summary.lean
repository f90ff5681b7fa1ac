import Mathlib.Algebra.Order.Ring.Rat
import DiskBench.Accumulation
import DiskBench.TestRows

/-!
# The summary

Each call of `run_tests` keeps two statistics, which come into being with their first test and are
put into `statistics_array` at its end. The summary of `main` adds up the statistics of this array.
What the threads of a test leave is given from outside, and so are the throughputs that decide how
far a call goes: these may be the ones of the lines or any others.
-/

namespace DiskBench

open ForLoop

/-- The two statistics of a call of `run_tests`, once they have been allocated. -/
structure Accumulators (T : Type) where
  separate : Option (IoStatistics T)
  general : Option (IoStatistics T)

/-- The statistics that a call adds to `statistics_array`. -/
def Accumulators.array {T : Type} (accumulators : Accumulators T) : List (IoStatistics T) :=
  accumulators.separate.toList ++ accumulators.general.toList

/-- A call of `run_tests`, with what it finds after each of its tests. -/
structure TestCall (T : Type) where
  description : List Char
  /-- `separate_statistics_description`, which is used when it is not null. -/
  separateDescription : List Char
  config : Config
  options : TestOptions
  workers : List TestWorker
  measured : Measured T
  maxReqsize : Option UInt64
  fuel : ℕ
  /-- What the local variables of `dump_statistics` happen to hold. -/
  uninitialized : Test → Uninitialized
  /-- The workload that the thread of a worker leaves. -/
  finished : Test → ℕ → FinishedWorkload

/-- What `dump_statistics` finds after a test: the workloads of the workers that have one. -/
def TestCall.result {T : Type} (call : TestCall T) (test : Test) : TestResult where
  uninitialized := call.uninitialized test
  workers := call.workers.mapIdx fun i worker => worker.workload.map fun _ => call.finished test i

/-- The variables of the summary. -/
structure Summary (T : Type) where
  maxActive : UInt32
  bytesRead : UInt64
  bytesWritten : UInt64
  totalRequests : UInt64
  readRequests : UInt64
  writeRequests : UInt64
  overallScore : T

section Model

variable {T : Type} [Zero T] [Add T] [Div T] [NatCast T] [IntCast T] [Mul T] [LT T] [LE T]
  [DecidableLT T] [DecidableLE T]

/-- The tests that a call executes. -/
def TestCall.run (call : TestCall T) : Outcome (TestRun T) :=
  runTests call.config call.options call.workers call.measured call.maxReqsize call.fuel

/-- `dump_statistics` after a test, for the statistics that the test counts for. -/
def TestCall.dump (call : TestCall T) (accumulators : Accumulators T) (test : Test) :
    Option (Accumulators T) :=
  let result := call.result test
  if test.separate then
    (dumpStatistics result.uninitialized
      (accumulators.separate.getD (.create call.separateDescription)) result.workers).map
        fun statistics => { accumulators with separate := some statistics }
  else
    (dumpStatistics result.uninitialized
      (accumulators.general.getD (.create call.description)) result.workers).map
        fun statistics => { accumulators with general := some statistics }

/-- The statistics of a call after its tests. -/
def TestCall.accumulators (call : TestCall T) : Option (Accumulators T) :=
  match call.run with
  | .done run => run.tests.foldlM call.dump ⟨none, none⟩
  | .trap _ => none
  | .outOfFuel _ => none

/-- `statistics_array` after calls of `run_tests` one after another. -/
def statisticsArray (calls : List (TestCall T)) : Option (List (IoStatistics T)) :=
  calls.foldlM (fun array call => call.accumulators.map fun accumulators =>
    array ++ accumulators.array) []

/-- The variables before the loop; `overall_score` has no value there. -/
def Summary.initial (overallScore : T) : Summary T := ⟨0, 0, 0, 0, 0, 0, overallScore⟩

/-- The variables after one more element of `statistics_array`. -/
def Summary.add (summary : Summary T) (statistics : IoStatistics T) : Summary T where
  maxActive := if statistics.maxActive.toUInt32 > summary.maxActive
    then statistics.maxActive.toUInt32 else summary.maxActive
  bytesRead := summary.bytesRead + statistics.bytesRead
  bytesWritten := summary.bytesWritten + statistics.bytesWritten
  totalRequests := summary.totalRequests + (statistics.readRequests + statistics.writeRequests)
  readRequests := summary.readRequests + statistics.readRequests
  writeRequests := summary.writeRequests + statistics.writeRequests
  overallScore := statistics.accumulatedWeightedBytesPerSecond / statistics.accumulatedWeight

/-- The loop over `statistics_array`. -/
def summarize (overallScore : T) (array : List (IoStatistics T)) : Summary T :=
  array.foldl Summary.add (Summary.initial overallScore)

/-- The tests that a call has executed. -/
def TestCall.tests (call : TestCall T) : List Test := call.run.state.tests

end Model

section Executed

variable {T : Type} [Zero T] [Add T] [Div T] [NatCast T] [LT T] [LE T] [DecidableLT T]
  [DecidableLE T] {call : TestCall T} {test : Test}

/-- A test has a workload. -/
theorem TestCall.workloadsOf_ne (h : test ∈ call.tests) :
    workloadsOf (call.result test).workers ≠ [] := by
  obtain ⟨worker, hmem, hsome⟩ :=
    runTests_working call.maxReqsize call.fuel (Or.inr (List.ne_nil_of_mem h))
  obtain ⟨i, hi, rfl⟩ := List.mem_iff_getElem.mp hmem
  obtain ⟨workload, hworkload⟩ := Option.ne_none_iff_exists'.mp hsome
  apply List.ne_nil_of_mem (a := call.finished test i)
  rw [mem_workloadsOf, TestCall.result, List.mem_mapIdx]
  exact ⟨i, hi, by rw [hworkload]; rfl⟩

end Executed

section Fold

variable {T : Type} [Div T] {array : List (IoStatistics T)} {f : IoStatistics T → UInt64}

/-- A variable of the summary that adds up a counter. -/
theorem summarize_sum {overallScore : T} (p : Summary T → UInt64)
    (hadd : ∀ summary statistics, p (summary.add statistics) = p summary + f statistics)
    (hzero : p (Summary.initial overallScore) = 0) :
    p (summarize overallScore array) = (array.map f).sum := by
  have hfold : ∀ summary : Summary T, p (array.foldl Summary.add summary) =
      p summary + (array.map f).sum := by
    induction array with
    | nil => exact fun summary => (add_zero _).symm
    | cons statistics array ih =>
      intro summary
      rw [List.foldl_cons, ih, hadd, List.map_cons, List.sum_cons, add_assoc]
  rw [summarize, hfold, hzero, zero_add]

end Fold

variable {T : Type} [Zero T] [Add T] [Div T] [NatCast T] [IntCast T] [Mul T]

/-- What statistics show of the tests: one line for each, and nothing without tests. -/
def TestCall.Shows (call : TestCall T) (tests : List Test) : Option (IoStatistics T) → Prop
  | none => tests = []
  | some statistics => tests ≠ [] ∧
    List.Forall₂ TestResult.HasLine (tests.map call.result) statistics.lines

/-- A counter of statistics adds up a counter of the workloads: it is the sum of a counter of the
lines. -/
def AddsUp (f : IoStatistics T → UInt64) (g : IoWorkload → UInt64) : Prop :=
  ∃ k : IoStatisticsLine T → UInt64,
    (∀ statistics, statistics.Counted → f statistics = (statistics.lines.map k).sum) ∧
      ∀ result : TestResult, ∀ line, result.HasLine line → k line = result.sum g

/-- The four counters of the summary. -/
theorem addsUp_words :
    AddsUp (T := T) IoStatistics.bytesRead (fun workload => workload.read.bytes) ∧
      AddsUp (T := T) IoStatistics.bytesWritten (fun workload => workload.write.bytes) ∧
      AddsUp (T := T) IoStatistics.readRequests (fun workload => workload.read.requests) ∧
      AddsUp (T := T) IoStatistics.writeRequests fun workload => workload.write.requests :=
  ⟨⟨_, fun _ h => h.bytesRead, fun _ _ h => h.words.1⟩,
    ⟨_, fun _ h => h.bytesWritten, fun _ _ h => h.words.2.1⟩,
    ⟨_, fun _ h => h.readRequests, fun _ _ h => h.words.2.2.1⟩,
    ⟨_, fun _ h => h.writeRequests, fun _ _ h => h.words.2.2.2⟩⟩

variable [LT T] [DecidableLT T]

/-- The statistics that are left of some tests of a call: none without tests, and otherwise those
that `dump_statistics` makes of these tests alone. -/
def TestCall.Holds (call : TestCall T) (description : List Char) (tests : List Test) :
    Option (IoStatistics T) → Prop
  | none => tests = []
  | some statistics => tests ≠ [] ∧
    (IoStatistics.create description).accumulate (tests.map call.result) = some statistics

/-- Each of the two statistics is left of the tests that count for it. -/
structure TestCall.Splits (call : TestCall T) (tests : List Test)
    (accumulators : Accumulators T) : Prop where
  separate : call.Holds call.separateDescription (tests.filter Test.separate)
    accumulators.separate
  general : call.Holds call.description (tests.filter fun test => !test.separate)
    accumulators.general

section Statistics

variable {call : TestCall T} {tests : List Test} {test : Test} {description : List Char}
  {statistics : Option (IoStatistics T)} {statistics' : IoStatistics T}
  {f : IoStatistics T → UInt64} {g : IoWorkload → UInt64}

/-- One more test of the same kind. -/
theorem TestCall.Holds.snoc (h : call.Holds description tests statistics)
    (hdump : dumpStatistics (call.result test).uninitialized
      (statistics.getD (.create description)) (call.result test).workers = some statistics') :
    call.Holds description (tests ++ [test]) (some statistics') := by
  refine ⟨by simp, ?_⟩
  rw [List.map_append, List.map_singleton, accumulate_snoc]
  cases statistics with
  | none =>
    obtain rfl : tests = [] := h
    exact hdump
  | some statistics =>
    rw [h.2]
    exact hdump

/-- `dump_statistics` keeps the tests apart. -/
theorem TestCall.Splits.step {accumulators accumulators' : Accumulators T}
    (h : call.Splits tests accumulators)
    (hdump : call.dump accumulators test = some accumulators') :
    call.Splits (tests ++ [test]) accumulators' := by
  unfold TestCall.dump at hdump
  dsimp only at hdump
  split at hdump
  next hseparate =>
    obtain ⟨statistics', hstatistics, rfl⟩ := Option.map_eq_some_iff.mp hdump
    constructor
    · simpa [hseparate] using h.separate.snoc hstatistics
    · simpa [hseparate] using h.general
  next hseparate =>
    obtain ⟨statistics', hstatistics, rfl⟩ := Option.map_eq_some_iff.mp hdump
    constructor
    · simpa [hseparate] using h.separate
    · simpa [hseparate] using h.general.snoc hstatistics

/-- So it does over all tests. -/
theorem TestCall.Splits.run {accumulators accumulators' : Accumulators T} {tests' : List Test}
    (h : call.Splits tests accumulators)
    (hrun : tests'.foldlM call.dump accumulators = some accumulators') :
    call.Splits (tests ++ tests') accumulators' := by
  induction tests' generalizing tests accumulators with
  | nil =>
    cases hrun
    rwa [List.append_nil]
  | cons test tests' ih =>
    rw [List.foldlM_cons] at hrun
    obtain ⟨next, hdump, hrest⟩ := Option.bind_eq_some_iff.mp hrun
    have hnext := ih (h.step hdump) hrest
    rwa [List.append_assoc] at hnext

/-- Statistics that are left of tests show them and count what they have counted. -/
theorem TestCall.Holds.shows (h : call.Holds description tests statistics)
    (hcounts : ∀ test ∈ tests, (call.result test).Counts) (hadds : AddsUp f g) :
    call.Shows tests statistics ∧ (statistics.toList.map f).sum =
      (tests.map fun test => (call.result test).sum g).sum := by
  cases statistics with
  | none =>
    obtain rfl : tests = [] := h
    exact ⟨rfl, rfl⟩
  | some statistics =>
    obtain ⟨hne, haccumulate⟩ := h
    obtain ⟨lines, hlines, heq, _, hcounted⟩ :=
      accumulate_lines (by simpa using hcounts) haccumulate
    rw [IoStatistics.create, List.nil_append] at heq
    obtain ⟨k, hsum, hline⟩ := hadds
    refine ⟨⟨hne, by rwa [heq]⟩, ?_⟩
    rw [Option.toList_some, List.map_singleton, List.sum_singleton,
      hsum _ (hcounted (create_counted description)), heq, sum_lines hlines hline, List.map_map]
    rfl

end Statistics

variable [LE T] [DecidableLE T]

/-- Each test of a call has its line in exactly one of the two statistics. -/
structure TestCall.Reports (call : TestCall T) (accumulators : Accumulators T) : Prop where
  separate : call.Shows (call.tests.filter Test.separate) accumulators.separate
  general : call.Shows (call.tests.filter fun test => !test.separate) accumulators.general

/-- The sum of a counter over all workloads of all tests of calls. -/
def totalOf (g : IoWorkload → UInt64) (calls : List (TestCall T)) : UInt64 :=
  (calls.map fun call => (call.tests.map fun test => (call.result test).sum g).sum).sum

section Calls

variable {call : TestCall T} {accumulators : Accumulators T} {f : IoStatistics T → UInt64}
  {g : IoWorkload → UInt64}

/-- After a call its tests have been told apart. -/
theorem TestCall.splits (h : call.accumulators = some accumulators) :
    call.Splits call.tests accumulators := by
  unfold TestCall.accumulators at h
  unfold TestCall.tests
  cases hrun : call.run with
  | done run =>
    rw [hrun] at h
    have hnone : call.Splits [] ⟨none, none⟩ := ⟨rfl, rfl⟩
    exact hnone.run h
  | trap run =>
    rw [hrun] at h
    cases h
  | outOfFuel run =>
    rw [hrun] at h
    cases h

/-- So the statistics of a call count what its tests have counted. -/
theorem TestCall.Splits.reports (h : call.Splits call.tests accumulators)
    (hcounts : ∀ test ∈ call.tests, (call.result test).Counts) (hadds : AddsUp f g) :
    call.Reports accumulators ∧ (accumulators.array.map f).sum =
      (call.tests.map fun test => (call.result test).sum g).sum := by
  obtain ⟨hseparate, hsum⟩ := h.separate.shows
    (fun test hmem => hcounts test (List.mem_of_mem_filter hmem)) hadds
  obtain ⟨hgeneral, hsum'⟩ := h.general.shows
    (fun test hmem => hcounts test (List.mem_of_mem_filter hmem)) hadds
  refine ⟨⟨hseparate, hgeneral⟩, ?_⟩
  rw [Accumulators.array, List.map_append, List.sum_append, hsum, hsum']
  simpa using List.sum_map_filter_add_sum_map_filter_not (fun test => test.separate = true)
    (fun test => (call.result test).sum g) call.tests

/-- `statistics_array` holds the statistics of the calls. -/
theorem statisticsArray_eq {calls : List (TestCall T)} {array : List (IoStatistics T)}
    (h : statisticsArray calls = some array) : ∃ accumulators : List (Accumulators T),
      List.Forall₂ (fun call accumulators => call.accumulators = some accumulators) calls
        accumulators ∧ array = accumulators.flatMap Accumulators.array := by
  induction calls using List.reverseRecOn generalizing array with
  | nil =>
    cases h
    exact ⟨[], .nil, rfl⟩
  | append_singleton calls call ih =>
    rw [statisticsArray, List.foldlM_append] at h
    obtain ⟨before, hbefore, hcall⟩ := Option.bind_eq_some_iff.mp h
    obtain ⟨accumulators, hall, rfl⟩ := ih hbefore
    simp only [List.foldlM_cons, List.foldlM_nil, bind_pure] at hcall
    obtain ⟨last, hlast, rfl⟩ := Option.map_eq_some_iff.mp hcall
    exact ⟨accumulators ++ [last], List.rel_append hall (.cons hlast .nil), by simp⟩

end Calls

section Array

variable {calls : List (TestCall T)} {array : List (IoStatistics T)} {f : IoStatistics T → UInt64}
  {g : IoWorkload → UInt64}

/-- The threads of a test have each completed a request. -/
def AllCompleted (calls : List (TestCall T)) : Prop :=
  ∀ call ∈ calls, ∀ test ∈ call.tests, (call.result test).Completed

/-- The array counts what the tests of all calls have counted. -/
theorem statisticsArray_reports (hcompleted : AllCompleted calls)
    (h : statisticsArray calls = some array) (hadds : AddsUp f g) :
    (array.map f).sum = totalOf g calls ∧ ∃ accumulators : List (Accumulators T),
      array = accumulators.flatMap Accumulators.array ∧
        List.Forall₂ TestCall.Reports calls accumulators := by
  obtain ⟨accumulators, hall, rfl⟩ := statisticsArray_eq h
  have hparts : ((accumulators.flatMap Accumulators.array).map f).sum = totalOf g calls ∧
      List.Forall₂ TestCall.Reports calls accumulators := by
    clear h
    induction hall with
    | nil => exact ⟨rfl, .nil⟩
    | cons hcall _ ih =>
      obtain ⟨hhere, hrest⟩ := List.forall_mem_cons.mp hcompleted
      obtain ⟨hreports, hsum⟩ := (TestCall.splits hcall).reports
        (fun test hmem => (hhere test hmem).counts (TestCall.workloadsOf_ne hmem)) hadds
      obtain ⟨hsum', hreports'⟩ := ih hrest
      refine ⟨?_, .cons hreports hreports'⟩
      rw [List.flatMap_cons, List.map_append, List.sum_append, hsum, hsum']
      rfl
  exact ⟨hparts.1, accumulators, rfl, hparts.2⟩

/-- **Nothing is lost in the summary and nothing is counted twice.** Its counters are the sums over
the workloads of all tests of all calls. The array consists of the statistics of the calls, and
each test has its line in one of the two statistics of its call. -/
theorem summary_counts (overallScore : T) (hcompleted : AllCompleted calls)
    (h : statisticsArray calls = some array) :
    ((summarize overallScore array).bytesRead = totalOf (fun w => w.read.bytes) calls ∧
      (summarize overallScore array).bytesWritten = totalOf (fun w => w.write.bytes) calls ∧
      (summarize overallScore array).readRequests = totalOf (fun w => w.read.requests) calls ∧
      (summarize overallScore array).writeRequests = totalOf (fun w => w.write.requests) calls) ∧
    ∃ accumulators : List (Accumulators T),
      array = accumulators.flatMap Accumulators.array ∧
        List.Forall₂ TestCall.Reports calls accumulators := by
  obtain ⟨hread, hwritten, hreads, hwrites⟩ := addsUp_words (T := T)
  refine ⟨⟨?_, ?_, ?_, ?_⟩, (statisticsArray_reports hcompleted h hread).2⟩
  · rw [summarize_sum Summary.bytesRead (fun _ _ => rfl) rfl]
    exact (statisticsArray_reports hcompleted h hread).1
  · rw [summarize_sum Summary.bytesWritten (fun _ _ => rfl) rfl]
    exact (statisticsArray_reports hcompleted h hwritten).1
  · rw [summarize_sum Summary.readRequests (fun _ _ => rfl) rfl]
    exact (statisticsArray_reports hcompleted h hreads).1
  · rw [summarize_sum Summary.writeRequests (fun _ _ => rfl) rfl]
    exact (statisticsArray_reports hcompleted h hwrites).1

/-- The divisions are possible for all tests of a call. -/
def TestCall.Divides (call : TestCall T) : Prop :=
  ∀ test ∈ call.tests, ∀ finished ∈ workloadsOf (call.result test).workers,
    finished.workload.Divides

/-- Then the call has its statistics. -/
theorem TestCall.Divides.isSome {call : TestCall T} (h : call.Divides) {run : TestRun T}
    (hdone : call.run = .done run) : call.accumulators.isSome := by
  have hdump : ∀ (tests : List Test) (accumulators : Accumulators T),
      (∀ test ∈ tests, ∀ finished ∈ workloadsOf (call.result test).workers,
        finished.workload.Divides) → (tests.foldlM call.dump accumulators).isSome := by
    intro tests
    induction tests with
    | nil => exact fun _ _ => rfl
    | cons test tests ih =>
      intro accumulators htests
      rw [List.forall_mem_cons] at htests
      have hfirst : (call.dump accumulators test).isSome := by
        unfold TestCall.dump
        dsimp only
        split <;> exact Option.isSome_map.trans (dumpStatistics_isSome_iff.mpr htests.1)
      obtain ⟨next, hnext⟩ := Option.isSome_iff_exists.mp hfirst
      rw [List.foldlM_cons, hnext]
      exact ih next htests.2
  rw [TestCall.Divides, TestCall.tests, hdone] at h
  rw [TestCall.accumulators, hdone]
  exact hdump run.tests _ h

/-- `main` reaches its summary when all calls end and no division of `dump_statistics` is one
by 0. -/
theorem statisticsArray_isSome (hdone : ∀ call ∈ calls, ∃ run, call.run = .done run)
    (hdivides : ∀ call ∈ calls, call.Divides) : (statisticsArray calls).isSome := by
  induction calls using List.reverseRecOn with
  | nil => rfl
  | append_singleton calls call ih =>
    rw [List.forall_mem_append, List.forall_mem_singleton] at hdone hdivides
    obtain ⟨array, harray⟩ := Option.isSome_iff_exists.mp (ih hdone.1 hdivides.1)
    obtain ⟨run, hrun⟩ := hdone.2
    obtain ⟨accumulators, haccumulators⟩ :=
      Option.isSome_iff_exists.mp (hdivides.2.isSome hrun)
    rw [statisticsArray, List.foldlM_append]
    change (Option.bind (statisticsArray calls) _).isSome = true
    rw [harray, Option.bind_some, List.foldlM_cons, haccumulators]
    rfl

end Array

/-- A call for two workers of which the second has a workload, sequential reads of two sizes. -/
def twoSizes : TestCall ℚ where
  description := ['r']
  separateDescription := ['s']
  config := ⟨true, .linux, 4096, true⟩
  options := ⟨false, false, some 8192⟩
  workers := [prepareWorkload (createWorker 65536 65536 0) none [] [],
    prepareWorkload (createWorker 65536 65536 0) (some (.sequential false)) [4096, 8192] [1, 2]]
  measured := ⟨fun _ _ => 1, fun _ => (0, 0)⟩
  maxReqsize := none
  fuel := 5
  uninitialized := fun _ => ⟨0, 0, 0, 0, 0, 0⟩
  finished := fun _ _ => ⟨⟨4096, ⟨1, 4096, 5, 5, 5⟩, .zero, 0, 10, 1, 1⟩,
    .sequential ⟨false, 0, 4096⟩⟩

/-- Four tests, two in each of the statistics, and 16 KiB in the summary. -/
theorem summary_counts_twoSizes : ∃ array, statisticsArray [twoSizes] = some array ∧
    array.map (fun statistics => statistics.lines.length) = [2, 2] ∧
    (summarize 0 array).bytesRead = totalOf (fun w => w.read.bytes) [twoSizes] ∧
    totalOf (fun w => w.read.bytes) [twoSizes] = 16384 := by
  have harray : statisticsArray [twoSizes] = some _ := rfl
  have hcompleted : AllCompleted [twoSizes] := by
    rintro call hcall test _
    obtain rfl := List.mem_singleton.mp hcall
    have hworkloads : workloadsOf (twoSizes.result test).workers = [twoSizes.finished test 1] := rfl
    constructor
    · rw [hworkloads, List.forall_mem_singleton]
      exact Or.inl (show (1 : UInt64) ≠ 0 by decide)
    · rw [hworkloads]
      simp [twoSizes, IoCounters.zero]
  exact ⟨_, harray, rfl, (summary_counts 0 hcompleted harray).1.1, rfl⟩

end DiskBench
