import DiskBench.Summary
import DiskBench.XmlOutput

/-!
# The fragments of the tests

What `dump_statistics` prints into its fragment and when it adds the fragment to the XML output,
and so what a call of `run_tests` adds. A test whose requests add up to 0 adds nothing, although
its workloads have been printed. The conversions of a `double` argument are given by `DoubleCasts`.
-/

namespace DiskBench

open ForLoop

/-- The conversions of a `double` to `uint64_t` and to `apr_time_t`. -/
structure DoubleCasts (T : Type) where
  toUInt64 : T → UInt64
  toTime : T → AprTime

/-- The calls for a workload that is not null. -/
def workloadCalls (i : ℕ) (workload : IoWorkload) : List XmlCall :=
  [.tagOpen "workload".toList,
    .tagNumber "worker".toList (UInt64.ofNat i),
    .tagNumber "depth".toList workload.maxActive.toInt64.toUInt64,
    .tagSize "read_requests".toList requestFmt workload.read.requests,
    .tagSize "write_requests".toList requestFmt workload.write.requests,
    .tagSize "bytes_written".toList bytesFmt workload.write.bytes,
    .tagSize "bytes_read".toList bytesFmt workload.read.bytes,
    .tagTime "wait_time_write".toList workload.write.elapsed,
    .tagTime "wait_time_read".toList workload.read.elapsed,
    .tagTime "min_write_latency".toList workload.write.minLatency,
    .tagTime "max_write_latency".toList workload.write.maxLatency,
    .tagTime "min_read_latency".toList workload.read.minLatency,
    .tagTime "max_read_latency".toList workload.read.maxLatency,
    .tagClose "workload".toList]

/-- The calls in the loop over the workers, from worker `i` on. -/
def workersCalls : ℕ → List (Option FinishedWorkload) → List XmlCall
  | _, [] => []
  | i, none :: workers => workersCalls (i + 1) workers
  | i, some finished :: workers =>
    workloadCalls i finished.workload ++ workersCalls (i + 1) workers

/-- The calls up to the end of the loop over the workers. -/
def openingCalls (workers : List (Option FinishedWorkload)) : List XmlCall :=
  [.tagOpen "test_run".toList, .tagOpen "workloads".toList] ++ workersCalls 0 workers

section Calls

variable {T : Type} [Mul T] [Div T] [NatCast T] [IntCast T]

/-- The calls for the line. -/
def lineCalls (casts : DoubleCasts T) (description : List Char) (maxActive : Int32)
    (line : IoStatisticsLine T) : List XmlCall :=
  let iops : T := throughputOf (line.totalRequests.toNat : T) line.totalElapsed
  [.tagStr "description".toList description,
    .tagNumber "concurrent_iops".toList maxActive.toInt64.toUInt64,
    .tagSize "bytes_per_io".toList bytesFmt (casts.toUInt64 line.bytesPerIo),
    .tagSize "bytes_per_second".toList throughputFmt (casts.toUInt64 line.bytesPerSecond),
    .tagSize "iops".toList iopsFmt (casts.toUInt64 iops),
    .tagSize "write_requests".toList requestFmt line.writeRequests,
    .tagSize "read_requests".toList requestFmt line.readRequests,
    .tagSize "bytes_written".toList bytesFmt line.bytesWritten,
    .tagSize "bytes_read".toList bytesFmt line.bytesRead,
    .tagTime "time_elapsed".toList line.totalElapsed,
    .tagTime "min_latency".toList line.minLatency,
    .tagTime "avg_latency".toList (casts.toTime line.avgLatency),
    .tagTime "max_latency".toList line.maxLatency]

/-- The calls behind the loop over the workers. -/
def closingCalls (casts : DoubleCasts T) (description : List Char) (totals : Totals T) :
    List XmlCall :=
  [.tagClose "workloads".toList] ++ lineCalls casts description totals.maxActive totals.line ++
    [.tagClose "test_run".toList]

end Calls

section Lines

variable {apr : AprFormat}

theorem workloadCalls_fine (i : ℕ) (workload : IoWorkload) :
    ∀ call ∈ workloadCalls i workload, call.Fine :=
  fine_of_isFixed rfl

/-- A workload is an element. -/
theorem inner_workloadCalls (i : ℕ) (workload : IoWorkload) :
    Inner apr (workloadCalls i workload) :=
  .element "workload".toList (@inner_of_isLeaf _ (workloadCalls i workload).tail.dropLast rfl)

/-- A skipped worker leaves nothing open. -/
theorem inner_workersCalls (i : ℕ) (workers : List (Option FinishedWorkload)) :
    Inner apr (workersCalls i workers) := by
  induction workers generalizing i with
  | nil => exact inner_nil
  | cons worker workers ih =>
    cases worker with
    | none => exact ih (i + 1)
    | some finished => exact (inner_workloadCalls i finished.workload).append (ih (i + 1))

theorem workersCalls_fine (i : ℕ) (workers : List (Option FinishedWorkload)) :
    ∀ call ∈ workersCalls i workers, call.Fine := by
  induction workers generalizing i with
  | nil => exact fun _ h => absurd h List.not_mem_nil
  | cons worker workers ih =>
    cases worker with
    | none => exact ih (i + 1)
    | some finished =>
      exact List.forall_mem_append.mpr ⟨workloadCalls_fine i finished.workload, ih (i + 1)⟩

variable {T : Type} [Mul T] [Div T] [NatCast T] [IntCast T] {casts : DoubleCasts T}
  {description : List Char}

/-- The calls for a test whose line is printed are an element. -/
theorem inner_test (workers : List (Option FinishedWorkload)) (totals : Totals T) :
    Inner apr (openingCalls workers ++ closingCalls casts description totals) := by
  have hworkers := @inner_workersCalls apr 0 workers
  have hline : Inner apr (lineCalls casts description totals.maxActive totals.line) :=
    inner_of_isLeaf rfl
  have htest := ((hworkers.element "workloads".toList).append hline).element "test_run".toList
  simpa [openingCalls, closingCalls] using htest

/-- They are fine when the description is. -/
theorem fine_test (hdescription : SafeString description)
    (workers : List (Option FinishedWorkload)) (totals : Totals T) :
    ∀ call ∈ openingCalls workers ++ closingCalls casts description totals, call.Fine := by
  have hname : Xml.isName "description".toList := by decide
  have hline : ∀ call ∈ lineCalls casts description totals.maxActive totals.line, call.Fine :=
    List.forall_mem_cons.mpr ⟨⟨hname, hdescription⟩, fine_of_isFixed rfl⟩
  simp only [openingCalls, closingCalls, List.forall_mem_append]
  exact ⟨⟨fine_of_isFixed rfl, workersCalls_fine 0 workers⟩,
    ⟨fine_of_isFixed rfl, hline⟩, fine_of_isFixed rfl⟩

end Lines

section Model

variable {T : Type} [Zero T] [Add T] [Div T] [NatCast T] [IntCast T] [Mul T] [LT T]
  [DecidableLT T]

/-- `dump_statistics` with the XML output. -/
def dumpStatisticsXml (apr : AprFormat) (casts : DoubleCasts T) (uninitialized : Uninitialized)
    (statistics : IoStatistics T) (workers : List (Option FinishedWorkload))
    (xmlOutput : List Char) : Option (IoStatistics T × List Char) := do
  let xmlFragment ← printCalls apr [] (openingCalls workers)
  let totals ← sumWorkers workers.length 0 workers (Totals.initial uninitialized)
  if totals.readRequests = 0 ∧ totals.writeRequests = 0 then some (statistics, xmlOutput)
  else
    let xmlFragment ←
      printCalls apr xmlFragment (closingCalls casts statistics.description totals)
    some (statistics.push totals.maxActive totals.line, xmlOutput ++ xmlFragment)

/-- `dump_statistics` after a test of a call, for the statistics that the test counts for. -/
def TestCall.dumpXml (apr : AprFormat) (casts : DoubleCasts T) (call : TestCall T)
    (state : Accumulators T × List Char) (test : Test) : Option (Accumulators T × List Char) :=
  let result := call.result test
  if test.separate then
    (dumpStatisticsXml apr casts result.uninitialized
      (state.1.separate.getD (.create call.separateDescription)) result.workers state.2).map
        fun dumped => ({ state.1 with separate := some dumped.1 }, dumped.2)
  else
    (dumpStatisticsXml apr casts result.uninitialized
      (state.1.general.getD (.create call.description)) result.workers state.2).map
        fun dumped => ({ state.1 with general := some dumped.1 }, dumped.2)

variable [LE T] [DecidableLE T]

/-- A call of `run_tests` with the XML output. -/
def TestCall.xml (apr : AprFormat) (casts : DoubleCasts T) (call : TestCall T)
    (xmlOutput : List Char) : Option (Accumulators T × List Char) :=
  match call.run with
  | .done run => run.tests.foldlM (call.dumpXml apr casts) (⟨none, none⟩, xmlOutput)
  | .trap _ => none
  | .outOfFuel _ => none

/-- Calls of `run_tests` one after another, with `statistics_array`. -/
def callsXml (apr : AprFormat) (casts : DoubleCasts T)
    (state : List (IoStatistics T) × List Char) (calls : List (TestCall T)) :
    Option (List (IoStatistics T) × List Char) :=
  calls.foldlM (fun state call => (call.xml apr casts state.2).map fun out =>
    (state.1 ++ out.1.array, out.2)) state

end Model

section Dump

variable {T : Type} [Zero T] [Add T] [Div T] [NatCast T] [IntCast T] [Mul T]

/-- The variables of a test whose line is printed. -/
def TestResult.printedTotals (result : TestResult) : Option (Totals T) :=
  (sumWorkers result.workers.length 0 result.workers (Totals.initial result.uninitialized)).filter
    fun totals => !(totals.readRequests = 0 ∧ totals.writeRequests = 0)

/-- The calls that are made for a test, whether or not their fragment is used. -/
def TestResult.madeCalls (casts : DoubleCasts T) (description : List Char) (result : TestResult) :
    List XmlCall :=
  openingCalls result.workers ++
    (result.printedTotals.map (closingCalls casts description)).getD []

/-- The calls whose output a test adds. -/
def TestResult.addedCalls (casts : DoubleCasts T) (description : List Char) (result : TestResult) :
    List XmlCall :=
  (result.printedTotals.map fun totals =>
    openingCalls result.workers ++ closingCalls casts description totals).getD []

variable [LT T] [DecidableLT T] {apr : AprFormat} {casts : DoubleCasts T}
  {statistics statistics' : IoStatistics T} {result : TestResult} {xmlOutput xmlOutput' : List Char}

/-- `dump_statistics` with the XML output is `dump_statistics`, and it adds the calls of the
test. -/
theorem dumpStatisticsXml_eq_some_iff :
    dumpStatisticsXml apr casts result.uninitialized statistics result.workers xmlOutput =
        some (statistics', xmlOutput') ↔
      dumpStatistics result.uninitialized statistics result.workers = some statistics' ∧
        (∀ call ∈ result.madeCalls casts statistics.description, call.Printable) ∧
        xmlOutput' = xmlOutput ++ textOf apr (result.addedCalls casts statistics.description) := by
  unfold dumpStatisticsXml dumpStatistics TestResult.madeCalls TestResult.addedCalls
    TestResult.printedTotals
  cases sumWorkers result.workers.length 0 result.workers
      (Totals.initial result.uninitialized : Totals T) with
  | none =>
    refine iff_of_false (fun h => ?_) fun h => ?_
    · obtain ⟨_, _, hnone⟩ := Option.bind_eq_some_iff.mp h
      cases hnone
    · cases h.1
  | some totals =>
    by_cases hempty : totals.readRequests = 0 ∧ totals.writeRequests = 0
    · -- The fragment is dropped, but its calls have been made.
      simp only [Option.bind_eq_bind, Option.bind_some, Option.filter, hempty,
        Option.bind_eq_some_iff, printCalls_eq_some_iff]
      simp only [and_self, if_true, decide_true, Bool.not_true, Bool.false_eq_true, if_false,
        Option.map_none, Option.getD_none, List.append_nil, Option.some.injEq, Prod.mk.injEq,
        List.nil_append, textOf_nil]
      constructor
      · rintro ⟨_, ⟨hprintable, _⟩, rfl, rfl⟩
        exact ⟨rfl, hprintable, rfl⟩
      · rintro ⟨rfl, hprintable, rfl⟩
        exact ⟨_, ⟨hprintable, rfl⟩, rfl, rfl⟩
    · simp only [Option.bind_eq_bind, Option.bind_some, Option.filter, hempty, if_false,
        decide_false, Bool.not_false, if_true, Option.map_some, Option.getD_some]
      simp only [Option.bind_eq_some_iff, printCalls_eq_some_iff, Option.some.injEq, Prod.mk.injEq,
        List.nil_append, textOf_append, List.forall_mem_append]
      constructor
      · rintro ⟨_, ⟨hopening, rfl⟩, _, ⟨hclosing, rfl⟩, rfl, rfl⟩
        exact ⟨rfl, ⟨hopening, hclosing⟩, rfl⟩
      · rintro ⟨rfl, ⟨hopening, hclosing⟩, rfl⟩
        exact ⟨_, ⟨hopening, rfl⟩, _, ⟨hclosing, rfl⟩, rfl, rfl⟩

/-- The same when the statistics are put into something else. -/
theorem map_dumpStatisticsXml_eq_some_iff {α : Type} {x : α} (statistics : IoStatistics T)
    (f : IoStatistics T → α) :
    (dumpStatisticsXml apr casts result.uninitialized statistics result.workers xmlOutput).map
        (fun dumped => (f dumped.1, dumped.2)) = some (x, xmlOutput') ↔
      (dumpStatistics result.uninitialized statistics result.workers).map f = some x ∧
        (∀ call ∈ result.madeCalls casts statistics.description, call.Printable) ∧
        xmlOutput' = xmlOutput ++ textOf apr (result.addedCalls casts statistics.description) := by
  simp only [Option.map_eq_some_iff, Prod.exists, dumpStatisticsXml_eq_some_iff, Prod.mk.injEq]
  constructor
  · rintro ⟨statistics', _, ⟨hdump, hprintable, rfl⟩, rfl, rfl⟩
    exact ⟨⟨statistics', hdump, rfl⟩, hprintable, rfl⟩
  · rintro ⟨⟨statistics', hdump, rfl⟩, hprintable, rfl⟩
    exact ⟨statistics', _, ⟨hdump, hprintable, rfl⟩, rfl, rfl⟩

/-- `dump_statistics` keeps the description. -/
theorem dumpStatistics_description
    (h : dumpStatistics result.uninitialized statistics result.workers = some statistics') :
    statistics'.description = statistics.description := by
  obtain ⟨_, _, ⟨_, rfl⟩ | ⟨_, rfl⟩⟩ := dumpStatistics_some h <;> rfl

end Dump

section Call

variable {T : Type}

/-- The description that a test is printed with. -/
def TestCall.descriptionOf (call : TestCall T) (test : Test) : List Char :=
  if test.separate then call.separateDescription else call.description

/-- The statistics of a call have its descriptions. -/
structure Accumulators.Described (call : TestCall T) (accumulators : Accumulators T) : Prop where
  separate : ∀ statistics ∈ accumulators.separate,
    statistics.description = call.separateDescription
  general : ∀ statistics ∈ accumulators.general, statistics.description = call.description

theorem described_none (call : TestCall T) : (⟨none, none⟩ : Accumulators T).Described call :=
  ⟨by simp, by simp⟩

variable [Zero T]

/-- Also those that are allocated for the next test. -/
theorem description_getD {statistics : Option (IoStatistics T)} {description : List Char}
    (h : ∀ s ∈ statistics, s.description = description) :
    (statistics.getD (.create description)).description = description := by
  cases statistics with
  | none => rfl
  | some s => exact h s rfl

variable [Add T] [Div T] [NatCast T] [IntCast T] [Mul T] [LT T] [DecidableLT T]
  {apr : AprFormat} {casts : DoubleCasts T} {call : TestCall T}
  {accumulators accumulators' : Accumulators T} {test : Test} {xmlOutput xmlOutput' : List Char}

theorem Accumulators.Described.dump (h : accumulators.Described call)
    (hdump : call.dump accumulators test = some accumulators') : accumulators'.Described call := by
  unfold TestCall.dump at hdump
  dsimp only at hdump
  split at hdump
  · obtain ⟨statistics, hstatistics, rfl⟩ := Option.map_eq_some_iff.mp hdump
    refine ⟨fun s hs => ?_, h.general⟩
    cases hs
    exact (dumpStatistics_description hstatistics).trans (description_getD h.separate)
  · obtain ⟨statistics, hstatistics, rfl⟩ := Option.map_eq_some_iff.mp hdump
    refine ⟨h.separate, fun s hs => ?_⟩
    cases hs
    exact (dumpStatistics_description hstatistics).trans (description_getD h.general)

/-- A test of a call with the XML output. -/
theorem dumpXml_eq_some_iff (h : accumulators.Described call) :
    call.dumpXml apr casts (accumulators, xmlOutput) test = some (accumulators', xmlOutput') ↔
      call.dump accumulators test = some accumulators' ∧
        (∀ c ∈ (call.result test).madeCalls casts (call.descriptionOf test), c.Printable) ∧
        xmlOutput' = xmlOutput ++
          textOf apr ((call.result test).addedCalls casts (call.descriptionOf test)) := by
  unfold TestCall.dumpXml TestCall.dump TestCall.descriptionOf
  dsimp only
  cases test.separate with
  | true =>
    simp only [if_true]
    rw [map_dumpStatisticsXml_eq_some_iff _ fun statistics =>
      ({ accumulators with separate := some statistics } : Accumulators T),
      description_getD h.separate]
  | false =>
    simp only [Bool.false_eq_true, if_false]
    rw [map_dumpStatisticsXml_eq_some_iff _ fun statistics =>
      ({ accumulators with general := some statistics } : Accumulators T),
      description_getD h.general]

/-- The calls that are made for tests. -/
def TestCall.madeFor (casts : DoubleCasts T) (call : TestCall T) (tests : List Test) :
    List XmlCall :=
  tests.flatMap fun test => (call.result test).madeCalls casts (call.descriptionOf test)

/-- The calls whose output tests add. -/
def TestCall.addedFor (casts : DoubleCasts T) (call : TestCall T) (tests : List Test) :
    List XmlCall :=
  tests.flatMap fun test => (call.result test).addedCalls casts (call.descriptionOf test)

/-- The tests of a call with the XML output, one after another. -/
theorem foldlM_dumpXml_eq_some_iff {tests : List Test} (h : accumulators.Described call) :
    tests.foldlM (call.dumpXml apr casts) (accumulators, xmlOutput) =
        some (accumulators', xmlOutput') ↔
      tests.foldlM call.dump accumulators = some accumulators' ∧
        (∀ c ∈ call.madeFor casts tests, c.Printable) ∧
        xmlOutput' = xmlOutput ++ textOf apr (call.addedFor casts tests) := by
  induction tests generalizing accumulators xmlOutput with
  | nil =>
    simp only [List.foldlM_nil, Option.pure_def, Option.some.injEq, Prod.mk.injEq]
    constructor
    · rintro ⟨rfl, rfl⟩
      exact ⟨rfl, fun _ hmem => absurd hmem List.not_mem_nil, by simp [TestCall.addedFor]⟩
    · rintro ⟨rfl, _, hxml⟩
      exact ⟨rfl, by simpa [TestCall.addedFor] using hxml.symm⟩
  | cons test tests ih =>
    simp only [List.foldlM_cons, Option.bind_eq_bind, Option.bind_eq_some_iff, Prod.exists,
      dumpXml_eq_some_iff h, TestCall.madeFor, TestCall.addedFor, List.flatMap_cons,
      List.forall_mem_append, textOf_append]
    constructor
    · rintro ⟨next, _, ⟨hdump, hprintable, rfl⟩, hrest⟩
      obtain ⟨hfold, hall, rfl⟩ := (ih (h.dump hdump)).mp hrest
      exact ⟨⟨next, hdump, hfold⟩, ⟨hprintable, hall⟩, List.append_assoc ..⟩
    · rintro ⟨⟨next, hdump, hfold⟩, ⟨hprintable, hall⟩, rfl⟩
      refine ⟨next, _, ⟨hdump, hprintable, rfl⟩, (ih (h.dump hdump)).mpr ?_⟩
      exact ⟨hfold, hall, (List.append_assoc ..).symm⟩

theorem foldlM_dump_described {tests : List Test} (h : accumulators.Described call)
    (hfold : tests.foldlM call.dump accumulators = some accumulators') :
    accumulators'.Described call := by
  induction tests generalizing accumulators with
  | nil =>
    cases hfold
    exact h
  | cons test tests ih =>
    obtain ⟨next, hdump, hrest⟩ := Option.bind_eq_some_iff.mp hfold
    exact ih (h.dump hdump) hrest

variable [LE T] [DecidableLE T]

/-- A call of `run_tests` with the XML output. -/
theorem xml_eq_some_iff : call.xml apr casts xmlOutput = some (accumulators', xmlOutput') ↔
    call.accumulators = some accumulators' ∧
      (∀ c ∈ call.madeFor casts call.tests, c.Printable) ∧
      xmlOutput' = xmlOutput ++ textOf apr (call.addedFor casts call.tests) := by
  unfold TestCall.xml TestCall.accumulators TestCall.tests
  cases hrun : call.run with
  | done run => exact foldlM_dumpXml_eq_some_iff (described_none call)
  | trap run => exact iff_of_false (fun h => by cases h) fun h => by cases h.1
  | outOfFuel run => exact iff_of_false (fun h => by cases h) fun h => by cases h.1

/-- The statistics of a call are described by it. -/
theorem accumulators_described (h : call.accumulators = some accumulators) :
    accumulators.Described call := by
  unfold TestCall.accumulators at h
  cases hrun : call.run with
  | done run =>
    rw [hrun] at h
    exact foldlM_dump_described (described_none call) h
  | trap run =>
    rw [hrun] at h
    cases h
  | outOfFuel run =>
    rw [hrun] at h
    cases h

/-- The calls that are made for the tests of calls of `run_tests`. -/
def madeForAll (casts : DoubleCasts T) (calls : List (TestCall T)) : List XmlCall :=
  calls.flatMap fun call => call.madeFor casts call.tests

/-- The calls whose output these tests add. -/
def addedForAll (casts : DoubleCasts T) (calls : List (TestCall T)) : List XmlCall :=
  calls.flatMap fun call => call.addedFor casts call.tests

/-- Calls of `run_tests` one after another, with the XML output. -/
theorem callsXml_eq_some_iff {calls : List (TestCall T)} {array array' : List (IoStatistics T)} :
    callsXml apr casts (array, xmlOutput) calls = some (array', xmlOutput') ↔
      (∃ added, statisticsArray calls = some added ∧ array' = array ++ added) ∧
        (∀ c ∈ madeForAll casts calls, c.Printable) ∧
        xmlOutput' = xmlOutput ++ textOf apr (addedForAll casts calls) := by
  induction calls using List.reverseRecOn generalizing array' xmlOutput' with
  | nil =>
    simp [callsXml, statisticsArray, madeForAll, addedForAll, eq_comm]
  | append_singleton calls call ih =>
    have hxml : callsXml apr casts (array, xmlOutput) (calls ++ [call]) =
        (callsXml apr casts (array, xmlOutput) calls).bind fun state =>
          (call.xml apr casts state.2).map fun out => (state.1 ++ out.1.array, out.2) := by
      simp [callsXml, List.foldlM_append]
    have harray : statisticsArray (calls ++ [call]) = (statisticsArray calls).bind fun added =>
        call.accumulators.map fun accumulators => added ++ accumulators.array := by
      simp [statisticsArray, List.foldlM_append]
    simp only [hxml, harray, Option.bind_eq_some_iff, Option.map_eq_some_iff, Prod.exists, ih,
      xml_eq_some_iff, madeForAll, addedForAll, List.flatMap_append, List.flatMap_singleton,
      List.forall_mem_append, textOf_append, Prod.mk.injEq]
    constructor
    · rintro ⟨_, _, ⟨⟨added, hadded, rfl⟩, hall, rfl⟩, accumulators, _,
        ⟨haccumulators, hcall, rfl⟩, rfl, rfl⟩
      exact ⟨⟨_, ⟨added, hadded, accumulators, haccumulators, rfl⟩, List.append_assoc ..⟩,
        ⟨hall, hcall⟩, List.append_assoc ..⟩
    · rintro ⟨⟨_, ⟨added, hadded, accumulators, haccumulators, rfl⟩, rfl⟩, ⟨hall, hcall⟩, rfl⟩
      exact ⟨_, _, ⟨⟨added, hadded, rfl⟩, hall, rfl⟩, accumulators, _,
        ⟨haccumulators, hcall, rfl⟩, List.append_assoc .., List.append_assoc ..⟩

/-- What is added for tests are elements one after another. -/
theorem inner_addedForAll (calls : List (TestCall T)) : Inner apr (addedForAll casts calls) := by
  refine inner_flatMap fun call _ => inner_flatMap fun test _ => ?_
  unfold TestResult.addedCalls
  cases ((call.result test).printedTotals : Option (Totals T)) with
  | none => exact inner_nil
  | some totals => exact inner_test _ totals

/-- With safe descriptions it is fine. -/
theorem fine_addedForAll {calls : List (TestCall T)}
    (h : ∀ call ∈ calls, SafeString call.description ∧ SafeString call.separateDescription) :
    ∀ c ∈ addedForAll casts calls, c.Fine := by
  intro c hc
  obtain ⟨call, hcall, hadded⟩ := List.mem_flatMap.mp hc
  obtain ⟨test, _, htest⟩ := List.mem_flatMap.mp hadded
  obtain ⟨hdescription, hseparate⟩ := h call hcall
  have hsafe : SafeString (call.descriptionOf test) := by
    unfold TestCall.descriptionOf
    split
    · exact hseparate
    · exact hdescription
  unfold TestResult.addedCalls at htest
  cases htotals : ((call.result test).printedTotals : Option (Totals T)) with
  | none =>
    rw [htotals] at htest
    exact absurd htest List.not_mem_nil
  | some totals =>
    rw [htotals] at htest
    exact fine_test hsafe _ totals c htest

/-- The statistics of an array have the descriptions of their calls. -/
theorem statisticsArray_described {calls : List (TestCall T)} {array : List (IoStatistics T)}
    (h : statisticsArray calls = some array) : ∀ statistics ∈ array, ∃ call ∈ calls,
      statistics.description = call.separateDescription ∨
        statistics.description = call.description := by
  obtain ⟨accumulators, hall, rfl⟩ := statisticsArray_eq h
  intro statistics hmem
  obtain ⟨one, hone, hstatistics⟩ := List.mem_flatMap.mp hmem
  obtain ⟨call, hcall, haccumulators⟩ : ∃ call ∈ calls, call.accumulators = some one := by
    clear h hmem
    induction hall with
    | nil => cases hone
    | cons hhead _ ih =>
      obtain rfl | hrest := List.mem_cons.mp hone
      · exact ⟨_, List.mem_cons_self, hhead⟩
      · obtain ⟨call, hcall, heq⟩ := ih hrest
        exact ⟨call, List.mem_cons_of_mem _ hcall, heq⟩
  have hdescribed := accumulators_described haccumulators
  refine ⟨call, hcall, ?_⟩
  obtain hseparate | hgeneral := List.mem_append.mp hstatistics
  · exact Or.inl (hdescribed.separate statistics (Option.mem_toList.mp hseparate))
  · exact Or.inr (hdescribed.general statistics (Option.mem_toList.mp hgeneral))

end Call

end DiskBench
