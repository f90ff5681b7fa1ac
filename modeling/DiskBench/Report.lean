import DiskBench.Fragments

/-!
# The XML report

The document that `main` accumulates in `options.xml_output`: the fragments of the preparation and
of the tests, and the summary. Strings from outside are the description of the configuration and the
names of the files; they are printed both as the value of an attribute and as a text, and nothing is
escaped.
-/

namespace DiskBench

/-- A worker in the summary. -/
structure ReportWorker where
  filename : List Char
  filesize : UInt64

/-- What `main` makes the document of, besides `statistics_array`. -/
structure Report (T : Type) where
  machineId : List Char
  maxPreparationTime : AprTime
  maxExecutionTime : AprTime
  writeRandom : Int32
  iobufsize : UInt64
  maxRequestsizeSequential : UInt64
  maxRequestsizeRandom : UInt64
  requestsizeArraySequential : List UInt64
  requestsizeArrayRandom : List UInt64
  queueDepthArray : List UInt32
  workers : List ReportWorker
  /-- `main` creates a worker when there is none. -/
  workers_ne : workers ≠ []
  /-- `end_time - start_time`. -/
  totalTime : AprTime
  /-- What `overall_score` happens to hold without statistics. -/
  overallScore : T
  creating : TestCall T
  sequentialWrite : TestCall T
  sequentialRead : TestCall T
  randomWrite : TestCall T
  randomRead : TestCall T
  mixed : TestCall T

/-- The loop of `print_array_size`, with what has been printed. -/
def printArraySize (apr : AprFormat) (maxSize : UInt64) :
    List UInt64 → List Char → Option (List Char)
  | [], rv => some rv
  | size :: reqsizes, rv =>
    if size > maxSize then printArraySize apr maxSize reqsizes rv
    else (printSize apr arrayFmt (toDouble size)).bind fun printed =>
      printArraySize apr maxSize reqsizes
        (if rv = [] then printed else rv ++ ", ".toList ++ printed)

/-- The loop of `print_array_depths`, with what has been printed. -/
def printArrayDepths (maxDepth : UInt32) : List UInt32 → List Char → List Char
  | [], rv => rv
  | depth :: queueDepths, rv =>
    if depth > maxDepth then printArrayDepths maxDepth queueDepths rv
    else printArrayDepths maxDepth queueDepths
      (if rv = [] then printInt 0 depth else rv ++ ", ".toList ++ printInt 0 depth)

/-- The calls for the workers of the summary, from worker `i` on. -/
def reportWorkersCalls : ℕ → List ReportWorker → List XmlCall
  | _, [] => []
  | i, worker :: workers =>
    [.tagOpen "worker".toList,
      .tagNumber "id".toList (UInt64.ofNat i),
      .tagStr "filename".toList worker.filename,
      .tagSize "size".toList bytesFmt worker.filesize,
      .tagClose "worker".toList] ++ reportWorkersCalls (i + 1) workers

/-- A call of `run_tests` with the description that `main` gives it, and with the request size of
separate statistics and their description unless that is null. -/
def TestCall.described {T : Type} (description : List Char) (separate : Option (UInt64 × List Char))
    (call : TestCall T) : TestCall T :=
  { call with
    description
    separateDescription := (separate.map Prod.snd).getD []
    options := { call.options with separateStatisticsReqsize := separate.map Prod.fst } }

/-- The call that creates or validates the files. -/
def Report.creatingCalls {T : Type} (report : Report T) : List (TestCall T) :=
  [report.creating.described "Creating/Validating files".toList none]

/-- The calls for the tests. -/
def Report.testCalls {T : Type} (report : Report T) : List (TestCall T) :=
  [report.sequentialWrite.described "Sequential write".toList
      (some (131072, "Sequential write 128k".toList)),
    report.sequentialRead.described "Sequential read".toList
      (some (131072, "Sequential read 128k".toList)),
    report.randomWrite.described "Random write".toList (some (4096, "Random write 4k".toList)),
    report.randomRead.described "Random read".toList (some (4096, "Random read 4k".toList)),
    report.mixed.described "Totaliaris mix".toList none]

section Model

variable {T : Type} [Div T]

/-- The calls for an element of `statistics_array`. -/
def statisticsCalls (casts : DoubleCasts T) (statistics : IoStatistics T) : List XmlCall :=
  let weightedThroughput :=
    statistics.accumulatedWeightedBytesPerSecond / statistics.accumulatedWeight
  [.tagOpen "test".toList,
    .tagStr "description".toList statistics.description,
    .tagSize "weighted_throughput".toList throughputFmt (casts.toUInt64 weightedThroughput),
    .tagSize "max_throughput".toList throughputFmt (casts.toUInt64 statistics.maxThroughput),
    .tagSize "min_throughput".toList throughputFmt (casts.toUInt64 statistics.minThroughput),
    .tagSize "bytes_written".toList bytesFmt statistics.bytesWritten,
    .tagSize "bytes_read".toList bytesFmt statistics.bytesRead,
    .tagSize "write_request".toList requestFmt statistics.writeRequests,
    .tagSize "read_requests".toList requestFmt statistics.readRequests,
    .tagNumber "max_concurrent_iops".toList statistics.maxActive.toInt64.toUInt64,
    .tagTime "time_spent".toList statistics.elapsed,
    .tagClose "test".toList]

/-- The calls about the configuration. -/
def Report.configurationCalls (report : Report T) (array : List (IoStatistics T))
    (sequentialRequestsizes randomRequestsizes : List Char) : List XmlCall :=
  let maxActive := (summarize report.overallScore array).maxActive
  let depths := printArrayDepths (maxActive / UInt32.ofNat report.workers.length)
    report.queueDepthArray []
  [.tagStr "configuration_description".toList report.machineId,
    .tagTime "preparation_time".toList report.maxPreparationTime,
    .tagTime "time_per_test".toList report.maxExecutionTime,
    .tagNumber "random_writing".toList report.writeRandom.toInt64.toUInt64,
    .tagSize "iobuffer_size".toList bytesFmt report.iobufsize,
    .tagStr "iosizes_sequential".toList sequentialRequestsizes,
    .tagStr "iosizes_random".toList randomRequestsizes,
    .tagStr "queue_depths".toList depths]

/-- The calls about the whole run. -/
def Report.totalCalls (casts : DoubleCasts T) (report : Report T)
    (array : List (IoStatistics T)) : List XmlCall :=
  let summary := summarize report.overallScore array
  [.tagSize "bytes_written".toList bytesFmt summary.bytesWritten,
    .tagSize "bytes_read".toList bytesFmt summary.bytesRead,
    .tagSize "write_requests".toList requestFmt summary.writeRequests,
    .tagSize "read_requests".toList requestFmt summary.readRequests,
    .tagTime "total_time".toList report.totalTime,
    .tagSize "overall_score".toList throughputFmt (casts.toUInt64 summary.overallScore)]

/-- The calls of `main` from the summary on. -/
def Report.summaryCalls (casts : DoubleCasts T) (report : Report T)
    (array : List (IoStatistics T)) (sequentialRequestsizes randomRequestsizes : List Char) :
    List XmlCall :=
  [.tagOpen "summary".toList] ++
    report.configurationCalls array sequentialRequestsizes randomRequestsizes ++
    [.tagOpen "workers".toList] ++ reportWorkersCalls 0 report.workers ++
    [.tagClose "workers".toList] ++
    [.tagOpen "test_summary".toList] ++ array.flatMap (statisticsCalls casts) ++
    [.tagClose "test_summary".toList] ++ report.totalCalls casts array ++
    [.tagClose "summary".toList, .tagClose "diskBench".toList]

variable [Zero T] [Add T] [NatCast T] [IntCast T] [Mul T] [LT T] [DecidableLT T] [LE T]
  [DecidableLE T]

/-- `options.xml_output` when `main` writes it. -/
def Report.xmlOutput (apr : AprFormat) (casts : DoubleCasts T) (report : Report T) :
    Option (List Char) := do
  let xml ← printCalls apr printXmlStart
    [.tagOpen "diskBench".toList, .tagOpen "prepare_and_validate".toList]
  let created ← callsXml apr casts ([], xml) report.creatingCalls
  let xml ← printCalls apr created.2
    [.tagClose "prepare_and_validate".toList, .tagOpen "tests".toList]
  let tested ← callsXml apr casts (created.1, xml) report.testCalls
  let sequentialRequestsizes ←
    printArraySize apr report.maxRequestsizeSequential report.requestsizeArraySequential []
  let randomRequestsizes ←
    printArraySize apr report.maxRequestsizeRandom report.requestsizeArrayRandom []
  let xml ← printCalls apr tested.2 [.tagClose "tests".toList]
  printCalls apr xml
    (report.summaryCalls casts tested.1 sequentialRequestsizes randomRequestsizes)

end Model

section Arrays

variable {apr : AprFormat} {maxSize : UInt64} {reqsizes : List UInt64} {rv out : List Char}

/-- One more item of a list is no markup. -/
theorem noMarkup_listed {item : List Char} (hrv : NoMarkup rv) (hitem : NoMarkup item) :
    NoMarkup (if rv = [] then item else rv ++ ", ".toList ++ item) := by
  have hseparator : NoMarkup ", ".toList := noMarkup_of_all rfl
  split
  · exact hitem
  · exact noMarkup_append.mpr ⟨noMarkup_append.mpr ⟨hrv, hseparator⟩, hitem⟩

/-- `print_array_size` prints the sizes up to the maximum. -/
theorem printArraySize_isSome_iff : (printArraySize apr maxSize reqsizes rv).isSome ↔
    ∀ size ∈ reqsizes.filter (· ≤ maxSize), (toDouble size : ℚ) ≤ 1024 ^ 6 := by
  induction reqsizes generalizing rv with
  | nil => simp [printArraySize]
  | cons size reqsizes ih =>
    rw [printArraySize]
    split
    next hgt =>
      rw [ih, List.filter_cons_of_neg (by simpa using hgt)]
    next hle =>
      rw [List.filter_cons_of_pos (by simpa using hle), List.forall_mem_cons,
        ← @printSize_isSome_iff apr arrayFmt]
      cases printSize apr arrayFmt (toDouble size) with
      | none => simp
      | some printed => simp [ih]

/-- What it prints, then. -/
theorem printArraySize_eq_some_iff : printArraySize apr maxSize reqsizes rv = some out ↔
    (∀ size ∈ reqsizes.filter (· ≤ maxSize), (toDouble size : ℚ) ≤ 1024 ^ 6) ∧
      out = (printArraySize apr maxSize reqsizes rv).getD [] := by
  rw [← @printArraySize_isSome_iff apr maxSize reqsizes rv]
  cases printArraySize apr maxSize reqsizes rv with
  | none => simp
  | some printed => simp [eq_comm]

/-- It prints no markup. -/
theorem printArraySize_noMarkup (hrv : NoMarkup rv)
    (h : printArraySize apr maxSize reqsizes rv = some out) : NoMarkup out := by
  induction reqsizes generalizing rv with
  | nil =>
    cases h
    exact hrv
  | cons size reqsizes ih =>
    rw [printArraySize] at h
    split at h
    · exact ih hrv h
    · obtain ⟨printed, hprinted, hrest⟩ := Option.bind_eq_some_iff.mp h
      exact ih (noMarkup_listed hrv (noMarkup_printSize (Nat.cast_nonneg _) hprinted)) hrest

theorem printArraySize_getD_noMarkup (apr : AprFormat) (maxSize : UInt64)
    (reqsizes : List UInt64) : NoMarkup ((printArraySize apr maxSize reqsizes []).getD []) := by
  cases hprint : printArraySize apr maxSize reqsizes [] with
  | none => exact noMarkup_nil
  | some printed => exact printArraySize_noMarkup noMarkup_nil hprint

/-- Neither does `print_array_depths`. -/
theorem printArrayDepths_noMarkup {maxDepth : UInt32} {queueDepths : List UInt32}
    (hrv : NoMarkup rv) : NoMarkup (printArrayDepths maxDepth queueDepths rv) := by
  induction queueDepths generalizing rv with
  | nil => exact hrv
  | cons depth queueDepths ih =>
    rw [printArrayDepths]
    split
    · exact ih hrv
    · exact ih (noMarkup_listed hrv (noMarkup_printInt 0 depth))

end Arrays

/-- The size that a call formats. -/
def XmlCall.size? : XmlCall → Option UInt64
  | .tagSize _ _ size => some size
  | _ => none

/-- Calls are printable when their sizes have a unit. -/
theorem printable_iff (calls : List XmlCall) : (∀ call ∈ calls, call.Printable) ↔
    ∀ size ∈ calls.filterMap XmlCall.size?, (toDouble size : ℚ) ≤ 1024 ^ 6 := by
  induction calls with
  | nil => simp
  | cons call calls ih =>
    rw [List.forall_mem_cons, ih]
    cases call <;> simp [XmlCall.size?, XmlCall.Printable, List.filterMap_cons]

/-- Calls without sizes are printable. -/
theorem printable_tags {calls : List XmlCall} (h : calls.filterMap XmlCall.size? = []) :
    ∀ call ∈ calls, call.Printable := by
  rw [printable_iff, h]
  exact fun _ hmem => absurd hmem List.not_mem_nil

/-- The request sizes of the sequential tests, as they are printed. -/
def Report.sequentialRequestsizes (apr : AprFormat) {T : Type} (report : Report T) : List Char :=
  (printArraySize apr report.maxRequestsizeSequential report.requestsizeArraySequential []).getD []

/-- The request sizes of the random tests, as they are printed. -/
def Report.randomRequestsizes (apr : AprFormat) {T : Type} (report : Report T) : List Char :=
  (printArraySize apr report.maxRequestsizeRandom report.requestsizeArrayRandom []).getD []

section Parts

variable {apr : AprFormat}

theorem safeString_nil : SafeString [] := noMarkup_nil.safe

/-- A worker of the summary is an element. -/
theorem inner_reportWorkersCalls (i : ℕ) (workers : List ReportWorker) :
    Inner apr (reportWorkersCalls i workers) := by
  induction workers generalizing i with
  | nil => exact inner_nil
  | cons worker workers ih =>
    have hworker : Inner apr [.tagNumber "id".toList (UInt64.ofNat i),
        .tagStr "filename".toList worker.filename,
        .tagSize "size".toList bytesFmt worker.filesize] := inner_of_isLeaf rfl
    exact (hworker.element "worker".toList).append (ih (i + 1))

theorem reportWorkersCalls_names (i : ℕ) (workers : List ReportWorker) :
    ∀ call ∈ reportWorkersCalls i workers, Xml.isName call.tagname := by
  induction workers generalizing i with
  | nil => exact fun _ h => absurd h List.not_mem_nil
  | cons worker workers ih => exact List.forall_mem_append.mpr ⟨names_of_all rfl, ih (i + 1)⟩

/-- The strings of the workers are the names of their files. -/
theorem reportWorkersCalls_safe_iff (i : ℕ) (workers : List ReportWorker) :
    (∀ call ∈ reportWorkersCalls i workers, SafeString call.str) ↔
      ∀ worker ∈ workers, SafeString worker.filename := by
  induction workers generalizing i with
  | nil => simp [reportWorkersCalls]
  | cons worker workers ih =>
    rw [reportWorkersCalls, List.forall_mem_append, ih, List.forall_mem_cons]
    simp [XmlCall.str, safeString_nil]

variable {T : Type} {report : Report T}

/-- The descriptions that `main` gives are safe. -/
theorem described_safe : ∀ call ∈ report.creatingCalls ++ report.testCalls,
    SafeString call.description ∧ SafeString call.separateDescription := by
  simp only [Report.creatingCalls, Report.testCalls, TestCall.described, List.singleton_append,
    List.forall_mem_cons, List.not_mem_nil, IsEmpty.forall_iff, implies_true, and_true]
  decide

variable [Div T] {casts : DoubleCasts T} {statistics : IoStatistics T}
  {array : List (IoStatistics T)}

/-- The statistics of the summary are an element. -/
theorem inner_statisticsCalls : Inner apr (statisticsCalls casts statistics) :=
  Inner.element "test".toList
    (@inner_of_isLeaf _ (statisticsCalls casts statistics).tail.dropLast rfl)

theorem statisticsCalls_fine (h : SafeString statistics.description) :
    ∀ call ∈ statisticsCalls casts statistics, call.Fine := by
  have hname : Xml.isName "description".toList := by decide
  unfold statisticsCalls
  dsimp only
  rw [List.forall_mem_cons, List.forall_mem_cons]
  exact ⟨fine_tagOpen rfl, ⟨hname, h⟩, fine_of_isFixed rfl⟩

/-- The summary between its tags. -/
def Report.summaryBody (apr : AprFormat) (casts : DoubleCasts T) (report : Report T)
    (array : List (IoStatistics T)) : List XmlCall :=
  report.configurationCalls array (report.sequentialRequestsizes apr)
      (report.randomRequestsizes apr) ++
    (.tagOpen "workers".toList :: reportWorkersCalls 0 report.workers ++
      [.tagClose "workers".toList]) ++
    (.tagOpen "test_summary".toList :: array.flatMap (statisticsCalls casts) ++
      [.tagClose "test_summary".toList]) ++
    report.totalCalls casts array

/-- It is elements one after another. -/
theorem inner_summaryBody : Inner apr (report.summaryBody apr casts array) := by
  have hconfiguration : Inner apr (report.configurationCalls array
      (report.sequentialRequestsizes apr) (report.randomRequestsizes apr)) := inner_of_isLeaf rfl
  have hworkers := (@inner_reportWorkersCalls apr 0 report.workers).element "workers".toList
  have hstatistics : Inner apr (array.flatMap (statisticsCalls casts)) :=
    inner_flatMap fun _ _ => inner_statisticsCalls
  have htotal : Inner apr (report.totalCalls casts array) := inner_of_isLeaf rfl
  exact ((hconfiguration.append hworkers).append
    (hstatistics.element "test_summary".toList)).append htotal

/-- The strings of the configuration are its description and numbers. -/
theorem configurationCalls_safe_iff : (∀ call ∈ report.configurationCalls array
      (report.sequentialRequestsizes apr) (report.randomRequestsizes apr), SafeString call.str) ↔
    SafeString report.machineId := by
  have harrays : SafeString (report.sequentialRequestsizes apr) ∧
      SafeString (report.randomRequestsizes apr) :=
    ⟨(printArraySize_getD_noMarkup _ _ _).safe, (printArraySize_getD_noMarkup _ _ _).safe⟩
  have hdepths : ∀ maxDepth, SafeString (printArrayDepths maxDepth report.queueDepthArray []) :=
    fun _ => (printArrayDepths_noMarkup noMarkup_nil).safe
  simp [Report.configurationCalls, XmlCall.str, safeString_nil, harrays, hdepths]

/-- The tests in the summary are fine when all descriptions are. -/
theorem testSummary_fine (h : ∀ statistics ∈ array, SafeString statistics.description) :
    ∀ call ∈ array.flatMap (statisticsCalls casts), call.Fine := by
  intro call hcall
  obtain ⟨statistics, hmem, hcall⟩ := List.mem_flatMap.mp hcall
  exact statisticsCalls_fine (h statistics hmem) call hcall

/-- The strings of the summary that may not be safe. -/
theorem summaryBody_safe_iff (h : ∀ statistics ∈ array, SafeString statistics.description) :
    (∀ call ∈ report.summaryBody apr casts array, SafeString call.str) ↔
      SafeString report.machineId ∧ ∀ worker ∈ report.workers, SafeString worker.filename := by
  have hsummary : ∀ call ∈ array.flatMap (statisticsCalls casts), SafeString call.str :=
    fun call hcall => (testSummary_fine h call hcall).str
  have htotal : ∀ call ∈ report.totalCalls casts array, SafeString call.str :=
    fun call hcall => (fine_of_isFixed rfl call hcall).str
  rw [Report.summaryBody, List.forall_mem_append, List.forall_mem_append, List.forall_mem_append,
    element_safe_iff, element_safe_iff, configurationCalls_safe_iff, reportWorkersCalls_safe_iff,
    and_iff_left hsummary, and_iff_left htotal]

theorem summaryBody_names (h : ∀ statistics ∈ array, SafeString statistics.description) :
    ∀ call ∈ report.summaryBody apr casts array, Xml.isName call.tagname := by
  have hsummary : ∀ call ∈ array.flatMap (statisticsCalls casts), Xml.isName call.tagname :=
    fun call hcall => (testSummary_fine h call hcall).tagname
  exact List.forall_mem_append.mpr ⟨List.forall_mem_append.mpr ⟨List.forall_mem_append.mpr
    ⟨names_of_all rfl, element_names rfl (reportWorkersCalls_names 0 report.workers)⟩,
      element_names rfl hsummary⟩, names_of_all rfl⟩

end Parts

section Lines

variable {T : Type} [Zero T] [Add T] [Div T] [NatCast T] [IntCast T] [Mul T] [LT T] [DecidableLT T]
  [LE T] [DecidableLE T]

/-- What the document consists of when `statistics_array` is known. -/
def Report.lines (apr : AprFormat) (casts : DoubleCasts T) (report : Report T)
    (array : List (IoStatistics T)) : List XmlCall :=
  [.tagOpen "diskBench".toList, .tagOpen "prepare_and_validate".toList] ++
    addedForAll casts report.creatingCalls ++
    [.tagClose "prepare_and_validate".toList, .tagOpen "tests".toList] ++
    addedForAll casts report.testCalls ++ [.tagClose "tests".toList] ++
    report.summaryCalls casts array (report.sequentialRequestsizes apr)
      (report.randomRequestsizes apr)

/-- The sizes that are formatted, also those whose fragment is dropped. -/
def Report.sizes (apr : AprFormat) (casts : DoubleCasts T) (report : Report T)
    (array : List (IoStatistics T)) : List UInt64 :=
  (madeForAll casts report.creatingCalls ++ madeForAll casts report.testCalls ++
      report.summaryCalls casts array (report.sequentialRequestsizes apr)
        (report.randomRequestsizes apr)).filterMap XmlCall.size? ++
    report.requestsizeArraySequential.filter (· ≤ report.maxRequestsizeSequential) ++
    report.requestsizeArrayRandom.filter (· ≤ report.maxRequestsizeRandom)

variable {apr : AprFormat} {casts : DoubleCasts T} {report : Report T}
  {array : List (IoStatistics T)} {xml : List Char}

/-- `statistics_array` after more calls. -/
theorem statisticsArray_append {calls calls' : List (TestCall T)} :
    statisticsArray (calls ++ calls') = some array ↔ ∃ created tested,
      statisticsArray calls = some created ∧ statisticsArray calls' = some tested ∧
        array = created ++ tested := by
  induction calls' using List.reverseRecOn generalizing array with
  | nil => simp [statisticsArray, eq_comm]
  | append_singleton calls' call ih =>
    have hsnoc : ∀ calls : List (TestCall T), statisticsArray (calls ++ [call]) =
        (statisticsArray calls).bind fun added =>
          call.accumulators.map fun accumulators => added ++ accumulators.array := by
      intro calls
      simp [statisticsArray, List.foldlM_append]
    simp only [← List.append_assoc, hsnoc, Option.bind_eq_some_iff, Option.map_eq_some_iff, ih]
    constructor
    · rintro ⟨_, ⟨created, tested, hcreated, htested, rfl⟩, accumulators, haccumulators, rfl⟩
      exact ⟨created, _, hcreated, ⟨tested, htested, accumulators, haccumulators, rfl⟩,
        List.append_assoc ..⟩
    · rintro ⟨created, _, hcreated, ⟨tested, htested, accumulators, haccumulators, rfl⟩, rfl⟩
      exact ⟨_, ⟨created, tested, hcreated, htested, rfl⟩, accumulators, haccumulators,
        List.append_assoc ..⟩

/-- `main` writes its lines exactly when `print_size` stays in its table. -/
theorem xmlOutput_eq_some_iff
    (harray : statisticsArray (report.creatingCalls ++ report.testCalls) = some array) :
    report.xmlOutput apr casts = some xml ↔
      (∀ size ∈ report.sizes apr casts array, (toDouble size : ℚ) ≤ 1024 ^ 6) ∧
        xml = printXmlStart ++ textOf apr (report.lines apr casts array) := by
  obtain ⟨created, tested, hcreated, htested, rfl⟩ := statisticsArray_append.mp harray
  simp only [Report.xmlOutput, Report.sizes, Option.bind_eq_bind, Option.bind_eq_some_iff,
    Prod.exists, printCalls_eq_some_iff, callsXml_eq_some_iff, printArraySize_eq_some_iff, hcreated,
    htested, Option.some.injEq, exists_eq_left', List.filterMap_append, List.forall_mem_append,
    ← printable_iff, Report.lines, Report.sequentialRequestsizes, Report.randomRequestsizes,
    textOf_append]
  constructor
  · rintro ⟨_, ⟨-, rfl⟩, _, _, ⟨rfl, hcreating, rfl⟩, _, ⟨-, rfl⟩, _, _, ⟨rfl, htests, rfl⟩,
      _, ⟨hsequential, rfl⟩, _, ⟨hrandom, rfl⟩, _, ⟨-, rfl⟩, hsummary, rfl⟩
    refine ⟨⟨⟨⟨⟨hcreating, htests⟩, hsummary⟩, hsequential⟩, hrandom⟩, ?_⟩
    simp only [List.append_assoc]
  · rintro ⟨⟨⟨⟨⟨hcreating, htests⟩, hsummary⟩, hsequential⟩, hrandom⟩, rfl⟩
    refine ⟨_, ⟨printable_tags rfl, rfl⟩, _, _, ⟨rfl, hcreating, rfl⟩,
      _, ⟨printable_tags rfl, rfl⟩, _, _, ⟨rfl, htests, rfl⟩, _, ⟨hsequential, rfl⟩,
      _, ⟨hrandom, rfl⟩, _, ⟨printable_tags rfl, rfl⟩, hsummary, ?_⟩
    simp only [List.append_assoc, List.nil_append]

/-- The root between its tags. -/
def Report.body (apr : AprFormat) (casts : DoubleCasts T) (report : Report T)
    (array : List (IoStatistics T)) : List XmlCall :=
  (.tagOpen "prepare_and_validate".toList :: addedForAll casts report.creatingCalls ++
      [.tagClose "prepare_and_validate".toList]) ++
    (.tagOpen "tests".toList :: addedForAll casts report.testCalls ++ [.tagClose "tests".toList]) ++
    (.tagOpen "summary".toList :: report.summaryBody apr casts array ++
      [.tagClose "summary".toList])

/-- The lines are the root. -/
theorem lines_eq : report.lines apr casts array =
    .tagOpen "diskBench".toList :: report.body apr casts array ++
      [.tagClose "diskBench".toList] := by
  simp [Report.lines, Report.body, Report.summaryBody, Report.summaryCalls]

/-- Every tag that is opened in the root is closed there in nesting order. -/
theorem inner_body : Inner apr (report.body apr casts array) :=
  (((inner_addedForAll _).element "prepare_and_validate".toList).append
    ((inner_addedForAll _).element "tests".toList)).append
      (inner_summaryBody.element "summary".toList)

/-- The statistics have descriptions of `main`. -/
theorem description_safe
    (harray : statisticsArray (report.creatingCalls ++ report.testCalls) = some array) :
    ∀ statistics ∈ array, SafeString statistics.description := by
  intro statistics hmem
  obtain ⟨call, hcall, hseparate | hgeneral⟩ := statisticsArray_described harray statistics hmem
  · rw [hseparate]
    exact (described_safe call hcall).2
  · rw [hgeneral]
    exact (described_safe call hcall).1

/-- The strings of the root that may not be safe. -/
theorem body_safe_iff
    (harray : statisticsArray (report.creatingCalls ++ report.testCalls) = some array) :
    (∀ call ∈ report.body apr casts array, SafeString call.str) ↔
      SafeString report.machineId ∧ ∀ worker ∈ report.workers, SafeString worker.filename := by
  obtain ⟨hcreating, htests⟩ := List.forall_mem_append.mp (@described_safe _ report)
  have hcreated : ∀ call ∈ addedForAll casts report.creatingCalls, SafeString call.str :=
    fun call hcall => (fine_addedForAll hcreating call hcall).str
  have htested : ∀ call ∈ addedForAll casts report.testCalls, SafeString call.str :=
    fun call hcall => (fine_addedForAll htests call hcall).str
  rw [Report.body, List.forall_mem_append, List.forall_mem_append, element_safe_iff,
    element_safe_iff, element_safe_iff, and_iff_right hcreated, and_iff_right htested,
    summaryBody_safe_iff (description_safe harray)]

theorem body_names
    (harray : statisticsArray (report.creatingCalls ++ report.testCalls) = some array) :
    ∀ call ∈ report.body apr casts array, Xml.isName call.tagname := by
  obtain ⟨hcreating, htests⟩ := List.forall_mem_append.mp (@described_safe _ report)
  have hcreated : ∀ call ∈ addedForAll casts report.creatingCalls, Xml.isName call.tagname :=
    fun call hcall => (fine_addedForAll hcreating call hcall).tagname
  have htested : ∀ call ∈ addedForAll casts report.testCalls, Xml.isName call.tagname :=
    fun call hcall => (fine_addedForAll htests call hcall).tagname
  exact List.forall_mem_append.mpr
    ⟨List.forall_mem_append.mpr ⟨element_names rfl hcreated, element_names rfl htested⟩,
      element_names rfl (summaryBody_names (description_safe harray))⟩

/-- **The report.** `main` writes a document that is read as what it means, with one root and every
tag closed in nesting order, exactly when the strings from outside are safe and every size that is
formatted has a unit in the table of `print_size`. -/
theorem report_wellFormed_iff
    (harray : statisticsArray (report.creatingCalls ++ report.testCalls) = some array) :
    (∃ xml, report.xmlOutput apr casts = some xml ∧
        Xml.read xml = some (.char '\n' :: tokensOf apr (report.lines apr casts array))) ↔
      SafeString report.machineId ∧ (∀ worker ∈ report.workers, SafeString worker.filename) ∧
        ∀ size ∈ report.sizes apr casts array, (toDouble size : ℚ) ≤ 1024 ^ 6 := by
  have hread := @read_printed_iff apr (report.body apr casts array) "diskBench".toList inner_body
    rfl (body_names harray)
  rw [← lines_eq, body_safe_iff harray] at hread
  simp only [xmlOutput_eq_some_iff harray]
  constructor
  · rintro ⟨_, ⟨hsizes, rfl⟩, hxml⟩
    obtain ⟨hid, hworkers⟩ := hread.mp hxml
    exact ⟨hid, hworkers, hsizes⟩
  · rintro ⟨hid, hworkers, hsizes⟩
    exact ⟨_, ⟨hsizes, rfl⟩, hread.mpr ⟨hid, hworkers⟩⟩

end Lines

/-- The format of a number that is rounded to the nearest one with these decimals. -/
def roundedFormat : AprFormat where
  fixed decimals value :=
    let n := (value * 10 ^ decimals + 1 / 2).floor.toNat
    let whole := Nat.toDigits 10 (n / 10 ^ decimals)
    let digits := if decimals = 0 then whole
      else whole ++ '.' :: (Nat.toDigits 10 (n % 10 ^ decimals)).leftpad decimals '0'
    digits.leftpad 3 ' '
  fixed_mem {decimals value c} _ h := by
    have hdigits : ∀ n, c ∈ Nat.toDigits 10 n → c.isDigit := fun n hc =>
      Nat.isDigit_of_mem_toDigits (by decide) (by decide) hc
    dsimp only at h
    obtain hblank | hc := List.mem_append.mp h
    · exact Or.inr (Or.inr (List.eq_of_mem_replicate hblank))
    · split at hc
      · exact Or.inl (hdigits _ hc)
      · obtain hwhole | hc := List.mem_append.mp hc
        · exact Or.inl (hdigits _ hwhole)
        · obtain rfl | hrest := List.mem_cons.mp hc
          · exact Or.inr (Or.inl rfl)
          · obtain hzero | hrest := List.mem_append.mp hrest
            · exact Or.inl (List.eq_of_mem_replicate hzero ▸ by decide)
            · exact Or.inl (hdigits _ hrest)

/-- The conversions of a number cut it off behind the point. -/
def truncated : DoubleCasts ℚ where
  toUInt64 x := UInt64.ofInt (x.num.tdiv x.den)
  toTime x := x.num.tdiv x.den

/-- A call that executes one test. -/
def oneTest : TestCall ℚ :=
  { twoSizes with
    workers :=
      [prepareWorkload (createWorker 65536 65536 0) (some (.sequential false)) [4096] [1]] }

/-- A run with one file and one test in each call. -/
def oneFile (machineId : List Char) : Report ℚ where
  machineId
  maxPreparationTime := 60000000
  maxExecutionTime := 30000000
  writeRandom := 1
  iobufsize := 33554432
  maxRequestsizeSequential := 131072
  maxRequestsizeRandom := 4096
  requestsizeArraySequential := [131072]
  requestsizeArrayRandom := [4096]
  queueDepthArray := [1, 2]
  workers := [⟨"disk.dat".toList, 65536⟩]
  workers_ne := List.cons_ne_nil _ _
  totalTime := 90000000
  overallScore := 0
  creating := oneTest
  sequentialWrite := oneTest
  sequentialRead := oneTest
  randomWrite := oneTest
  randomRead := oneTest
  mixed := oneTest

/-- The statistics of that run. -/
def oneFileArray : List (IoStatistics ℚ) :=
  (statisticsArray ((oneFile []).creatingCalls ++ (oneFile []).testCalls)).getD []

theorem statisticsArray_oneFile (machineId : List Char) :
    statisticsArray ((oneFile machineId).creatingCalls ++ (oneFile machineId).testCalls) =
      some oneFileArray := by
  have hdone : (statisticsArray ((oneFile []).creatingCalls ++ (oneFile []).testCalls)).isSome := by
    decide +kernel
  obtain ⟨array, harray⟩ := Option.isSome_iff_exists.mp hdone
  change statisticsArray ((oneFile []).creatingCalls ++ (oneFile []).testCalls) = some oneFileArray
  rw [oneFileArray, harray, Option.getD_some]

/-- Its sizes have units. -/
theorem oneFile_sizes {machineId : List Char}
    (h : ((oneFile machineId).sizes roundedFormat truncated oneFileArray).all
      fun size => toDouble size ≤ 1024 ^ 6) :
    ∀ size ∈ (oneFile machineId).sizes roundedFormat truncated oneFileArray,
      (toDouble size : ℚ) ≤ 1024 ^ 6 := by
  intro size hsize
  have hle : toDouble size ≤ 1024 ^ 6 := by simpa using List.all_eq_true.mp h size hsize
  exact_mod_cast hle

/-- With a plain description the document is read. -/
theorem report_wellFormed_oneFile : ∃ xml,
    (oneFile "SSD".toList).xmlOutput roundedFormat truncated = some xml ∧
      Xml.read xml = some (.char '\n' :: tokensOf roundedFormat
        ((oneFile "SSD".toList).lines roundedFormat truncated oneFileArray)) :=
  (report_wellFormed_iff (statisticsArray_oneFile "SSD".toList)).mpr
    ⟨by decide, List.forall_mem_singleton.mpr (by decide), oneFile_sizes (by decide +kernel)⟩

/-- With `<` in it `main` writes a document that is not well formed. -/
theorem report_unescaped : ∃ xml,
    (oneFile "a<b".toList).xmlOutput roundedFormat truncated = some xml ∧ Xml.read xml = none := by
  refine ⟨_, (xmlOutput_eq_some_iff (statisticsArray_oneFile "a<b".toList)).mpr
    ⟨oneFile_sizes (by decide +kernel), rfl⟩, ?_⟩
  have hlines := List.take_append_drop 193
    ((oneFile "a<b".toList).lines roundedFormat truncated oneFileArray)
  have hstart : Xml.declaration <+: printXmlStart := ⟨['\n'], rfl⟩
  rw [← hlines, textOf_append, ← List.append_assoc]
  exact Xml.read_append_eq_none (hstart.trans (List.prefix_append _ _)) (by decide +kernel)

end DiskBench
