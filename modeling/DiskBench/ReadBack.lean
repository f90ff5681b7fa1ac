import DiskBench.Foundations.Quantities
import DiskBench.Foundations.XmlFields
import DiskBench.Report

/-!
# Reading the report back

What a program that reads the report finds in it: the description, the files, and for each test and
for the whole run the numbers that `main` has accumulated. The sizes and times are there twice, in a
form that is rounded and as numbers; the numbers are exact. In the strings from outside, the
description of the configuration and the names of the files, tabs and line ends are found as blanks.
-/

namespace DiskBench

open Quantities Xml

/-- What the attribute `value` of a call says. -/
def XmlCall.value : XmlCall → List Char
  | .tagOpen _ => []
  | .tagClose _ => []
  | .tagStr _ str => str
  | .tagNumber _ number => printUInt64 number
  | .tagSize _ _ size => printUInt64 size
  | .tagTime _ time => printUInt64 (UInt64.ofInt time)

/-- A number is handed out as it is. -/
theorem normalizeValue_printUInt64 (number : UInt64) :
    normalizeValue (printUInt64 number) = printUInt64 number := by
  apply normalizeValue_eq_self
  intro c hc hbreak
  have hdigit : c.isDigit := Nat.isDigit_of_mem_toDigits (by decide) (by decide) hc
  simp only [isBreak, Bool.or_eq_true, decide_eq_true_eq] at hbreak
  obtain (rfl | rfl) | rfl := hbreak <;> cases hdigit

@[simp] theorem whole_printUInt64 (number : UInt64) :
    whole (printUInt64 number) = number.toNat := by
  rw [whole, printUInt64, Nat.ofDigitChars_ten_toDigits]

section Calls

variable {apr : AprFormat} {place : Place} {tagname : List Char} {calls calls' : List XmlCall}

/-- The values of calls that print elements of their own. -/
def leafFields (place : Place) (calls : List XmlCall) : List (Place × List Char) :=
  calls.map fun call => (call.tagname :: place, normalizeValue call.value)

theorem tokensOf_append :
    tokensOf apr (calls ++ calls') = tokensOf apr calls ++ tokensOf apr calls' :=
  List.flatMap_append

theorem fields_chars (cs : List Char) : fields place (cs.map .char) = [] := by
  induction cs with
  | nil => rfl
  | cons c cs ih => exact ih

theorem fields_leafTokens (attributes : List Attribute) (text : List Char) :
    fields place (leafTokens tagname attributes text) =
      ((attributes.lookup "value".toList).map fun value =>
        (tagname :: place, normalizeValue value)).toList := by
  have hline := @fields_element (text.map .char) [.char '\n'] place tagname attributes
    (inner_chars text)
  rw [fields_chars, List.append_nil] at hline
  exact hline.trans (List.append_nil _)

theorem fields_leaves (h : calls.all XmlCall.isLeaf) :
    fields place (tokensOf apr calls) = leafFields place calls := by
  induction calls with
  | nil => rfl
  | cons call calls ih =>
    rw [List.all_cons, Bool.and_eq_true] at h
    have hcall : Inner apr [call] := inner_of_isLeaf (by rw [List.all_cons, h.1]; rfl)
    have hvalue : fields place (tokensOf apr [call]) =
        [(call.tagname :: place, normalizeValue call.value)] := by
      rw [tokensOf, List.flatMap_singleton]
      cases call with
      | tagOpen tagname => cases h.1
      | tagClose tagname => cases h.1
      | tagStr tagname str => exact fields_leafTokens _ _
      | tagNumber tagname number => exact fields_leafTokens _ _
      | tagSize tagname fmt size => exact fields_leafTokens _ _
      | tagTime tagname time => exact fields_leafTokens _ _
    rw [← List.singleton_append, tokensOf_append, fields_append hcall, hvalue, ih h.2]
    rfl

/-- The values of the lines between an opening and a closing tag. -/
theorem fields_tags (h : Inner apr calls) :
    fields place (tokensOf apr (.tagOpen tagname :: calls ++ [.tagClose tagname] ++ calls')) =
      fields (tagname :: place) (tokensOf apr calls) ++ fields place (tokensOf apr calls') := by
  have helement := @fields_element (.char '\n' :: tokensOf apr calls)
    (.char '\n' :: tokensOf apr calls') place tagname [] (.char '\n' h)
  have htokens : tokensOf apr (.tagOpen tagname :: calls ++ [.tagClose tagname] ++ calls') =
      .start tagname [] :: (.char '\n' :: tokensOf apr calls) ++
        .stop tagname :: .char '\n' :: tokensOf apr calls' := by
    simp [tokensOf, XmlCall.tokens]
  rw [htokens, helement]
  rfl

end Calls

section Summary

variable {apr : AprFormat} {place outer : Place} {T : Type} [Div T] {casts : DoubleCasts T}
  {report : Report T} {array : List (IoStatistics T)}

/-- The values about the files. -/
theorem valuesAt_reportWorkers {value : ReportWorker → List Char}
    (h : ∀ i worker, valuesAt place (leafFields ("worker".toList :: outer)
      [.tagNumber "id".toList (UInt64.ofNat i), .tagStr "filename".toList worker.filename,
        .tagSize "size".toList bytesFmt worker.filesize]) = [value worker])
    (i : ℕ) (workers : List ReportWorker) :
    valuesAt place (fields outer (tokensOf apr (reportWorkersCalls i workers))) =
      workers.map value := by
  induction workers generalizing i with
  | nil => rfl
  | cons worker workers ih =>
    have hleaves : ([.tagNumber "id".toList (UInt64.ofNat i),
        .tagStr "filename".toList worker.filename,
        .tagSize "size".toList bytesFmt worker.filesize] : List XmlCall).all XmlCall.isLeaf := rfl
    have hworker := @fields_tags apr outer "worker".toList _ (reportWorkersCalls (i + 1) workers)
      (inner_of_isLeaf hleaves)
    rw [fields_leaves hleaves] at hworker
    refine (congrArg (valuesAt place) hworker).trans ?_
    rw [valuesAt_append, h, ih, List.singleton_append, List.map_cons]

/-- The values about the tests. -/
theorem valuesAt_statistics {value : IoStatistics T → List Char}
    (h : ∀ statistics, valuesAt place (leafFields ("test".toList :: outer)
      (statisticsCalls casts statistics).tail.dropLast) = [value statistics]) :
    valuesAt place (fields outer (tokensOf apr (array.flatMap (statisticsCalls casts)))) =
      array.map value := by
  induction array with
  | nil => rfl
  | cons statistics array ih =>
    have hleaves : (statisticsCalls casts statistics).tail.dropLast.all XmlCall.isLeaf := rfl
    have htest := @fields_tags apr outer "test".toList _ (array.flatMap (statisticsCalls casts))
      (inner_of_isLeaf hleaves)
    rw [fields_leaves hleaves] at htest
    refine (congrArg (valuesAt place) htest).trans ?_
    rw [valuesAt_append, h, ih, List.singleton_append, List.map_cons]

/-- The place of the summary. -/
def summaryPlace : Place := ["summary".toList, "diskBench".toList]

/-- A place in an element is not in another one that stands beside it. -/
theorem not_suffix {name name' : List Char} (hname : name ≠ name') (inner outer : Place) :
    ¬name :: outer <:+ inner ++ name' :: outer := by
  intro h
  have hsuffix : name :: outer <:+ name' :: outer :=
    List.suffix_of_suffix_length_le h (List.suffix_append inner _) (Nat.le_refl _)
  exact hname (List.cons.inj (hsuffix.eq_of_length rfl)).1

/-- The values of the summary, in its parts. -/
theorem fields_summaryBody :
    fields summaryPlace (tokensOf apr (report.summaryBody apr casts array)) =
    leafFields summaryPlace (report.configurationCalls array (report.sequentialRequestsizes apr)
        (report.randomRequestsizes apr)) ++
      (fields ("workers".toList :: summaryPlace)
          (tokensOf apr (reportWorkersCalls 0 report.workers)) ++
        (fields ("test_summary".toList :: summaryPlace)
            (tokensOf apr (array.flatMap (statisticsCalls casts))) ++
          leafFields summaryPlace (report.totalCalls casts array))) := by
  have hconfiguration : (report.configurationCalls array (report.sequentialRequestsizes apr)
      (report.randomRequestsizes apr)).all XmlCall.isLeaf := rfl
  have htotal : (report.totalCalls casts array).all XmlCall.isLeaf := rfl
  have hstatistics : Inner apr (array.flatMap (statisticsCalls casts)) :=
    inner_flatMap fun _ _ => inner_statisticsCalls
  rw [Report.summaryBody, List.append_assoc, List.append_assoc, tokensOf_append,
    fields_append (inner_of_isLeaf hconfiguration), fields_leaves hconfiguration,
    fields_tags (inner_reportWorkersCalls 0 report.workers), fields_tags hstatistics,
    fields_leaves htotal]

end Summary

/-- The descriptions that `main` gives are handed out as they are. -/
theorem described_normalized {T : Type} {report : Report T} :
    ∀ call ∈ report.creatingCalls ++ report.testCalls,
      normalizeValue call.description = call.description ∧
        normalizeValue call.separateDescription = call.separateDescription := by
  simp only [Report.creatingCalls, Report.testCalls, TestCall.described, List.singleton_append,
    List.forall_mem_cons, List.not_mem_nil, IsEmpty.forall_iff, implies_true, and_true]
  decide

section Report

variable {apr : AprFormat} {T : Type} [Zero T] [Add T] [Div T] [NatCast T] [IntCast T] [Mul T]
  [LT T] [DecidableLT T] [LE T] [DecidableLE T] {casts : DoubleCasts T} {report : Report T}
  {array : List (IoStatistics T)} {xml : List Char}

/-- What stands in the summary of the document is found there only. -/
theorem valuesAt_lines (inner : Place) : valuesAt (inner ++ summaryPlace)
      (fields [] (.char '\n' :: tokensOf apr (report.lines apr casts array))) =
    valuesAt (inner ++ summaryPlace)
      (fields summaryPlace (tokensOf apr (report.summaryBody apr casts array))) := by
  have hcreating : Inner apr (addedForAll casts report.creatingCalls) := inner_addedForAll _
  have htests : Inner apr (addedForAll casts report.testCalls) := inner_addedForAll _
  have hbody : Inner apr (report.body apr casts array) := inner_body
  have hroot := @fields_tags apr [] "diskBench".toList (report.body apr casts array) [] hbody
  rw [List.append_nil, ← lines_eq] at hroot
  have hparts : fields ["diskBench".toList] (tokensOf apr (report.body apr casts array)) =
      fields ["prepare_and_validate".toList, "diskBench".toList]
          (tokensOf apr (addedForAll casts report.creatingCalls)) ++
        (fields ["tests".toList, "diskBench".toList]
            (tokensOf apr (addedForAll casts report.testCalls)) ++
          fields summaryPlace (tokensOf apr (report.summaryBody apr casts array))) := by
    have hsummary := @fields_tags apr ["diskBench".toList] "summary".toList
      (report.summaryBody apr casts array) [] inner_summaryBody
    rw [List.append_nil] at hsummary
    rw [Report.body, List.append_assoc, fields_tags hcreating, fields_tags htests, hsummary]
    exact congrArg _ (congrArg _ (List.append_nil _))
  have hcreating' := @valuesAt_eq_nil _ (inner ++ summaryPlace) _ hcreating
    (@not_suffix "prepare_and_validate".toList "summary".toList (by decide) inner
      ["diskBench".toList])
  have htests' := @valuesAt_eq_nil _ (inner ++ summaryPlace) _ htests
    (@not_suffix "tests".toList "summary".toList (by decide) inner ["diskBench".toList])
  calc valuesAt (inner ++ summaryPlace)
        (fields [] (.char '\n' :: tokensOf apr (report.lines apr casts array)))
      = valuesAt (inner ++ summaryPlace)
          (fields ["diskBench".toList] (tokensOf apr (report.body apr casts array))) :=
        congrArg _ (hroot.trans (List.append_nil _))
    _ = valuesAt (inner ++ summaryPlace)
          (fields summaryPlace (tokensOf apr (report.summaryBody apr casts array))) := by
        rw [hparts, valuesAt_append, valuesAt_append, hcreating', htests', List.nil_append,
          List.nil_append]

/-- The place of a value about a test. -/
def testPlace (tagname : String) : Place :=
  [tagname.toList, "test".toList, "test_summary".toList] ++ summaryPlace

/-- The place of a value about a file. -/
def workerPlace (tagname : String) : Place :=
  [tagname.toList, "worker".toList, "workers".toList] ++ summaryPlace

/-- The numbers at a place. -/
def numbersAt (place : Place) (found : List (Place × List Char)) : List ℕ :=
  (valuesAt place found).map whole

/-- What a reader of the document finds is what the report is about. -/
structure Report.ShownBy (casts : DoubleCasts T) (report : Report T)
    (array : List (IoStatistics T)) (found : List (Place × List Char)) : Prop where
  machineId : valuesAt ("configuration_description".toList :: summaryPlace) found =
    [normalizeValue report.machineId]
  filenames : valuesAt (workerPlace "filename") found =
    report.workers.map fun worker => normalizeValue worker.filename
  filesizes : numbersAt (workerPlace "size") found =
    report.workers.map fun worker => worker.filesize.toNat
  descriptions : valuesAt (testPlace "description") found = array.map IoStatistics.description
  testBytesWritten : numbersAt (testPlace "bytes_written") found =
    array.map fun statistics => statistics.bytesWritten.toNat
  testBytesRead : numbersAt (testPlace "bytes_read") found =
    array.map fun statistics => statistics.bytesRead.toNat
  testWriteRequests : numbersAt (testPlace "write_request") found =
    array.map fun statistics => statistics.writeRequests.toNat
  testReadRequests : numbersAt (testPlace "read_requests") found =
    array.map fun statistics => statistics.readRequests.toNat
  testTime : numbersAt (testPlace "time_spent") found =
    array.map fun statistics => (UInt64.ofInt statistics.elapsed).toNat
  bytesWritten : numbersAt ("bytes_written".toList :: summaryPlace) found =
    [(summarize report.overallScore array).bytesWritten.toNat]
  bytesRead : numbersAt ("bytes_read".toList :: summaryPlace) found =
    [(summarize report.overallScore array).bytesRead.toNat]
  writeRequests : numbersAt ("write_requests".toList :: summaryPlace) found =
    [(summarize report.overallScore array).writeRequests.toNat]
  readRequests : numbersAt ("read_requests".toList :: summaryPlace) found =
    [(summarize report.overallScore array).readRequests.toNat]
  totalTime : numbersAt ("total_time".toList :: summaryPlace) found =
    [(UInt64.ofInt report.totalTime).toNat]
  overallScore : numbersAt ("overall_score".toList :: summaryPlace) found =
    [(casts.toUInt64 (summarize report.overallScore array).overallScore).toNat]

theorem valuesAt_leafFields_eq_nil {place outer : Place} (h : place.tail ≠ outer)
    (calls : List XmlCall) : valuesAt place (leafFields outer calls) = [] := by
  rw [valuesAt, List.map_eq_nil_iff, List.filter_eq_nil_iff]
  intro field hmem hplace
  obtain ⟨call, -, rfl⟩ := List.mem_map.mp hmem
  rw [decide_eq_true_eq] at hplace
  exact h (hplace ▸ rfl)

/-- The values of the document. -/
def Report.found (apr : AprFormat) (casts : DoubleCasts T) (report : Report T)
    (array : List (IoStatistics T)) : List (Place × List Char) :=
  fields [] (.char '\n' :: tokensOf apr (report.lines apr casts array))

/-- The values about the tests are those of the statistics. -/
theorem valuesAt_test {tagname : String} {value : IoStatistics T → List Char}
    (h : ∀ statistics, valuesAt (testPlace tagname)
      (leafFields ("test".toList :: "test_summary".toList :: summaryPlace)
        (statisticsCalls casts statistics).tail.dropLast) = [value statistics]) :
    valuesAt (testPlace tagname) (report.found apr casts array) = array.map value := by
  have hworkers := @valuesAt_eq_nil _ (testPlace tagname) ("workers".toList :: summaryPlace)
    (@inner_reportWorkersCalls apr 0 report.workers)
    (not_suffix (by decide) [tagname.toList, "test".toList] summaryPlace)
  have hplace : (testPlace tagname).tail ≠ summaryPlace :=
    show ["test".toList, "test_summary".toList] ++ summaryPlace ≠ summaryPlace by decide
  rw [Report.found, testPlace, valuesAt_lines, fields_summaryBody]
  show valuesAt (testPlace tagname) _ = _
  rw [valuesAt_append, valuesAt_append, valuesAt_append, valuesAt_leafFields_eq_nil hplace,
    valuesAt_leafFields_eq_nil hplace, hworkers, valuesAt_statistics h, List.append_nil,
    List.nil_append, List.nil_append]

/-- The values about the files are those of the workers. -/
theorem valuesAt_worker {tagname : String} {value : ReportWorker → List Char}
    (h : ∀ i worker, valuesAt (workerPlace tagname)
      (leafFields ("worker".toList :: "workers".toList :: summaryPlace)
        [.tagNumber "id".toList (UInt64.ofNat i), .tagStr "filename".toList worker.filename,
          .tagSize "size".toList bytesFmt worker.filesize]) = [value worker]) :
    valuesAt (workerPlace tagname) (report.found apr casts array) = report.workers.map value := by
  have hstatistics : Inner apr (array.flatMap (statisticsCalls casts)) :=
    inner_flatMap fun _ _ => inner_statisticsCalls
  have htests := @valuesAt_eq_nil _ (workerPlace tagname) ("test_summary".toList :: summaryPlace)
    hstatistics (not_suffix (by decide) [tagname.toList, "worker".toList] summaryPlace)
  have hplace : (workerPlace tagname).tail ≠ summaryPlace :=
    show ["worker".toList, "workers".toList] ++ summaryPlace ≠ summaryPlace by decide
  rw [Report.found, workerPlace, valuesAt_lines, fields_summaryBody]
  show valuesAt (workerPlace tagname) _ = _
  rw [valuesAt_append, valuesAt_append, valuesAt_append, valuesAt_leafFields_eq_nil hplace,
    valuesAt_leafFields_eq_nil hplace, htests, valuesAt_reportWorkers h, List.append_nil,
    List.append_nil, List.nil_append]

/-- The values of the summary itself are those of the configuration and of the whole run. -/
theorem valuesAt_summary {tagname : String} (hworkers : "workers".toList ≠ tagname.toList)
    (htests : "test_summary".toList ≠ tagname.toList) :
    valuesAt (tagname.toList :: summaryPlace) (report.found apr casts array) =
      valuesAt (tagname.toList :: summaryPlace) (leafFields summaryPlace
          (report.configurationCalls array (report.sequentialRequestsizes apr)
            (report.randomRequestsizes apr) ++ report.totalCalls casts array)) := by
  have hstatistics : Inner apr (array.flatMap (statisticsCalls casts)) :=
    inner_flatMap fun _ _ => inner_statisticsCalls
  have hnil := @valuesAt_eq_nil _ (tagname.toList :: summaryPlace)
    ("test_summary".toList :: summaryPlace) hstatistics (not_suffix htests [] summaryPlace)
  have hnil' := @valuesAt_eq_nil _ (tagname.toList :: summaryPlace)
    ("workers".toList :: summaryPlace) (@inner_reportWorkersCalls apr 0 report.workers)
    (not_suffix hworkers [] summaryPlace)
  have hlines := @valuesAt_lines apr T _ _ _ _ _ _ _ _ _ _ casts report array [tagname.toList]
  rw [Report.found, ← List.singleton_append, hlines, fields_summaryBody]
  show valuesAt (tagname.toList :: summaryPlace) _ = _
  rw [valuesAt_append, valuesAt_append, valuesAt_append, hnil, hnil', List.nil_append,
    List.nil_append, ← valuesAt_append, leafFields, leafFields, ← List.map_append]
  rfl

theorem numbersAt_eq {α : Type} {place : Place} {found : List (Place × List Char)} {l : List α}
    {f : α → UInt64}
    (h : valuesAt place found = l.map fun x => normalizeValue (printUInt64 (f x))) :
    numbersAt place found = l.map fun x => (f x).toNat := by
  rw [numbersAt, h, List.map_map]
  apply List.map_congr_left
  intro x _
  rw [Function.comp_apply, normalizeValue_printUInt64, whole_printUInt64]

/-- The descriptions of the statistics are handed out as they are. -/
theorem description_normalized
    (harray : statisticsArray (report.creatingCalls ++ report.testCalls) = some array) :
    (array.map fun statistics => normalizeValue statistics.description) =
      array.map IoStatistics.description := by
  apply List.map_congr_left
  intro statistics hmem
  obtain ⟨call, hcall, hseparate | hgeneral⟩ := statisticsArray_described harray statistics hmem
  · rw [hseparate]
    exact (described_normalized call hcall).2
  · rw [hgeneral]
    exact (described_normalized call hcall).1

/-- What is found in the document is what the report is about. -/
theorem shownBy_found
    (harray : statisticsArray (report.creatingCalls ++ report.testCalls) = some array) :
    report.ShownBy casts array (report.found apr casts array) where
  machineId := (valuesAt_summary (by decide) (by decide)).trans rfl
  filenames := valuesAt_worker fun _ _ => rfl
  filesizes := numbersAt_eq (valuesAt_worker fun _ _ => rfl)
  descriptions := (valuesAt_test fun _ => rfl).trans (description_normalized harray)
  testBytesWritten := numbersAt_eq (valuesAt_test fun _ => rfl)
  testBytesRead := numbersAt_eq (valuesAt_test fun _ => rfl)
  testWriteRequests := numbersAt_eq (valuesAt_test fun _ => rfl)
  testReadRequests := numbersAt_eq (valuesAt_test fun _ => rfl)
  testTime := numbersAt_eq (valuesAt_test fun _ => rfl)
  bytesWritten := numbersAt_eq (l := [summarize report.overallScore array])
    ((valuesAt_summary (by decide) (by decide)).trans rfl)
  bytesRead := numbersAt_eq (l := [summarize report.overallScore array])
    ((valuesAt_summary (by decide) (by decide)).trans rfl)
  writeRequests := numbersAt_eq (l := [summarize report.overallScore array])
    ((valuesAt_summary (by decide) (by decide)).trans rfl)
  readRequests := numbersAt_eq (l := [summarize report.overallScore array])
    ((valuesAt_summary (by decide) (by decide)).trans rfl)
  totalTime := numbersAt_eq (l := [report]) (f := fun report => UInt64.ofInt report.totalTime)
    ((valuesAt_summary (by decide) (by decide)).trans rfl)
  overallScore := numbersAt_eq (l := [summarize report.overallScore array])
    (f := fun summary => casts.toUInt64 summary.overallScore)
    ((valuesAt_summary (by decide) (by decide)).trans rfl)

/-- **Reading the report back.** In the document that `main` writes, a reader finds the description
of the configuration and the names of the files as they were but for their tabs and line ends, the
lengths of the files and the descriptions of the tests, and the bytes, requests and times of each
test and of the whole run without any rounding, each of them once and the lists in their order,
whatever else the document holds about the tests. -/
theorem report_read_back
    (harray : statisticsArray (report.creatingCalls ++ report.testCalls) = some array)
    (hid : SafeString report.machineId)
    (hworkers : ∀ worker ∈ report.workers, SafeString worker.filename)
    (hxml : report.xmlOutput apr casts = some xml) :
    ∃ tokens, Xml.read xml = some tokens ∧ report.ShownBy casts array (fields [] tokens) := by
  have hread := @read_printed_iff apr (report.body apr casts array) "diskBench".toList inner_body
    rfl (body_names harray)
  rw [← lines_eq, body_safe_iff harray] at hread
  obtain ⟨-, rfl⟩ := (xmlOutput_eq_some_iff harray).mp hxml
  exact ⟨_, hread.mpr ⟨hid, hworkers⟩, shownBy_found harray⟩

end Report

/-- The report of a run with one file. -/
theorem report_read_back_oneFile : ∃ xml tokens,
    (oneFile "SSD".toList).xmlOutput roundedFormat truncated = some xml ∧
      Xml.read xml = some tokens ∧
      (oneFile "SSD".toList).ShownBy truncated oneFileArray (fields [] tokens) := by
  have hxml := (@xmlOutput_eq_some_iff ℚ _ _ _ _ _ _ _ _ _ _ roundedFormat truncated
    (oneFile "SSD".toList) oneFileArray _ (statisticsArray_oneFile "SSD".toList)).mpr
    ⟨oneFile_sizes (by decide +kernel), rfl⟩
  obtain ⟨tokens, hread, hshown⟩ := report_read_back (statisticsArray_oneFile "SSD".toList)
    (by decide) (List.forall_mem_singleton.mpr (by decide)) hxml
  exact ⟨_, tokens, hxml, hread, hshown⟩

end DiskBench
