import DiskBench.ReadBack
import DiskBench.ThreadReports
import DiskBench.Threads

/-!
# From the requests to the document

The bytes and requests that stand in the summary of the document have gone through the callbacks of
the threads, the workloads, the lines and statistics of `dump_statistics` and the summary of `main`.
They are the ones that the threads have handed over to the platform, in whatever order the threads
have run.
-/

namespace DiskBench

open Quantities Sharing Transition Xml

section Sums

variable {α : Type} {write : Bool}

/-- A sum over a part of a list. -/
theorem sum_map_filter {M : Type} [AddMonoid M] (p : α → Bool) (f : α → M) (l : List α) :
    ((l.filter p).map f).sum = (l.map fun x => if p x then f x else 0).sum := by
  induction l with
  | nil => rfl
  | cons x l ih =>
    rw [List.map_cons, List.sum_cons, ← ih, List.filter_cons]
    split
    · rw [List.map_cons, List.sum_cons]
    · rw [zero_add]

/-- A sum over lists one after another. -/
theorem sum_map_flatMap {β : Type} {M : Type} [AddMonoid M] (f : β → M) (parts : α → List β)
    (l : List α) :
    ((l.flatMap parts).map f).sum = (l.map fun x => ((parts x).map f).sum).sum := by
  induction l with
  | nil => rfl
  | cons x l ih =>
    rw [List.flatMap_cons, List.map_append, List.sum_append, ih, List.map_cons, List.sum_cons]

/-- A sum of words is the sum of their values, as far as 64 bits hold it. -/
theorem toNat_sum_map (f : α → UInt64) (l : List α) :
    (l.map f).sum.toNat = (l.map fun x => (f x).toNat).sum % 2 ^ 64 := by
  induction l with
  | nil => rfl
  | cons x l ih => simp only [List.map_cons, List.sum_cons, UInt64.toNat_add, ih, Nat.add_mod_mod]

/-- The counters count their requests one by one. -/
theorem after_requests_sum (completions : List Completion) :
    (IoCounters.after completions).requests = (completions.map fun _ => 1).sum := by
  rw [after_requests, ← UInt64.toNat_inj, toNat_sum_map, UInt64.toNat_ofNat']
  simp

/-- A sum over the completed requests of a log is one over its entries. -/
theorem sum_completionsOf (f : UInt64 → UInt64) (log : List (Posting × AprTime)) :
    ((completionsOf write log).map fun completion => f completion.size).sum =
      ((log.map Prod.fst).map fun posting =>
        if posting.write == write then f posting.size else 0).sum := by
  rw [completionsOf, List.map_map, List.map_map]
  exact sum_map_filter _ _ _

/-- The bytes of the requests in one direction. -/
def bytesOf (write : Bool) (requests : List IoRequest) : ℕ :=
  ((requests.filter fun r => r.write == write).map fun r => r.size.toNat).sum

/-- The number of the requests in one direction. -/
def countOf (write : Bool) (requests : List IoRequest) : ℕ :=
  requests.countP fun r => r.write == write

theorem toNat_sum_bytes (requests : List IoRequest) :
    (requests.map fun r : IoRequest => if r.write == write then r.size else 0).sum.toNat =
      bytesOf write requests % 2 ^ 64 := by
  rw [← sum_map_filter, toNat_sum_map, bytesOf]

theorem toNat_sum_requests (requests : List IoRequest) :
    (requests.map fun r : IoRequest => if r.write == write then (1 : UInt64) else 0).sum.toNat =
      countOf write requests % 2 ^ 64 := by
  rw [← sum_map_filter, toNat_sum_map, countOf, List.countP_eq_length_filter]
  simp

theorem countOf_add_countOf (requests : List IoRequest) :
    countOf false requests + countOf true requests = requests.length := by
  rw [countOf, countOf, List.length_eq_countP_add_countP fun r => r.write == false]
  congr 1
  exact List.countP_congr fun r _ => by cases r.write <;> simp

end Sums

section Threads

variable {γ ι φ : Type} [DecidableEq ι] [DecidableEq φ] {config : Config} {G : Generator γ}
  {file : ι → φ} {threads threads' : ι → IoState γ} {as : List (ι × Action γ)} {i : ι}

theorem CallbacksAgree.withDisk {s : IoState γ} {disk : Memory} (h : CallbacksAgree s) :
    CallbacksAgree (s.withDisk disk) := h

theorem SlotInv.withDisk {s : IoState γ} {disk : Memory} (h : SlotInv s) :
    SlotInv (s.withDisk disk) := { h with }

/-- The counters of a thread are those of the requests that its callbacks have counted, whatever the
other threads do. -/
theorem counters_of_threads (write : Bool) (hagree : CallbacksAgree (threads i))
    (hrun : exec (threadsStep config G file) threads as = some threads')
    (hduring : Along (threadsStep config G file) (Acting (DuringWorkload config)) threads as) :
    (threads' i).workload.counters write =
      (observe (threadsStep config G file) (seeThread (IoState.counts config) i) threads as).foldl
        (IoCounters.post write) ((threads i).workload.counters write) := by
  refine foldl_observe_thread (I := CallbacksAgree) (f := fun s => s.workload.counters write)
    ?_ ?_ ?_ ?_ hagree hrun hduring
  · exact fun s disk hs => hs.withDisk
  · exact fun s disk => rfl
  · exact fun s a t hs _ hstep => hs.of_step hstep
  · exact fun s a t hs hP hstep => counters_of_step hs hP.2 hstep

/-- A thread that has ended has counted each request that it has handed over once. -/
theorem postings_of_threads (hslots : SlotInv (threads i)) (hnone : (threads i).postings = [])
    (hrun : exec (threadsStep config G file) threads as = some threads')
    (hduring : Along (threadsStep config G file) (Acting (DuringWorkload config)) threads as)
    (hdone : (threads' i).pc = .done) :
    ((observe (threadsStep config G file) (seeThread (IoState.handsOver config G) i) threads
        as).map IoRequest.posting).Perm
      ((observe (threadsStep config G file) (seeThread (IoState.counts config) i) threads as).map
        Prod.fst) := by
  have hend : SlotInv (threads' i) := by
    refine exec_invariant (I := fun threads : ι → IoState γ => SlotInv (threads i))
      (fun threads act threads' hs hP hstep => ?_) hrun hduring hslots
    exact thread_invariant (fun _ _ h => h.withDisk) (fun _ _ _ h hP hstep => h.of_step hP.1 hstep)
      hs hP hstep
  have hbalance : ((threads i).postings ++ observe (threadsStep config G file)
        (seeThread (fun s a => (s.handsOver config G a).map IoRequest.posting) i) threads as).Perm
      (observe (threadsStep config G file)
        (seeThread (fun s a => (s.counts config a).map Prod.fst) i) threads as ++
          (threads' i).postings) := by
    refine observe_balance_thread (I := SlotInv) ?_ ?_ ?_ ?_ hslots hrun hduring
    · exact fun s disk hs => hs.withDisk
    · exact fun s disk => rfl
    · exact fun s a t hs hP hstep => hs.of_step hP.1 hstep
    · exact fun s a t hs hP hstep => postings_of_step hs hP hstep
  have hleft : (threads' i).postings = [] := by
    rw [IoState.postings, hend.inflight_nil (Or.inr hdone), List.map_nil]
  rw [hnone, hleft, List.nil_append, List.append_nil] at hbalance
  rw [threadsStep, observe_thread_map, observe_thread_map] at hbalance
  exact hbalance

end Threads

/-- What the threads of a test do from their start on, in any order of their steps. -/
structure TestHistory where
  config : Config
  /-- The file that a worker has open. -/
  file : ℕ → List Char
  before : ℕ → IoState GeneratorData
  launch : ℕ → Launch GeneratorData
  queue : ℕ → AsyncQueue
  actions : List (ℕ × Action GeneratorData)
  after : ℕ → IoState GeneratorData
  depth_pos : ∀ i, 1 ≤ (launch i).queueDepth
  created : ∀ i, genericQueueCreate config (before i).worker (launch i).queueDepth
    (launch i).memory = .ok (queue i)
  run : exec (threadsStep config workloads file)
    (fun i => (before i).start (launch i) (queue i)) actions = some after
  cooperative : Along (threadsStep config workloads file) (Acting (DuringWorkload config))
    (fun i => (before i).start (launch i) (queue i)) actions

/-- The threads at their start. -/
def TestHistory.start (history : TestHistory) (i : ℕ) : IoState GeneratorData :=
  (history.before i).start (history.launch i) (history.queue i)

/-- The requests that the thread of a worker hands over to the platform. -/
def TestHistory.requests (history : TestHistory) (i : ℕ) : List IoRequest :=
  observe (threadsStep history.config workloads history.file)
    (seeThread (IoState.handsOver history.config workloads) i) history.start history.actions

/-- The workload that the thread of a worker leaves. -/
def TestHistory.left (history : TestHistory) (i : ℕ) : FinishedWorkload :=
  ⟨(history.after i).workload, (history.after i).generator⟩

/-- A counter of the workloads is a sum over the requests, for each thread that has ended. -/
def Tallies (g : IoWorkload → UInt64) (f : IoRequest → UInt64) : Prop :=
  ∀ (history : TestHistory) (i : ℕ), (history.after i).pc = .done →
    g (history.left i).workload = ((history.requests i).map f).sum

/-- What the callbacks add up is a sum over the requests that have been handed over. -/
theorem tallies_of_after {c : IoCounters → UInt64} {f : UInt64 → UInt64}
    (hsum : ∀ completions, c (IoCounters.after completions) =
      (completions.map fun completion => f completion.size).sum) (write : Bool) :
    Tallies (fun workload => c (workload.counters write))
      fun r => if r.write == write then f r.size else 0 := by
  intro history i hdone
  have hcounters := counters_of_threads (i := i) write (fun j hj => absurd hj List.not_mem_nil)
    history.run history.cooperative
  have hzero : ((history.before i).start (history.launch i) (history.queue i)).workload.counters
      write = .zero := by
    cases write <;> rfl
  have hperm := postings_of_threads (i := i)
    (SlotInv.start (history.depth_pos i) (history.created i)) rfl history.run history.cooperative
    hdone
  have hsums := (hperm.map fun posting : Posting =>
    if posting.write == write then f posting.size else 0).sum_eq
  rw [hzero, ← after_completionsOf] at hcounters
  show c ((history.after i).workload.counters write) = _
  rw [hcounters, hsum, sum_completionsOf, ← hsums, List.map_map]
  rfl

theorem tallies_bytes (write : Bool) : Tallies (fun workload => (workload.counters write).bytes)
    fun r => if r.write == write then r.size else 0 :=
  tallies_of_after (f := id) after_bytes write

theorem tallies_requests (write : Bool) :
    Tallies (fun workload => (workload.counters write).requests)
      fun r => if r.write == write then 1 else 0 :=
  tallies_of_after (f := fun _ => 1) after_requests_sum write

/-- The workers that have a workload. -/
def TestCall.threads {T : Type} (call : TestCall T) : List ℕ :=
  call.workers.zipIdx.filterMap fun worker => worker.1.workload.map fun _ => worker.2

/-- The workloads of a test are those of its threads. -/
theorem TestCall.workloadsOf_result {T : Type} (call : TestCall T) (test : Test) :
    workloadsOf (call.result test).workers = call.threads.map (call.finished test) := by
  rw [workloadsOf, TestCall.result, List.mapIdx_eq_zipIdx_map, List.reduceOption,
    List.filterMap_map, TestCall.threads, List.map_filterMap]
  refine List.filterMap_congr fun worker _ => ?_
  simp [Option.map_map, Function.comp_def]

section Calls

variable {T : Type} [Zero T] [Add T] [Div T] [NatCast T] [LT T] [LE T] [DecidableLT T]
  [DecidableLE T] {call : TestCall T} {calls : List (TestCall T)}
  {history : Test → TestHistory} {histories : List (Test → TestHistory)}
  {accumulators : Accumulators T} {array : List (IoStatistics T)} {test : Test}

/-- All requests that the threads of the tests of a call hand over to the platform. -/
def TestCall.handedOver (call : TestCall T) (history : Test → TestHistory) : List IoRequest :=
  call.tests.flatMap fun test => call.threads.flatMap (history test).requests

/-- The threads of the tests of a call have ended, and what they have left is what
`dump_statistics` finds. -/
structure TestCall.PerformedBy (call : TestCall T) (history : Test → TestHistory) : Prop where
  done : ∀ test ∈ call.tests, ∀ i ∈ call.threads, ((history test).after i).pc = .done
  finished : ∀ test ∈ call.tests, ∀ i ∈ call.threads,
    call.finished test i = (history test).left i
  /-- A test makes fewer than 2^64 requests. -/
  few : ∀ test ∈ call.tests, (call.threads.flatMap (history test).requests).length < 2 ^ 64

/-- A sum over the workloads of a test is one over its requests. -/
theorem TestCall.PerformedBy.sum_result (h : call.PerformedBy history) {g : IoWorkload → UInt64}
    {f : IoRequest → UInt64} (htallies : Tallies g f) (htest : test ∈ call.tests) :
    (call.result test).sum g = ((call.threads.flatMap (history test).requests).map f).sum := by
  have hthreads : call.threads.map (fun i => g (call.finished test i).workload) =
      call.threads.map fun i => (((history test).requests i).map f).sum := by
    refine List.map_congr_left fun i hi => ?_
    rw [h.finished test htest i hi]
    exact htallies _ i (h.done test htest i hi)
  rw [TestResult.sum, call.workloadsOf_result test, List.map_map, sum_map_flatMap, ← hthreads]
  rfl

/-- A thread cannot complete more requests than it has handed over. -/
theorem TestCall.PerformedBy.count_lt (h : call.PerformedBy history) (htest : test ∈ call.tests) :
    ((workloadsOf (call.result test).workers).map fun finished =>
      finished.workload.read.requests.toNat + finished.workload.write.requests.toNat).sum <
        2 ^ 64 := by
  have hrequests : ∀ i ∈ call.threads,
      (call.finished test i).workload.read.requests.toNat +
        (call.finished test i).workload.write.requests.toNat ≤
          ((history test).requests i).length := by
    intro i hi
    have hdone := h.done test htest i hi
    have hread := congrArg UInt64.toNat (tallies_requests false (history test) i hdone)
    have hwrite := congrArg UInt64.toNat (tallies_requests true (history test) i hdone)
    rw [toNat_sum_requests] at hread hwrite
    rw [h.finished test htest i hi, ← countOf_add_countOf]
    exact Nat.add_le_add (hread.trans_le (Nat.mod_le _ _)) (hwrite.trans_le (Nat.mod_le _ _))
  rw [call.workloadsOf_result test, List.map_map]
  refine lt_of_le_of_lt ?_ (h.few test htest)
  rw [List.length_flatMap]
  exact List.sum_le_sum hrequests

/-- A sum over the workloads of all tests of all calls is one over all requests. -/
theorem totalOf_eq (h : List.Forall₂ TestCall.PerformedBy calls histories)
    {g : IoWorkload → UInt64} {f : IoRequest → UInt64} (htallies : Tallies g f) :
    totalOf g calls = ((List.zipWith TestCall.handedOver calls histories).flatten.map f).sum := by
  induction h with
  | nil => rfl
  | @cons call history calls histories hcall hcalls ih =>
    have htests : call.tests.map (fun test => (call.result test).sum g) =
        call.tests.map fun test =>
          ((call.threads.flatMap (history test).requests).map f).sum :=
      List.map_congr_left fun test htest => hcall.sum_result htallies htest
    rw [List.zipWith_cons_cons, List.flatten_cons, List.map_append, List.sum_append, ← ih,
      TestCall.handedOver, sum_map_flatMap, ← htests]
    rfl

variable [IntCast T] [Mul T]

omit [LE T] [DecidableLE T] in
/-- `dump_statistics` after a test of a call returns exactly when its divisions are possible. -/
theorem TestCall.dump_isSome_iff : (call.dump accumulators test).isSome ↔
    ∀ finished ∈ workloadsOf (call.result test).workers, finished.workload.Divides := by
  unfold TestCall.dump
  dsimp only
  split <;> rw [Option.isSome_map, dumpStatistics_isSome_iff]

omit [LE T] [DecidableLE T] in
/-- A division by 0 after any of the tests would have ended the process. -/
theorem TestCall.divides_of_foldlM {tests : List Test} {accumulators' : Accumulators T}
    (h : tests.foldlM call.dump accumulators = some accumulators') :
    ∀ test ∈ tests, ∀ finished ∈ workloadsOf (call.result test).workers,
      finished.workload.Divides := by
  induction tests generalizing accumulators with
  | nil => exact fun test htest => absurd htest List.not_mem_nil
  | cons test tests ih =>
    rw [List.foldlM_cons] at h
    obtain ⟨next, hdump, hrest⟩ := Option.bind_eq_some_iff.mp h
    have hfirst := TestCall.dump_isSome_iff.mp (Option.isSome_of_mem hdump)
    exact List.forall_mem_cons.mpr ⟨hfirst, ih hrest⟩

/-- The divisions of a call that has its statistics have been possible. -/
theorem TestCall.divides_of_accumulators (h : call.accumulators = some accumulators) :
    call.Divides := by
  unfold TestCall.accumulators at h
  unfold TestCall.Divides TestCall.tests
  cases hrun : call.run with
  | done run =>
    rw [hrun] at h
    exact TestCall.divides_of_foldlM h
  | trap run =>
    rw [hrun] at h
    cases h
  | outOfFuel run =>
    rw [hrun] at h
    cases h

/-- The threads of the calls that have led to statistics have completed their requests. -/
theorem allCompleted_of_performed (h : List.Forall₂ TestCall.PerformedBy calls histories)
    (harray : statisticsArray calls = some array) : AllCompleted calls := by
  obtain ⟨accumulators, hall, -⟩ := statisticsArray_eq harray
  intro call hcall test htest
  obtain ⟨i, hi, rfl⟩ := List.mem_iff_getElem.mp hcall
  have hperformed := List.Forall₂.get h hi (h.length_eq ▸ hi)
  have haccumulators := List.Forall₂.get hall hi (hall.length_eq ▸ hi)
  refine ⟨fun finished hfinished => ?_, hperformed.count_lt htest⟩
  have hne := (TestCall.divides_of_accumulators haccumulators test htest finished
    hfinished).requests_ne
  by_contra hnone
  rw [not_or, not_not, not_not] at hnone
  exact hne (by rw [IoWorkload.requests, hnone.1, hnone.2, UInt64.add_zero])

end Calls

/-- What a reader of the document finds in its summary about requests, as far as words of 64 bits
hold it. -/
structure AccountsFor (requests : List IoRequest) (found : List (Place × List Char)) : Prop where
  bytesRead : numbersAt ("bytes_read".toList :: summaryPlace) found =
    [bytesOf false requests % 2 ^ 64]
  bytesWritten : numbersAt ("bytes_written".toList :: summaryPlace) found =
    [bytesOf true requests % 2 ^ 64]
  readRequests : numbersAt ("read_requests".toList :: summaryPlace) found =
    [countOf false requests % 2 ^ 64]
  writeRequests : numbersAt ("write_requests".toList :: summaryPlace) found =
    [countOf true requests % 2 ^ 64]

section Document

variable {apr : AprFormat} {T : Type} [Zero T] [Add T] [Div T] [NatCast T] [IntCast T] [Mul T]
  [LT T] [DecidableLT T] [LE T] [DecidableLE T] {casts : DoubleCasts T} {report : Report T}
  {array : List (IoStatistics T)} {xml : List Char} {histories : List (Test → TestHistory)}

/-- The counters of the summary are those of the requests of all threads of all tests. -/
theorem accountsFor_found
    (hperformed : List.Forall₂ TestCall.PerformedBy (report.creatingCalls ++ report.testCalls)
      histories)
    (harray : statisticsArray (report.creatingCalls ++ report.testCalls) = some array) :
    AccountsFor (List.zipWith TestCall.handedOver (report.creatingCalls ++ report.testCalls)
      histories).flatten (report.found apr casts array) := by
  have hshown := @shownBy_found apr T _ _ _ _ _ _ _ _ _ _ casts report array harray
  have hcompleted := allCompleted_of_performed hperformed harray
  obtain ⟨hread, hwritten, hreads, hwrites⟩ := addsUp_words (T := T)
  constructor
  · rw [hshown.bytesRead, summarize_sum Summary.bytesRead (fun _ _ => rfl) rfl,
      (statisticsArray_reports hcompleted harray hread).1, ← toNat_sum_bytes,
      ← totalOf_eq hperformed (tallies_bytes false)]
    rfl
  · rw [hshown.bytesWritten, summarize_sum Summary.bytesWritten (fun _ _ => rfl) rfl,
      (statisticsArray_reports hcompleted harray hwritten).1, ← toNat_sum_bytes,
      ← totalOf_eq hperformed (tallies_bytes true)]
    rfl
  · rw [hshown.readRequests, summarize_sum Summary.readRequests (fun _ _ => rfl) rfl,
      (statisticsArray_reports hcompleted harray hreads).1, ← toNat_sum_requests,
      ← totalOf_eq hperformed (tallies_requests false)]
    rfl
  · rw [hshown.writeRequests, summarize_sum Summary.writeRequests (fun _ _ => rfl) rfl,
      (statisticsArray_reports hcompleted harray hwrites).1, ← toNat_sum_requests,
      ← totalOf_eq hperformed (tallies_requests true)]
    rfl

/-- **From the requests to the document.** When the threads of all tests have run on a cooperative
platform, in any interleaving, on any files and with any order of completions, and have ended, and
the description of the configuration and the names of the files have no markup, the bytes and
requests that a reader finds in the summary of the document are those of all requests that the
threads have handed over to the platform, each of them counted once and in its direction. -/
theorem document_accounts
    (hperformed : List.Forall₂ TestCall.PerformedBy (report.creatingCalls ++ report.testCalls)
      histories)
    (harray : statisticsArray (report.creatingCalls ++ report.testCalls) = some array)
    (hid : SafeString report.machineId)
    (hworkers : ∀ worker ∈ report.workers, SafeString worker.filename)
    (hxml : report.xmlOutput apr casts = some xml) :
    ∃ tokens, Xml.read xml = some tokens ∧
      AccountsFor (List.zipWith TestCall.handedOver (report.creatingCalls ++ report.testCalls)
        histories).flatten (fields [] tokens) := by
  have hread := @read_printed_iff apr (report.body apr casts array) "diskBench".toList inner_body
    rfl (body_names harray)
  rw [← lines_eq, body_safe_iff harray] at hread
  obtain ⟨-, rfl⟩ := (xmlOutput_eq_some_iff harray).mp hxml
  exact ⟨_, hread.mpr ⟨hid, hworkers⟩, accountsFor_found hperformed harray⟩

end Document

/-- Two threads with two writes each on the same file take their steps in turn. -/
def pairHistory : TestHistory where
  config := ⟨false, .linux, 4096, true⟩
  file := fun _ => "disk.dat".toList
  before := fun _ => pairInitial
  launch := fun _ => pairLaunch
  queue := fun _ => pairQueue
  actions := (pairRun 0 1).flatMap fun a => [(0, a), (1, a)]
  after := (exec (threadsStep ⟨false, .linux, 4096, true⟩ workloads fun _ => "disk.dat".toList)
    (fun _ => pairStart) ((pairRun 0 1).flatMap fun a => [(0, a), (1, a)])).getD fun _ => pairStart
  depth_pos := fun _ => by decide
  created := fun _ => rfl
  run := rfl
  cooperative := by decide

/-- A call with one test, which these threads perform. -/
def pairCall : TestCall ℚ :=
  { twoSizes with
    config := ⟨false, .linux, 4096, true⟩
    workers := List.replicate 2
      (prepareWorkload pairInitial.worker (some (.sequential true)) [512] [2])
    finished := fun _ i => pairHistory.left i }

/-- A run whose tests are all like this. -/
def pairReport : Report ℚ :=
  { oneFile "SSD".toList with
    creating := pairCall
    sequentialWrite := pairCall
    sequentialRead := pairCall
    randomWrite := pairCall
    randomRead := pairCall
    mixed := pairCall }

theorem pairCall_performed (description : List Char)
    (separate : Option (UInt64 × List Char)) :
    (pairCall.described description separate).PerformedBy fun _ => pairHistory := by
  have hthreads : (pairCall.described description separate).threads = [0, 1] := rfl
  constructor
  · intro test _ i hi
    rw [hthreads, List.mem_pair] at hi
    obtain rfl | rfl := hi <;> rfl
  · exact fun _ _ _ _ => rfl
  · intro test _
    rw [hthreads]
    decide

/-- The document says that 24 writes with 12 KiB have been made. -/
theorem document_accounts_pair : ∃ xml tokens,
    pairReport.xmlOutput roundedFormat truncated = some xml ∧ Xml.read xml = some tokens ∧
      numbersAt ("bytes_written".toList :: summaryPlace) (fields [] tokens) = [12288] ∧
      numbersAt ("write_requests".toList :: summaryPlace) (fields [] tokens) = [24] := by
  have hdone : (statisticsArray (pairReport.creatingCalls ++ pairReport.testCalls)).isSome := by
    decide +kernel
  obtain ⟨array, harray⟩ := Option.isSome_iff_exists.mp hdone
  have hsizes : (pairReport.sizes roundedFormat truncated ((statisticsArray
      (pairReport.creatingCalls ++ pairReport.testCalls)).getD [])).all
        fun size => toDouble size ≤ 1024 ^ 6 := by
    decide +kernel
  rw [harray, Option.getD_some] at hsizes
  have hunits : ∀ size ∈ pairReport.sizes roundedFormat truncated array,
      (toDouble size : ℚ) ≤ 1024 ^ 6 := by
    intro size hsize
    have hle : toDouble size ≤ 1024 ^ 6 := by simpa using List.all_eq_true.mp hsizes size hsize
    exact_mod_cast hle
  have hxml := (xmlOutput_eq_some_iff harray).mpr ⟨hunits, rfl⟩
  have hperformed : List.Forall₂ TestCall.PerformedBy
      (pairReport.creatingCalls ++ pairReport.testCalls)
      (List.replicate 6 fun _ => pairHistory) := by
    iterate 6 refine .cons (pairCall_performed _ _) ?_
    exact .nil
  obtain ⟨tokens, hread, haccounts⟩ := document_accounts hperformed harray (by decide)
    (List.forall_mem_singleton.mpr (by decide)) hxml
  exact ⟨_, tokens, hxml, hread, haccounts.bytesWritten.trans (by decide +kernel),
    haccounts.writeRequests.trans (by decide +kernel)⟩

end DiskBench
