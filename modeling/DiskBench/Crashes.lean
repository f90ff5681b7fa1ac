import DiskBench.Accumulation
import DiskBench.AutoTermination
import DiskBench.Buffers

/-!
# Depths and sizes of 0

The check of the workers divides by the queue depth, and `reset` of the random workload by the
request size. A depth of 0 ends the process in the first row in which all depths before it have
room. With rising throughputs no row ends before its time, so each such row is reached.
-/

namespace DiskBench

open ForLoop MovingWindow

/-- A row of tests has no trap behind depths with room. -/
def PreparedWorkload.Clean (config : Config) (workers : List IoWorker)
    (workload : PreparedWorkload) (reqsizeidx : ℕ) : Prop :=
  ∀ depthidx < workload.depths.length,
    (∀ i < depthidx, workload.room config workers reqsizeidx i = true) →
      ¬workload.Traps reqsizeidx depthidx

/-- Throughputs that rise with the depth and with the request size. -/
def climbing : Measured ℚ :=
  ⟨fun reqsizeidx depthidx => reqsizeidx + depthidx, fun reqsizeidx => (reqsizeidx, reqsizeidx)⟩

/-- Values that rise do not flatten. -/
theorem flattens_of_strictMono {x : ℕ → ℚ} (h : StrictMono x) (i : ℕ) : flattens x i = false := by
  unfold flattens
  by_cases hi : 3 ≤ i
  · have hone := h (show i - 1 < i by omega)
    have htwo := h (show i - 2 < i by omega)
    simp only [hi, decide_true, Bool.true_and, decide_eq_false_iff_not, not_le]
    linarith
  · simp [hi]

theorem climbing_strictMono (reqsizeidx : ℕ) : StrictMono (climbing.throughput reqsizeidx) := by
  intro i j hij
  have hlt : (i : ℚ) < j := Nat.cast_lt.mpr hij
  simpa [climbing] using hlt

section Runs

variable {config : Config} {options : TestOptions} {workers : List IoWorker}
  {workload : PreparedWorkload}

/-- Clean rows do not trap, whatever is measured. -/
theorem runTests_no_trap {T : Type} [Zero T] [Add T] [Div T] [NatCast T] [LT T] [LE T]
    [DecidableLT T] [DecidableLE T] {measured : Measured T} {maxReqsize : Option UInt64} {fuel : ℕ}
    (hworkers : workers ≠ [])
    (hclean : ∀ i < workload.reqsizes.length, workload.Clean config workers i) :
    (runTests config options (prepareWorkloads workers workload) measured maxReqsize fuel).Ends
      (fun _ => True) (fun _ => False) fun _ => True := by
  refine (runTests_ends (I := fun _ _ => True)
    (J := fun reqsizeidx depthidx run =>
      (reqsizeidx < workload.reqsizes.length → run.terminateDepth = false → ∀ i < depthidx,
        workload.room config workers reqsizeidx i = true) ∧
      (run.terminateReqsize = true → workload.reqsizes.length ≤ reqsizeidx))
    hworkers (Or.inr ⟨fun _ _ _ => trivial, fun _ _ _ _ => trivial⟩) trivial ?_
    (fun _ _ _ h => h.2) ?_ fun _ _ _ _ _ _ => trivial).mono (fun _ _ => trivial) (fun _ => id)
    fun _ => id
  · intro reqsizeidx run _ hclear
    refine ⟨fun _ _ => by omega, fun hset => ?_⟩
    rw [TestRun.startRow, hclear] at hset
    cases hset
  · rintro reqsizeidx depthidx run outcome ⟨hroom, hlast⟩ hclear hnext
    cases hnext with
    | exhausted hend =>
      refine ⟨fun hlt hgoing => ?_, fun hset => ?_⟩
      · have hle : workload.depths.length ≤ depthidx := by omega
        simp [hle] at hgoing
      · simp only [Bool.or_eq_true, decide_eq_true_eq] at hset
        exact hset.elim hlast id
    | traps hlt hdepthidx htraps => exact hclean _ hlt _ hdepthidx (hroom hlt hclear) htraps
    | unfit => exact ⟨fun _ hset => absurd hset (by simp), hlast⟩
    | test _ _ _ _ _ hfits =>
      refine ⟨fun hlt _ i hi => ?_, hlast⟩
      rcases Nat.lt_succ_iff_lt_or_eq.mp hi with hbefore | rfl
      · exact hroom hlt hclear i hbefore
      · exact hfits

/-- The variables and the log while the throughputs climb. -/
structure Climb (config : Config) (workers : List IoWorker) (workload : PreparedWorkload)
    (reqsizeidx depthidx : ℕ) (run : TestRun ℚ) : Prop where
  clear : run.terminateReqsize = false
  rows : Window minTests run.reqsizeMinThroughput (fun i => (i : ℚ)) reqsizeidx
  least : run.minDepthThroughput = reqsizeidx
  clean : ∀ i < reqsizeidx, workload.Clean config workers i
  row : run.terminateDepth = false ∧
      (∀ i < depthidx, workload.room config workers reqsizeidx i = true ∧
        ¬workload.Traps reqsizeidx i) ∧
      Window minTests run.depthThroughput (climbing.throughput reqsizeidx) depthidx ∧
      depthidx ≤ workload.depths.length ∧
      run.pairs = workload.rows config workers reqsizeidx ++
        (List.range depthidx).map (fun i => (reqsizeidx, i)) ∨
    run.terminateDepth = true ∧ workload.Clean config workers reqsizeidx ∧
      run.pairs = workload.rows config workers (reqsizeidx + 1)

/-- A row that has gone through the depths before one that ends it. -/
theorem row_ended {reqsizeidx depthidx : ℕ} (hle : depthidx ≤ workload.depths.length)
    (hrow : ∀ i < depthidx, workload.room config workers reqsizeidx i = true ∧
      ¬workload.Traps reqsizeidx i)
    (hend : depthidx = workload.depths.length ∨
      workload.room config workers reqsizeidx depthidx = false ∧
        ¬workload.Traps reqsizeidx depthidx) :
    workload.Clean config workers reqsizeidx ∧
      workload.row config workers reqsizeidx =
        (List.range depthidx).map fun i => (reqsizeidx, i) := by
  constructor
  · intro i hi hroom
    rcases Nat.lt_trichotomy i depthidx with hlt | rfl | hgt
    · exact (hrow i hlt).2
    · exact (hend.resolve_left (by omega)).2
    · have hnone := (hend.resolve_left (by omega)).1
      rw [hroom depthidx hgt] at hnone
      cases hnone
  · rw [PreparedWorkload.row, takeWhile_range_eq hle (fun i hi => (hrow i hi).1)
      (hend.imp id And.left)]

/-- One pass of the loop over the queue depths. -/
theorem Climb.step {reqsizeidx depthidx : ℕ} {run : TestRun ℚ} {outcome : Outcome (TestRun ℚ)}
    (hlt : reqsizeidx < workload.reqsizes.length)
    (h : Climb config workers workload reqsizeidx depthidx run)
    (hclear : run.terminateDepth = false)
    (hnext : DepthNext config options workers workload climbing reqsizeidx depthidx run outcome) :
    outcome.Ends (Climb config workers workload reqsizeidx (depthidx + 1))
      (fun _ => ∃ i < workload.reqsizes.length, ¬workload.Clean config workers i)
      fun _ => False := by
  obtain ⟨_, hrow, hwindow, hle, hpairs⟩ | ⟨hset, _⟩ := h.row
  · cases hnext with
    | exhausted hend =>
      have hlength : depthidx = workload.depths.length := by omega
      obtain ⟨hclean, hlist⟩ := row_ended hle hrow (Or.inl hlength)
      refine ⟨by simp [h.clear, hlt], h.rows, h.least, h.clean,
        Or.inr ⟨by simp [hlength], hclean, ?_⟩⟩
      rw [PreparedWorkload.rows_succ, hlist]
      exact hpairs
    | traps _ hdepthidx htraps =>
      exact ⟨reqsizeidx, hlt, fun hclean =>
        hclean depthidx hdepthidx (fun i hi => (hrow i hi).1) htraps⟩
    | unfit _ _ hdepthidx htraps hroom =>
      obtain ⟨hclean, hlist⟩ := row_ended hle hrow (Or.inr ⟨hroom, htraps⟩)
      refine ⟨h.clear, h.rows, h.least, h.clean, Or.inr ⟨rfl, hclean, ?_⟩⟩
      rw [PreparedWorkload.rows_succ, hlist]
      exact hpairs
    | test test maxReqsize _ hdepthidx htraps hroom htest _ =>
      have hnextWindow := hwindow.next
      refine ⟨h.clear, h.rows, ?_, h.clean, Or.inl ⟨?_, fun i hi => ?_, hnextWindow, hdepthidx, ?_⟩⟩
      · have hmin : (reqsizeidx : ℚ) ≤ climbing.throughput reqsizeidx depthidx := by simp [climbing]
        simp only [TestRun.record, h.least, not_lt.mpr hmin, or_false]
        split
        next hzero => simp [climbing, hzero]
        next => rfl
      · have hflat := flattens_eq hnextWindow
        rw [flattens_of_strictMono (climbing_strictMono reqsizeidx)] at hflat
        simp only [TestRun.record, hclear, hflat, Bool.false_and, Bool.or_false]
      · rcases Nat.lt_succ_iff_lt_or_eq.mp hi with hbefore | rfl
        · exact hrow i hbefore
        · exact ⟨hroom, htraps⟩
      · rw [TestRun.pairs_of_tests rfl hpairs, List.range_succ, List.map_append, htest.1, htest.2,
          List.append_assoc]
        rfl
  · rw [hset] at hclear
    cases hclear

/-- Where the loops are while the throughputs climb: in a row, or after the last of them. -/
def ClimbOr (config : Config) (workers : List IoWorker) (workload : PreparedWorkload)
    (reqsizeidx : ℕ) (here : Prop) (run : TestRun ℚ) : Prop :=
  reqsizeidx < workload.reqsizes.length ∧ here ∨
    workload.reqsizes.length ≤ reqsizeidx ∧
      (∀ i < workload.reqsizes.length, workload.Clean config workers i) ∧
      run.pairs = workload.rows config workers workload.reqsizes.length

/-- **Climbing throughputs** lead through all rows up to a trap. A run that ends has found all of
them clean, and it has executed all their tests. -/
theorem runTests_climbing {maxReqsize : Option UInt64} {fuel : ℕ} (hworkers : workers ≠ [])
    (hfuel : workload.depths.length + workload.reqsizes.length + 1 < fuel) :
    (runTests config options (prepareWorkloads workers workload) climbing maxReqsize fuel).Ends
      (fun run => (∀ i < workload.reqsizes.length, workload.Clean config workers i) ∧
        run.pairs = workload.rows config workers workload.reqsizes.length)
      (fun _ => ∃ i < workload.reqsizes.length, ¬workload.Clean config workers i)
      fun _ => False := by
  refine (runTests_ends
    (I := fun reqsizeidx run => ClimbOr config workers workload reqsizeidx
      (run.terminateReqsize = false ∧
        Window minTests run.reqsizeMinThroughput (fun i => (i : ℚ)) reqsizeidx ∧
        (∀ i < reqsizeidx, workload.Clean config workers i) ∧
        run.pairs = workload.rows config workers reqsizeidx) run)
    (J := fun reqsizeidx depthidx run => ClimbOr config workers workload reqsizeidx
      (Climb config workers workload reqsizeidx depthidx run) run)
    hworkers (Or.inl hfuel) ?_ ?_ ?_ ?_ ?_).mono ?_ (fun _ => id) fun _ => id
  · rcases Nat.eq_zero_or_pos workload.reqsizes.length with hzero | hpos
    · refine Or.inr ⟨by omega, by omega, ?_⟩
      rw [hzero]
      rfl
    · exact Or.inl ⟨hpos, rfl, .start _ _ _, by omega, rfl⟩
  · rintro reqsizeidx run (⟨hlt, hclear, hwindow, hclean, hpairs⟩ | ⟨hle, hclean, hpairs⟩) _
    · refine Or.inl ⟨hlt, hclear, hwindow, rfl, hclean, Or.inl ⟨rfl, by omega, .start _ _ _,
        Nat.zero_le _, ?_⟩⟩
      rw [List.range_zero, List.map_nil, List.append_nil]
      exact hpairs
    · exact Or.inr ⟨hle, hclean, hpairs⟩
  · rintro reqsizeidx depthidx run (⟨_, hclimb⟩ | ⟨hle, _⟩) hset
    · rw [hclimb.clear] at hset
      cases hset
    · exact hle
  · rintro reqsizeidx depthidx run outcome (⟨hlt, hclimb⟩ | ⟨hle, hclean, hpairs⟩) hclear hnext
    · exact (hclimb.step hlt hclear hnext).mono (fun _ h => Or.inl ⟨hlt, h⟩) (fun _ => id)
        fun _ => id
    · cases hnext with
      | exhausted => exact Or.inr ⟨hle, hclean, hpairs⟩
      | traps hlt => omega
      | unfit _ hlt => omega
      | test _ _ hlt => omega
  · rintro reqsizeidx depthidx run (⟨hlt, hclimb⟩ | ⟨hle, hclean, hpairs⟩) hset _
    · obtain ⟨hclear, _⟩ | ⟨_, hrow, hpairs⟩ := hclimb.row
      · rw [hset] at hclear
        cases hclear
      · have hclean : ∀ i < reqsizeidx + 1, workload.Clean config workers i := fun i hi => by
          rcases Nat.lt_succ_iff_lt_or_eq.mp hi with hbefore | rfl
          · exact hclimb.clean i hbefore
          · exact hrow
        rcases Nat.lt_or_ge (reqsizeidx + 1) workload.reqsizes.length with hnext | hlast
        · have hrows := hclimb.rows.next
          rw [← hclimb.least] at hrows
          have hstrict : StrictMono fun i : ℕ => (i : ℚ) := Nat.strictMono_cast
          have hflat := flattens_eq hclimb.rows.next
          rw [flattens_of_strictMono hstrict, ← hclimb.least] at hflat
          refine Or.inl ⟨hnext, ?_, hrows, hclean, hpairs⟩
          simp only [TestRun.endRow, hclimb.clear, Bool.false_or]
          rw [← Bool.and_assoc, hflat, Bool.false_and, Bool.false_and]
        · refine Or.inr ⟨hlast, fun i hi => hclean i (by omega), ?_⟩
          rw [show workload.reqsizes.length = reqsizeidx + 1 by omega]
          exact hpairs
    · exact Or.inr ⟨by omega, hclean, hpairs⟩
  · rintro run ⟨hset, reqsizeidx, ⟨_, hclear, _⟩ | ⟨_, hclean, hpairs⟩⟩
    · rw [hclear] at hset
      cases hset
    · exact ⟨hclean, hpairs⟩

end Runs

/-- What may be left of a thread: requests that its generator produces, at least one of them, and
fewer than 2^64 bytes in all. -/
structure ThreadRun.Of (thread : TestThread) (run : ThreadRun) : Prop where
  generator : ∃ seeds, Transition.exec (workloads.fillStep thread.worker.filesize)
    thread.generator seeds = some run.generator
  requests : ∀ c ∈ run.reads ++ run.writes, ∃ t, thread.Produces t ∧ c.size = t.size
  nonempty : run.reads ++ run.writes ≠ []
  bytes : ((run.reads ++ run.writes).map fun c => c.size.toNat).sum < 2 ^ 64

/-- A thread without a crash: its queue is created with the assertion holding, and
`dump_statistics` divides by no average size of 0. -/
structure TestThread.Sound (config : Config) (thread : TestThread) : Prop where
  assertion : config.pageSize ≤ thread.worker.bufsize / thread.queueDepth.toInt64.toUInt64
  create : ∀ memory, ∃ queue,
    genericQueueCreate config thread.worker thread.queueDepth memory = .ok queue
  divides : ∀ run : ThreadRun, run.Of thread → run.finished.sizeRatio.isSome

section Threads

variable {config : Config} {reqsizeidx depthidx : ℕ} {thread : TestThread} {w : TestWorker}
  {workload : PreparedWorkload} {depth : UInt32} {reqsize : UInt64}

/-- Requests of at least one byte have an average size of at least one byte. -/
theorem ThreadRun.Of.divides {run : ThreadRun} (h : run.Of thread)
    (hpos : ∀ t, thread.Produces t → 1 ≤ t.size.toNat) : run.finished.workload.Divides := by
  have hbytes := h.bytes
  rw [List.map_append, List.sum_append] at hbytes
  have hsizes : ∀ l : List Completion, (∀ c ∈ l, c ∈ run.reads ++ run.writes) →
      l.length ≤ (l.map fun c => c.size.toNat).sum := by
    intro l hl
    have hle := List.card_nsmul_le_sum (l.map fun c => c.size.toNat) 1 fun x hx => by
      obtain ⟨c, hc, rfl⟩ := List.mem_map.mp hx
      obtain ⟨t, ht, hsize⟩ := h.requests c (hl c hc)
      rw [hsize]
      exact hpos t ht
    simpa using hle
  have hreads := hsizes run.reads fun c hc => List.mem_append_left _ hc
  have hwrites := hsizes run.writes fun c hc => List.mem_append_right _ hc
  have hlength : run.reads.length + run.writes.length ≠ 0 := by
    rw [← List.length_append]
    exact fun hzero => h.nonempty (List.length_eq_zero_iff.mp hzero)
  have hrequests : run.finished.workload.requests.toNat =
      run.reads.length + run.writes.length := by
    have hword : run.finished.workload.requests =
        UInt64.ofNat (run.reads.length + run.writes.length) := by
      rw [UInt64.ofNat_add, ← after_requests, ← after_requests]
      rfl
    rw [hword, UInt64.toNat_ofNat_of_lt' (show _ < 2 ^ 64 by omega)]
  have hword : ∀ l : List Completion, (l.map fun c => c.size.toNat).sum < 2 ^ 64 →
      (IoCounters.after l).bytes.toNat = (l.map fun c => c.size.toNat).sum := by
    intro l hl
    have hsum := toNat_sum_of_lt (l := l.map Completion.size)
    rw [List.map_map] at hsum
    rw [after_bytes]
    exact hsum hl
  have htotal : run.finished.workload.bytes.toNat =
      (run.reads.map fun c => c.size.toNat).sum + (run.writes.map fun c => c.size.toNat).sum := by
    have hadd : run.finished.workload.bytes =
        (IoCounters.after run.reads).bytes + (IoCounters.after run.writes).bytes := rfl
    rw [hadd, UInt64.toNat_add, hword _ (by omega), hword _ (by omega), Nat.mod_eq_of_lt hbytes]
  constructor
  · intro hzero
    rw [hzero, UInt64.toNat_zero] at hrequests
    exact hlength hrequests.symm
  · rw [UInt64.le_iff_toNat_le, hrequests, htotal]
    omega

/-- A thread whose requests may not be empty is sound. -/
theorem TestThread.Admitted.sound (hpage : 512 ∣ config.pageSize.toNat)
    (h : thread.Admitted config reqsizeidx depthidx w workload depth reqsize)
    (hpos : 1 ≤ (workloads.maxIoSize thread.generator).toNat) : thread.Sound config := by
  refine ⟨(admits_share hpage hpos h.admits_eq).2.2.1, fun memory => ?_, fun run hrun => ?_⟩
  · obtain ⟨queue, hcreate, _⟩ := genericQueueCreate_of_admits hpage hpos h.admits_eq memory
    exact ⟨queue, hcreate⟩
  · refine sizeRatio_isSome_iff.mpr (hrun.divides ?_)
    rintro t ⟨seeds, data, seed, data', seed', hexec, hfill⟩
    obtain ⟨hsized, hmax⟩ := Factory.exec_sized (h.worker_eq ▸ h.reset_eq) hexec
    exact hsized.fill_pos (by rwa [hmax]) hfill

/-- A thread with empty requests is not: it may leave a workload with an average size of 0. -/
theorem TestThread.Admitted.not_sound
    (h : thread.Admitted config reqsizeidx depthidx w workload depth reqsize)
    (hzero : workloads.maxIoSize thread.generator = 0) : ¬thread.Sound config := by
  intro hsound
  have hreset := h.reset_eq
  rw [Factory.maxIoSize_of_reset hreset] at hzero
  cases hfactory : workload.templateGenerator with
  | sequential write =>
    rw [hfactory] at hreset hzero
    obtain rfl : reqsize = 0 := hzero
    have hdata : GeneratorData.sequential (sequentialReset (sequentialFactory write) 0) =
        thread.generator := Option.some.inj hreset
    have hproduces : ∃ t, thread.Produces t ∧ t.size = 0 := by
      let next := sequentialFillRequest (sequentialReset (sequentialFactory write) 0)
        thread.worker.filesize
      refine ⟨next.2, ⟨[], thread.generator, 0, .sequential next.1, 0, rfl, ?_⟩,
        (sequentialFillRequest_fixed _ _).2.2.1⟩
      rw [← hdata, workloads_sequential]
    obtain ⟨t, ht, hsize⟩ := hproduces
    have hof : ThreadRun.Of thread ⟨[⟨0, 0⟩], [], 0, 0, 0, 0, 0, thread.generator⟩ :=
      ⟨⟨[], rfl⟩, by simpa using ⟨t, ht, hsize.symm⟩, by simp, by simp⟩
    have hle : (1 : UInt64) ≤ 0 := (sizeRatio_isSome_iff.mp (hsound.divides _ hof)).requests_le
    exact absurd hle (by decide)
  | random write =>
    rw [hfactory] at hreset hzero
    obtain rfl : reqsize = 0 := hzero
    cases hreset
  | mixed randomProb sequentialProb =>
    rw [hfactory] at hzero
    have htable : mixedMaxIosize ≠ 0 := by decide
    exact htable hzero

end Threads

/-- No thread of the tests that have been started crashes. -/
def TestRun.Sound {T : Type} (config : Config) (run : TestRun T) : Prop :=
  ∀ test ∈ run.tests, ∀ thread ∈ test.threads, thread.Sound config

/-- `run_tests` does not crash: whatever is measured, its check of the workers divides by nothing
that is 0, and the threads of its tests are sound. -/
def PreparedWorkload.NoCrash (config : Config) (options : TestOptions) (workers : List IoWorker)
    (workload : PreparedWorkload) : Prop :=
  ∀ (measured : Measured ℚ) (maxReqsize : Option UInt64) (fuel : ℕ),
    (runTests config options (prepareWorkloads workers workload) measured maxReqsize fuel).Ends
      (TestRun.Sound config) (fun _ => False) (TestRun.Sound config)

section NoCrash

variable {config : Config} {options : TestOptions} {workers : List IoWorker}
  {workload : PreparedWorkload}

/-- All workers have the workload. -/
theorem workload_of_mem_prepareWorkloads {w : TestWorker}
    (h : w ∈ prepareWorkloads workers workload) : w.workload = some workload := by
  obtain ⟨worker, _, rfl⟩ := List.mem_map.mp h
  rfl

/-- The largest request of a thread is that of its row. -/
theorem TestThread.Admitted.maxIoSize_eq {reqsizeidx depthidx : ℕ} {thread : TestThread}
    {w : TestWorker} {depth : UInt32} {reqsize : UInt64}
    (h : thread.Admitted config reqsizeidx depthidx w workload depth reqsize) :
    workloads.maxIoSize thread.generator = workload.largest reqsizeidx := by
  rw [Factory.maxIoSize_of_reset h.reset_eq, PreparedWorkload.largest, PreparedWorkload.reqsize,
    List.getD_eq_getElem?_getD, h.reqsize_eq]
  rfl

/-- In a row without empty requests all threads are sound. -/
theorem TestRun.Started.sound {T : Type} {run : TestRun T} (hpage : 512 ∣ config.pageSize.toNat)
    (hlargest : ∀ i < workload.reqsizes.length, workload.largest i ≠ 0)
    (h : run.Started config (prepareWorkloads workers workload)) : run.Sound config := by
  intro test htest thread hthread
  obtain ⟨w, hw, workload', depth, reqsize, hadmitted⟩ := (h test htest).1 thread hthread
  obtain rfl : workload = workload' := Option.some.inj
    ((workload_of_mem_prepareWorkloads hw).symm.trans hadmitted.workload_eq)
  have hne := hlargest test.reqsizeidx (List.getElem?_eq_some_iff.mp hadmitted.reqsize_eq).1
  rw [← hadmitted.maxIoSize_eq] at hne
  refine hadmitted.sound hpage (Nat.one_le_iff_ne_zero.mpr fun hzero => hne ?_)
  exact UInt64.toNat_inj.mp hzero

/-- A test of a row with empty requests has a thread that is not sound. -/
theorem TestRun.Started.not_sound {T : Type} {run : TestRun T} {reqsizeidx depthidx : ℕ}
    (hworkers : workers ≠ []) (hlargest : workload.largest reqsizeidx = 0)
    (h : run.Started config (prepareWorkloads workers workload))
    (hpair : (reqsizeidx, depthidx) ∈ run.pairs) : ¬run.Sound config := by
  intro hsound
  obtain ⟨test, htest, htestidx⟩ := List.mem_map.mp hpair
  obtain ⟨rfl, rfl⟩ := Prod.mk.injEq .. ▸ htestidx
  obtain ⟨worker, hworker⟩ := List.exists_mem_of_ne_nil _ hworkers
  obtain ⟨thread, hthread, workload', depth, reqsize, hadmitted⟩ := (h test htest).2
    (prepareWorkload worker (some workload.templateGenerator) workload.reqsizes workload.depths)
    (List.mem_map.mpr ⟨worker, hworker, rfl⟩) (Option.some_ne_none _)
  obtain rfl : workload = workload' := Option.some.inj hadmitted.workload_eq
  exact hadmitted.not_sound (hadmitted.maxIoSize_eq.trans hlargest)
    (hsound test htest thread hthread)

/-- Empty requests have room in every buffer. -/
theorem room_of_largest_eq_zero {reqsizeidx : ℕ} (h : workload.largest reqsizeidx = 0)
    (depthidx : ℕ) : workload.room config workers reqsizeidx depthidx = true := by
  rw [PreparedWorkload.room, List.all_eq_true]
  intro worker _
  rw [h, admits_iff]
  exact Nat.zero_le _

/-- **No crash.** `run_tests` does not crash exactly when no row of tests has empty requests or a
trap behind depths with room. -/
theorem noCrash_iff (hpage : 512 ∣ config.pageSize.toNat) (hworkers : workers ≠ [])
    (hdepths : workload.depths ≠ []) :
    workload.NoCrash config options workers ↔ ∀ reqsizeidx < workload.reqsizes.length,
      workload.largest reqsizeidx ≠ 0 ∧ workload.Clean config workers reqsizeidx := by
  constructor
  · intro h reqsizeidx hlt
    have hsound := h climbing none (workload.depths.length + workload.reqsizes.length + 2)
    have hclimb := @runTests_climbing config options workers workload none _ hworkers
      (Nat.lt_succ_self (workload.depths.length + workload.reqsizes.length + 1))
    have hstarted := @runTests_started ℚ _ _ _ _ _ _ _ _ config options
      (prepareWorkloads workers workload) climbing none
      (workload.depths.length + workload.reqsizes.length + 2)
    revert hsound hclimb hstarted
    cases runTests config options (prepareWorkloads workers workload) climbing none
      (workload.depths.length + workload.reqsizes.length + 2) with
    | trap run => exact fun hsound _ _ => hsound.elim
    | outOfFuel run => exact fun _ hclimb _ => hclimb.elim
    | done run =>
      rintro hsound ⟨hclean, hpairs⟩ hstarted
      refine ⟨fun hzero => ?_, hclean reqsizeidx hlt⟩
      have hroom := @room_of_largest_eq_zero config workers workload reqsizeidx hzero
      have hmem : (reqsizeidx, 0) ∈ run.pairs := by
        rw [hpairs, PreparedWorkload.rows, List.mem_flatMap]
        refine ⟨reqsizeidx, List.mem_range.mpr hlt, ?_⟩
        rw [PreparedWorkload.row, takeWhile_range_eq (Nat.le_refl _) (fun i _ => hroom i)
          (Or.inl rfl)]
        exact List.mem_map.mpr
          ⟨0, List.mem_range.mpr (List.length_pos_iff.mpr hdepths), rfl⟩
      exact hstarted.not_sound hworkers hzero hmem hsound
  · intro h measured maxReqsize fuel
    have hends := @runTests_no_trap config options workers workload ℚ _ _ _ _ _ _ _ _ measured
      maxReqsize fuel hworkers fun i hi => (h i hi).2
    have hstarted := @runTests_started ℚ _ _ _ _ _ _ _ _ config options
      (prepareWorkloads workers workload) measured maxReqsize fuel
    revert hends hstarted
    cases runTests config options (prepareWorkloads workers workload) measured maxReqsize fuel with
    | done run => exact fun _ hstarted => hstarted.sound hpage fun i hi => (h i hi).1
    | trap run => exact fun hends _ => hends.elim
    | outOfFuel run => exact fun _ hstarted => hstarted.sound hpage fun i hi => (h i hi).1

end NoCrash

end DiskBench
