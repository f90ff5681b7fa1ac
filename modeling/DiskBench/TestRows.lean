import DiskBench.RunTests

/-!
# Tests of workers with the same workload

`main` gives all workers the same generator, request sizes and queue depths before it calls
`run_tests`. The check of the workers then has the same result for each of them, but for the
room in their buffers, and `DepthNext` lists what a pass of the loop over the queue depths can do.
-/

namespace DiskBench

open ForLoop

/-- `prepare_workload` for each of the workers. -/
def prepareWorkloads (workers : List IoWorker) (workload : PreparedWorkload) : List TestWorker :=
  workers.map fun worker => prepareWorkload worker (some workload.templateGenerator)
    workload.reqsizes workload.depths

/-- The largest request of a generator that has been reset for a request size. -/
def Factory.largestRequest (factory : Factory) (reqsize : UInt64) : UInt64 :=
  match factory with
  | .sequential _ => reqsize
  | .random _ => reqsize
  | .mixed _ _ => mixedMaxIosize

/-- Whether the generator can be reset for a request size. -/
def Factory.resets (factory : Factory) (reqsize : UInt64) : Bool :=
  (factory.reset 0 reqsize).isSome

/-- The size of the largest request does not depend on the file. -/
theorem Factory.maxIoSize_of_reset {factory : Factory} {filesize reqsize : UInt64}
    {data : GeneratorData} (h : factory.reset filesize reqsize = some data) :
    workloads.maxIoSize data = factory.largestRequest reqsize := by
  cases factory with
  | sequential write =>
    simp only [Factory.reset, Option.some.injEq] at h
    subst h
    rfl
  | random write =>
    simp only [Factory.reset, randomReset, Option.map_eq_some_iff] at h
    obtain ⟨data, hdata, rfl⟩ := h
    split at hdata
    · cases hdata
    · simp only [Option.some.injEq] at hdata
      subst hdata
      rfl
  | mixed randomProb sequentialProb =>
    simp only [Factory.reset, Option.map_eq_some_iff] at h
    obtain ⟨data, _, rfl⟩ := h
    rfl

/-- Neither does it depend on the file whether the generator can be reset. -/
theorem Factory.resets_iff {factory : Factory} {filesize reqsize : UInt64} :
    factory.resets reqsize = true ↔ ∃ data, factory.reset filesize reqsize = some data := by
  rw [← Option.isSome_iff_exists, Factory.resets]
  cases factory with
  | sequential write => rfl
  | random write =>
    simp only [Factory.reset, Option.isSome_map, randomReset]
    split <;> rfl
  | mixed randomProb sequentialProb => rfl

/-- The request size of a row of tests. -/
def PreparedWorkload.reqsize (workload : PreparedWorkload) (reqsizeidx : ℕ) : UInt64 :=
  workload.reqsizes.getD reqsizeidx 0

/-- The queue depth of a column of tests, as an `int`. -/
def PreparedWorkload.depth (workload : PreparedWorkload) (depthidx : ℕ) : Int32 :=
  (workload.depths.getD depthidx 0).toInt32

/-- The size of the largest request in a row of tests. -/
def PreparedWorkload.largest (workload : PreparedWorkload) (reqsizeidx : ℕ) : UInt64 :=
  workload.templateGenerator.largestRequest (workload.reqsize reqsizeidx)

/-- The check of the workers traps. -/
def PreparedWorkload.Traps (workload : PreparedWorkload) (reqsizeidx depthidx : ℕ) : Prop :=
  workload.templateGenerator.resets (workload.reqsize reqsizeidx) = false ∨
    workload.depth depthidx = 0

instance (workload : PreparedWorkload) (reqsizeidx depthidx : ℕ) :
    Decidable (workload.Traps reqsizeidx depthidx) :=
  inferInstanceAs (Decidable (_ ∨ _))

/-- The buffers of all workers have room for the largest requests. -/
def PreparedWorkload.room (config : Config) (workers : List IoWorker)
    (workload : PreparedWorkload) (reqsizeidx depthidx : ℕ) : Bool :=
  workers.all fun worker =>
    admits config worker (workload.depth depthidx) (workload.largest reqsizeidx)

section Selection

variable {config : Config} {options : TestOptions} {workers : List IoWorker}
  {workload : PreparedWorkload} {reqsizeidx depthidx : ℕ} {sel : Selection}

/-- The check stops at the first worker with a workload when a flag is set or an array has come
to its end. -/
theorem selectWorkers_of_end {worker : IoWorker}
    (h : sel.terminateDepth = true ∨ sel.terminateReqsize = true ∨
      workload.depths.length ≤ depthidx ∨ workload.reqsizes.length ≤ reqsizeidx) :
    selectWorkers config options reqsizeidx depthidx (prepareWorkloads (worker :: workers) workload)
      sel = some { sel with
        hasWorkload := true
        terminateDepth := sel.terminateDepth || decide (workload.depths.length ≤ depthidx)
        terminateReqsize :=
          sel.terminateReqsize || decide (workload.reqsizes.length ≤ reqsizeidx) } := by
  have hflags : (sel.terminateDepth || decide (workload.depths.length ≤ depthidx) ||
      (sel.terminateReqsize || decide (workload.reqsizes.length ≤ reqsizeidx))) = true := by
    simp only [Bool.or_eq_true, decide_eq_true_eq]
    tauto
  simp only [prepareWorkloads, List.map_cons, prepareWorkload, Option.map_some, selectWorkers,
    hflags, if_true]

/-- Before that the worker gets its generator and its queue depth, or the check traps. -/
theorem selectWorkers_of_entry {worker : IoWorker} (hdepth : sel.terminateDepth = false)
    (hreqsize : sel.terminateReqsize = false) (hdepthidx : depthidx < workload.depths.length)
    (hreqsizeidx : reqsizeidx < workload.reqsizes.length) :
    selectWorkers config options reqsizeidx depthidx (prepareWorkloads (worker :: workers) workload)
      sel = match workload.templateGenerator.reset worker.filesize
          (workload.reqsize reqsizeidx) with
        | none => none
        | some data =>
          if workload.depth depthidx = 0 then none
          else selectWorkers config options reqsizeidx depthidx (prepareWorkloads workers workload)
            { sel with
              hasWorkload := true
              genSeparateStatistics := sel.genSeparateStatistics &&
                decide (options.separateStatisticsReqsize = some (workload.reqsize reqsizeidx))
              maxReqsize := sel.maxReqsize.map fun size =>
                if workload.reqsize reqsizeidx > size then workload.reqsize reqsizeidx else size
              terminateDepth := !admits config worker (workload.depth depthidx)
                (workloads.maxIoSize data)
              threads := sel.threads ++ [⟨worker, data, workload.depth depthidx⟩] } := by
  simp only [prepareWorkloads, List.map_cons, prepareWorkload, Option.map_some, selectWorkers,
    hdepth, hreqsize, Bool.false_or, Nat.not_le_of_lt hdepthidx, Nat.not_le_of_lt hreqsizeidx,
    decide_false]
  rfl

/-- The check of at least one worker traps when one of its two divisions does. -/
theorem selectWorkers_of_traps {worker : IoWorker} (hdepth : sel.terminateDepth = false)
    (hreqsize : sel.terminateReqsize = false) (hdepthidx : depthidx < workload.depths.length)
    (hreqsizeidx : reqsizeidx < workload.reqsizes.length)
    (htraps : workload.Traps reqsizeidx depthidx) :
    selectWorkers config options reqsizeidx depthidx (prepareWorkloads (worker :: workers) workload)
      sel = none := by
  rw [selectWorkers_of_entry hdepth hreqsize hdepthidx hreqsizeidx]
  split
  · rfl
  · rename_i data hdata
    obtain hreset | hzero := htraps
    · rw [Factory.resets_iff.mpr ⟨data, hdata⟩] at hreset
      cases hreset
    · rw [if_pos hzero]

/-- Otherwise the flag that it leaves says whether all buffers have room. -/
theorem selectWorkers_of_not_traps (hdepth : sel.terminateDepth = false)
    (hreqsize : sel.terminateReqsize = false) (hdepthidx : depthidx < workload.depths.length)
    (hreqsizeidx : reqsizeidx < workload.reqsizes.length)
    (htraps : ¬workload.Traps reqsizeidx depthidx)
    (hworkload : workers = [] → sel.hasWorkload = true) :
    ∃ sel', selectWorkers config options reqsizeidx depthidx (prepareWorkloads workers workload)
        sel = some sel' ∧ sel'.hasWorkload = true ∧ sel'.terminateReqsize = false ∧
      sel'.terminateDepth = !workload.room config workers reqsizeidx depthidx := by
  have hresets : workload.templateGenerator.resets (workload.reqsize reqsizeidx) = true :=
    eq_true_of_ne_false fun h => htraps (Or.inl h)
  have hne : workload.depth depthidx ≠ 0 := fun h => htraps (Or.inr h)
  induction workers generalizing sel with
  | nil => exact ⟨sel, rfl, hworkload rfl, hreqsize, hdepth⟩
  | cons worker workers ih =>
    obtain ⟨data, hdata⟩ := (@Factory.resets_iff _ worker.filesize _).mp hresets
    rw [selectWorkers_of_entry hdepth hreqsize hdepthidx hreqsizeidx]
    simp only [hdata, if_neg hne, Factory.maxIoSize_of_reset hdata, PreparedWorkload.room,
      List.all_cons, PreparedWorkload.largest]
    cases hadmits : admits config worker (workload.depth depthidx)
        (workload.templateGenerator.largestRequest (workload.reqsize reqsizeidx)) with
    | true =>
      simp only [Bool.not_true, Bool.true_and]
      exact ih rfl hreqsize fun _ => rfl
    | false =>
      -- The flag is set, so the check stops at the next worker, if there is one.
      simp only [Bool.not_false, Bool.false_and]
      cases workers with
      | nil => exact ⟨_, rfl, rfl, hreqsize, rfl⟩
      | cons worker' workers =>
        rw [selectWorkers_of_end (Or.inl rfl)]
        refine ⟨_, rfl, rfl, ?_, rfl⟩
        simp [hreqsize, Nat.not_le_of_lt hreqsizeidx]

end Selection

variable {T : Type} [Zero T] [Add T] [Div T] [NatCast T] [LT T] [LE T] [DecidableLT T]
  [DecidableLE T]

/-- What a pass of the loop over the queue depths can do. -/
inductive DepthNext (config : Config) (options : TestOptions) (workers : List IoWorker)
    (workload : PreparedWorkload) (measured : Measured T) (reqsizeidx depthidx : ℕ)
    (run : TestRun T) : Outcome (TestRun T) → Prop
  | exhausted (hend : workload.reqsizes.length ≤ reqsizeidx ∨ workload.depths.length ≤ depthidx) :
      DepthNext config options workers workload measured reqsizeidx depthidx run (.done { run with
        hasWorkload := true
        terminateDepth := decide (workload.depths.length ≤ depthidx)
        terminateReqsize :=
          run.terminateReqsize || decide (workload.reqsizes.length ≤ reqsizeidx) })
  | traps (hreqsizeidx : reqsizeidx < workload.reqsizes.length)
      (hdepthidx : depthidx < workload.depths.length)
      (htraps : workload.Traps reqsizeidx depthidx) :
      DepthNext config options workers workload measured reqsizeidx depthidx run (.trap run)
  | unfit (maxReqsize : Option UInt64) (hreqsizeidx : reqsizeidx < workload.reqsizes.length)
      (hdepthidx : depthidx < workload.depths.length)
      (htraps : ¬workload.Traps reqsizeidx depthidx)
      (hroom : workload.room config workers reqsizeidx depthidx = false) :
      DepthNext config options workers workload measured reqsizeidx depthidx run (.done { run with
        hasWorkload := true
        terminateDepth := true
        maxReqsize := maxReqsize })
  | test (test : Test) (maxReqsize : Option UInt64)
      (hreqsizeidx : reqsizeidx < workload.reqsizes.length)
      (hdepthidx : depthidx < workload.depths.length)
      (htraps : ¬workload.Traps reqsizeidx depthidx)
      (hroom : workload.room config workers reqsizeidx depthidx = true)
      (htest : test.reqsizeidx = reqsizeidx ∧ test.depthidx = depthidx)
      (hstarted : StartedFor config reqsizeidx depthidx (prepareWorkloads workers workload)
        test.threads) :
      DepthNext config options workers workload measured reqsizeidx depthidx run
        (.done (({ run with hasWorkload := true, maxReqsize := maxReqsize }).record options depthidx
          (measured.throughput reqsizeidx depthidx) test))

/-- A pass has one of these outcomes. The flag for the request sizes is set before a pass only in
the row after the last. -/
theorem depthPass_next (config : Config) (options : TestOptions) {workers : List IoWorker}
    (workload : PreparedWorkload) (measured : Measured T) {reqsizeidx : ℕ} (depthidx : ℕ)
    {run : TestRun T} (hworkers : workers ≠ []) (hdepth : run.terminateDepth = false)
    (hreqsize : run.terminateReqsize = true → workload.reqsizes.length ≤ reqsizeidx) :
    DepthNext config options workers workload measured reqsizeidx depthidx run
      (depthPass config options (prepareWorkloads workers workload) measured reqsizeidx depthidx
        run) := by
  obtain ⟨worker, workers, rfl⟩ := List.exists_cons_of_ne_nil hworkers
  by_cases hend : workload.reqsizes.length ≤ reqsizeidx ∨ workload.depths.length ≤ depthidx
  · have hpass : depthPass config options (prepareWorkloads (worker :: workers) workload) measured
        reqsizeidx depthidx run = .done { run with
          hasWorkload := true
          terminateDepth := decide (workload.depths.length ≤ depthidx)
          terminateReqsize :=
            run.terminateReqsize || decide (workload.reqsizes.length ≤ reqsizeidx) } := by
      have hflag : (decide (workload.depths.length ≤ depthidx) ||
          (run.terminateReqsize || decide (workload.reqsizes.length ≤ reqsizeidx))) = true := by
        simp only [Bool.or_eq_true, decide_eq_true_eq]
        tauto
      unfold depthPass
      rw [selectWorkers_of_end (by tauto)]
      simp [hdepth, hflag]
    rw [hpass]
    exact .exhausted hend
  · obtain ⟨hreqsizeidx, hdepthidx⟩ := not_or.mp hend
    rw [Nat.not_le] at hreqsizeidx hdepthidx
    have hreqsize' : run.terminateReqsize = false := by
      by_contra hset
      have := hreqsize (by simpa using hset)
      omega
    by_cases htraps : workload.Traps reqsizeidx depthidx
    · have hpass : depthPass config options (prepareWorkloads (worker :: workers) workload) measured
          reqsizeidx depthidx run = .trap run := by
        unfold depthPass
        rw [selectWorkers_of_traps hdepth hreqsize' hdepthidx hreqsizeidx htraps]
      rw [hpass]
      exact .traps hreqsizeidx hdepthidx htraps
    · obtain ⟨sel, hsel, hworkload, hsize, hroom⟩ :=
        @selectWorkers_of_not_traps config options (worker :: workers) workload reqsizeidx depthidx
          ⟨run.hasWorkload, run.terminateDepth, run.terminateReqsize, true, run.maxReqsize, []⟩
          hdepth hreqsize' hdepthidx hreqsizeidx htraps (by simp)
      unfold depthPass
      simp only [hsel, hworkload, hsize, Bool.not_true, Bool.or_false]
      cases hcase : workload.room config (worker :: workers) reqsizeidx depthidx with
      | true =>
        rw [hcase, Bool.not_true] at hroom
        obtain ⟨_, threads, hthreads, hstarted⟩ := selectWorkers_started hsel hroom hsize
        rw [List.nil_append] at hthreads
        rw [hroom, if_neg (by simp)]
        have htest : DepthNext config options (worker :: workers) workload measured reqsizeidx
            depthidx run _ :=
          .test ⟨reqsizeidx, depthidx, sel.genSeparateStatistics, sel.threads⟩ sel.maxReqsize
            hreqsizeidx hdepthidx htraps hcase ⟨rfl, rfl⟩ (by rw [hthreads]; exact hstarted)
        simpa only [hdepth, hreqsize'] using htest
      | false =>
        rw [hcase, Bool.not_false] at hroom
        rw [hroom, if_pos rfl]
        have hunfit : DepthNext config options (worker :: workers) workload measured reqsizeidx
            depthidx run _ :=
          .unfit sel.maxReqsize hreqsizeidx hdepthidx htraps hcase
        simpa only [hreqsize'] using hunfit

/-- What a pass leaves of the two flags: the loop over the queue depths goes on only inside the
array, and it does not end after the last request size without setting the other flag. -/
theorem DepthNext.flags {config : Config} {options : TestOptions} {workers : List IoWorker}
    {workload : PreparedWorkload} {measured : Measured T} {reqsizeidx depthidx : ℕ}
    {run run' : TestRun T}
    (h : DepthNext config options workers workload measured reqsizeidx depthidx run (.done run')) :
    (run'.terminateDepth = false → depthidx + 1 ≤ workload.depths.length) ∧
      (run'.terminateDepth = true → workload.reqsizes.length ≤ reqsizeidx →
        run'.terminateReqsize = true) := by
  cases h with
  | exhausted hend =>
    refine ⟨fun h => ?_, fun _ hle => by simp [hle]⟩
    have hlt : depthidx < workload.depths.length := by simpa using h
    exact hlt
  | unfit _ hlt => exact ⟨fun h => by simp at h, fun _ hle => by omega⟩
  | test _ _ hlt hdepthidx => exact ⟨fun _ => hdepthidx, fun _ hle => by omega⟩

section Rules

variable {config : Config} {options : TestOptions} {workers : List IoWorker}
  {workload : PreparedWorkload} {measured : Measured T} {U F : TestRun T → Prop}

/-- The loop over the queue depths, from what each outcome of a pass keeps. -/
theorem depthLoop_ends {reqsizeidx fuel : ℕ} {run : TestRun T} {J : ℕ → TestRun T → Prop}
    (hworkers : workers ≠ [])
    (hfuel : workload.depths.length + 1 < fuel ∨ ∀ depthidx run, J depthidx run → F run)
    (hreqsize : ∀ depthidx run, J depthidx run → run.terminateReqsize = true →
      workload.reqsizes.length ≤ reqsizeidx)
    (hpass : ∀ depthidx run outcome, J depthidx run → run.terminateDepth = false →
      DepthNext config options workers workload measured reqsizeidx depthidx run outcome →
        outcome.Ends (J (depthidx + 1)) U F)
    (hclear : run.terminateDepth = false) (hstart : J 0 run) :
    (forLoop TestRun.terminateDepth
      (depthPass config options (prepareWorkloads workers workload) measured reqsizeidx) fuel 0
      run).Ends (fun run' => run'.terminateDepth = true ∧
        (workload.reqsizes.length ≤ reqsizeidx → run'.terminateReqsize = true) ∧
        ∃ depthidx, J depthidx run') U F := by
  have hbody : ∀ depthidx (run' : TestRun T),
      (J depthidx run' ∧ (run'.terminateDepth = false → depthidx ≤ workload.depths.length) ∧
        (run'.terminateDepth = true → workload.reqsizes.length ≤ reqsizeidx →
          run'.terminateReqsize = true)) →
      run'.terminateDepth = false → depthidx < workload.depths.length + 1 ∧
        (depthPass config options (prepareWorkloads workers workload) measured reqsizeidx depthidx
          run').Ends (fun run'' => J (depthidx + 1) run'' ∧
            (run''.terminateDepth = false → depthidx + 1 ≤ workload.depths.length) ∧
            (run''.terminateDepth = true → workload.reqsizes.length ≤ reqsizeidx →
              run''.terminateReqsize = true)) U F := by
    rintro depthidx run' ⟨hJ, hle, _⟩ hstop
    refine ⟨Nat.lt_succ_of_le (hle hstop), ?_⟩
    have hnext := depthPass_next config options workload measured depthidx hworkers hstop
      (hreqsize depthidx run' hJ)
    have hkept := hpass depthidx run' _ hJ hstop hnext
    revert hnext hkept
    generalize depthPass config options (prepareWorkloads workers workload) measured reqsizeidx
      depthidx run' = outcome
    intro hnext hkept
    cases outcome with
    | done run'' => exact ⟨hkept, hnext.flags⟩
    | trap run'' => exact hkept
    | outOfFuel run'' => exact hkept
  have hstart' : J 0 run ∧ (run.terminateDepth = false → 0 ≤ workload.depths.length) ∧
      (run.terminateDepth = true → workload.reqsizes.length ≤ reqsizeidx →
        run.terminateReqsize = true) :=
    ⟨hstart, fun _ => Nat.zero_le _, fun hset => by rw [hclear] at hset; cases hset⟩
  have hloop := hfuel.elim
    (fun hfuel => forLoop_terminates hbody (Nat.zero_le _)
      (show workload.depths.length + 1 < 0 + fuel by omega) hstart')
    (fun hfuel => forLoop_ends (fun depthidx run' hR hstop => (hbody depthidx run' hR hstop).2)
      (fun depthidx run' hR => hfuel depthidx run' hR.1) hstart')
  refine hloop.mono ?_ (fun _ => id) fun _ => id
  rintro run' ⟨hstop, depthidx, hJ, _, hset⟩
  exact ⟨hstop, hset hstop, depthidx, hJ⟩

/-- **`run_tests` for workers with the same workload**, from an invariant `I` of the loop over the
request sizes and an invariant `J` of the loop over the queue depths. The fuel is enough for all
tests, or `F` holds wherever it may run out. -/
theorem runTests_ends {fuel : ℕ} {maxReqsize : Option UInt64} {I : ℕ → TestRun T → Prop}
    {J : ℕ → ℕ → TestRun T → Prop} (hworkers : workers ≠ [])
    (hfuel : workload.depths.length + workload.reqsizes.length + 1 < fuel ∨
      (∀ reqsizeidx run, I reqsizeidx run → F run) ∧
        ∀ reqsizeidx depthidx run, J reqsizeidx depthidx run → F run)
    (hstart : I 0 (TestRun.initial maxReqsize))
    (hrow : ∀ reqsizeidx run, I reqsizeidx run → run.terminateReqsize = false →
      J reqsizeidx 0 (run.startRow (measured.uninitialized reqsizeidx)))
    (hreqsize : ∀ reqsizeidx depthidx run, J reqsizeidx depthidx run →
      run.terminateReqsize = true → workload.reqsizes.length ≤ reqsizeidx)
    (hpass : ∀ reqsizeidx depthidx run outcome, J reqsizeidx depthidx run →
      run.terminateDepth = false →
      DepthNext config options workers workload measured reqsizeidx depthidx run outcome →
        outcome.Ends (J reqsizeidx (depthidx + 1)) U F)
    (hend : ∀ reqsizeidx depthidx run, J reqsizeidx depthidx run → run.terminateDepth = true →
      (workload.reqsizes.length ≤ reqsizeidx → run.terminateReqsize = true) →
      I (reqsizeidx + 1) (run.endRow options reqsizeidx)) :
    (runTests config options (prepareWorkloads workers workload) measured maxReqsize fuel).Ends
      (fun run => run.terminateReqsize = true ∧ ∃ reqsizeidx, I reqsizeidx run) U F := by
  have hbody : ∀ reqsizeidx (run : TestRun T),
      (I reqsizeidx run ∧
        (run.terminateReqsize = false → reqsizeidx ≤ workload.reqsizes.length)) →
      run.terminateReqsize = false → reqsizeidx < workload.reqsizes.length + 1 ∧
        (reqsizePass config options (prepareWorkloads workers workload) measured fuel reqsizeidx
          run).Ends (fun run' => I (reqsizeidx + 1) run' ∧
            (run'.terminateReqsize = false → reqsizeidx + 1 ≤ workload.reqsizes.length)) U F := by
    rintro reqsizeidx run ⟨hI, hle⟩ hstop
    refine ⟨Nat.lt_succ_of_le (hle hstop), ?_⟩
    have hfuel' : workload.depths.length + 1 < fuel ∨
        ∀ depthidx run, J reqsizeidx depthidx run → F run :=
      hfuel.imp (fun hfuel => by omega) fun hfuel => hfuel.2 reqsizeidx
    refine (depthLoop_ends hworkers hfuel' (hreqsize reqsizeidx) (hpass reqsizeidx) rfl
      (hrow reqsizeidx run hI hstop)).bind ?_
    rintro run' ⟨hset, hlast, depthidx, hJ⟩
    refine ⟨hend reqsizeidx depthidx run' hJ hset hlast, fun hclear => ?_⟩
    by_contra hge
    rw [TestRun.endRow, hlast (by omega), Bool.true_or] at hclear
    cases hclear
  have hstart' : I 0 (TestRun.initial maxReqsize : TestRun T) ∧
      ((TestRun.initial maxReqsize : TestRun T).terminateReqsize = false →
        0 ≤ workload.reqsizes.length) := ⟨hstart, fun _ => Nat.zero_le _⟩
  have hloop := hfuel.elim
    (fun hfuel => forLoop_terminates hbody (Nat.zero_le _)
      (show workload.reqsizes.length + 1 < 0 + fuel by omega) hstart')
    (fun hfuel => forLoop_ends
      (fun reqsizeidx run hR hstop => (hbody reqsizeidx run hR hstop).2)
      (fun reqsizeidx run hR => hfuel.1 reqsizeidx run hR.1) hstart')
  refine hloop.mono ?_ (fun _ => id) fun _ => id
  rintro run ⟨hstop, reqsizeidx, hI, _⟩
  exact ⟨hstop, reqsizeidx, hI⟩

end Rules

end DiskBench
