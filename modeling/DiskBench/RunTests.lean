import Mathlib.Order.Defs.LinearOrder
import Mathlib.Algebra.Group.Defs
import Mathlib.Data.Nat.Cast.Defs
import DiskBench.Foundations.ForLoop
import DiskBench.Preparation

/-!
# The tests of a workload

`run_tests` of `diskBench.c`: for each request size and each queue depth the workers are
checked one after another, and when all of them have room for their requests their threads
are started. The threads keep the settings of their workers, and they end. What their
statistics say of the throughput is given from outside, and so are the values of the two
local variables that a row of tests may leave without one. A number type `T` stands for
`double`.
-/

namespace DiskBench

open ForLoop

/-- The workload of a worker as `prepare_workload` leaves it. -/
structure PreparedWorkload where
  templateGenerator : Factory
  reqsizes : List UInt64
  depths : List UInt32

/-- A worker with its workload, if it has one. -/
structure TestWorker where
  worker : IoWorker
  workload : Option PreparedWorkload

/-- `prepare_workload`. -/
def prepareWorkload (worker : IoWorker) (generator : Option Factory) (reqsizeArray : List UInt64)
    (depthArray : List UInt32) : TestWorker :=
  ⟨worker, generator.map fun generator => ⟨generator, reqsizeArray, depthArray⟩⟩

/-- A worker thread with what `ioworker` finds when it starts. -/
structure TestThread where
  worker : IoWorker
  generator : GeneratorData
  queueDepth : Int32

/-- A test: the threads that are started for a request size and a queue depth. -/
structure Test where
  reqsizeidx : ℕ
  depthidx : ℕ
  /-- Whether the test counts for the separate statistics. -/
  separate : Bool
  threads : List TestThread

/-- The arguments of `run_tests` besides the workers. -/
structure TestOptions where
  autoTerminateRequest : Bool
  autoTerminateDepth : Bool
  /-- `separate_statistics_reqsize`, when there is a description. -/
  separateStatisticsReqsize : Option UInt64

/-- `MIN_TESTS`. -/
def minTests : ℕ := 3

/-- What is measured: the throughput of the test for a request size and a queue depth, and the
values of `min_depth_throughput` and `max_depth_throughput` before the first test of a row. -/
structure Measured (T : Type) where
  throughput : ℕ → ℕ → T
  uninitialized : ℕ → T × T

/-- The variables of the loop over the workers. -/
structure Selection where
  hasWorkload : Bool
  terminateDepth : Bool
  terminateReqsize : Bool
  genSeparateStatistics : Bool
  /-- `*max_reqsize`, when the pointer is not null. -/
  maxReqsize : Option UInt64
  /-- The workers that have been given a generator and a queue depth. -/
  threads : List TestThread

/-- The loop over the workers that validates that the buffers are big enough. It traps for a
queue depth of 0, and when the generator cannot be reset. -/
def selectWorkers (config : Config) (options : TestOptions) (reqsizeidx depthidx : ℕ) :
    List TestWorker → Selection → Option Selection
  | [], sel => some sel
  | w :: ws, sel =>
    match w.workload with
    | none => selectWorkers config options reqsizeidx depthidx ws sel
    | some workload =>
      let sel := { sel with
        hasWorkload := true
        terminateDepth := sel.terminateDepth || decide (workload.depths.length ≤ depthidx)
        terminateReqsize := sel.terminateReqsize || decide (workload.reqsizes.length ≤ reqsizeidx) }
      if sel.terminateDepth || sel.terminateReqsize then some sel
      else
        let depth := (workload.depths.getD depthidx 0).toInt32
        let reqsize := workload.reqsizes.getD reqsizeidx 0
        match workload.templateGenerator.reset w.worker.filesize reqsize with
        | none => none
        | some data =>
          if depth = 0 then none
          else selectWorkers config options reqsizeidx depthidx ws { sel with
            genSeparateStatistics :=
              sel.genSeparateStatistics && decide (options.separateStatisticsReqsize = some reqsize)
            maxReqsize := sel.maxReqsize.map fun size => if reqsize > size then reqsize else size
            terminateDepth := !admits config w.worker depth (workloads.maxIoSize data)
            threads := sel.threads ++ [⟨w.worker, data, depth⟩] }

/-- The variables of `run_tests`, with a log of the tests that have been started. -/
structure TestRun (T : Type) where
  terminateReqsize : Bool
  terminateDepth : Bool
  hasWorkload : Bool
  depthThroughput : ℕ → T
  minDepthThroughput : T
  maxDepthThroughput : T
  reqsizeMinThroughput : ℕ → T
  reqsizeMaxThroughput : ℕ → T
  maxReqsize : Option UInt64
  tests : List Test

variable {T : Type} [Zero T] [Add T] [Div T] [NatCast T] [LT T] [LE T] [DecidableLT T]
  [DecidableLE T]

/-- The average over a ring of `MIN_TESTS` values. -/
def average (ring : ℕ → T) : T :=
  (List.range minTests).foldl (fun sum i => sum + ring i) 0 / (minTests : T)

/-- The variables after a test with its measured throughput. -/
def TestRun.record (options : TestOptions) (depthidx : ℕ) (throughput : T) (test : Test)
    (run : TestRun T) : TestRun T :=
  let depthThroughput := Function.update run.depthThroughput (depthidx % minTests) throughput
  { run with
    depthThroughput := depthThroughput
    minDepthThroughput :=
      if depthidx = 0 ∨ throughput < run.minDepthThroughput then throughput
      else run.minDepthThroughput
    maxDepthThroughput :=
      if depthidx = 0 ∨ run.maxDepthThroughput < throughput then throughput
      else run.maxDepthThroughput
    terminateDepth := run.terminateDepth || decide (minTests ≤ depthidx) &&
      decide (throughput ≤ average depthThroughput) && options.autoTerminateDepth
    tests := run.tests ++ [test] }

/-- One pass of the loop over the queue depths. -/
def depthPass (config : Config) (options : TestOptions) (workers : List TestWorker)
    (measured : Measured T) (reqsizeidx depthidx : ℕ) (run : TestRun T) : Outcome (TestRun T) :=
  match selectWorkers config options reqsizeidx depthidx workers
    ⟨run.hasWorkload, run.terminateDepth, run.terminateReqsize, true, run.maxReqsize, []⟩ with
  | none => .trap run
  | some sel =>
    let run := { run with
      hasWorkload := sel.hasWorkload
      terminateDepth := sel.terminateDepth || !sel.hasWorkload
      terminateReqsize := sel.terminateReqsize || !sel.hasWorkload
      maxReqsize := sel.maxReqsize }
    if run.terminateDepth || run.terminateReqsize then .done run
    else .done (run.record options depthidx (measured.throughput reqsizeidx depthidx)
      ⟨reqsizeidx, depthidx, sel.genSeparateStatistics, sel.threads⟩)

/-- The variables before the first queue depth of a row. -/
def TestRun.startRow (uninitialized : T × T) (run : TestRun T) : TestRun T :=
  { run with
    terminateDepth := false
    hasWorkload := false
    depthThroughput := fun _ => 0
    minDepthThroughput := uninitialized.1
    maxDepthThroughput := uninitialized.2 }

/-- The variables after the last queue depth of a row. -/
def TestRun.endRow (options : TestOptions) (reqsizeidx : ℕ) (run : TestRun T) : TestRun T :=
  let reqsizeMinThroughput :=
    Function.update run.reqsizeMinThroughput (reqsizeidx % minTests) run.minDepthThroughput
  let reqsizeMaxThroughput :=
    Function.update run.reqsizeMaxThroughput (reqsizeidx % minTests) run.maxDepthThroughput
  { run with
    reqsizeMinThroughput := reqsizeMinThroughput
    reqsizeMaxThroughput := reqsizeMaxThroughput
    terminateReqsize := run.terminateReqsize || decide (minTests ≤ reqsizeidx) &&
      (decide (run.minDepthThroughput ≤ average reqsizeMinThroughput) &&
        decide (run.maxDepthThroughput ≤ average reqsizeMaxThroughput)) &&
      options.autoTerminateRequest }

/-- One pass of the loop over the request sizes. -/
def reqsizePass (config : Config) (options : TestOptions) (workers : List TestWorker)
    (measured : Measured T) (fuel reqsizeidx : ℕ) (run : TestRun T) : Outcome (TestRun T) :=
  (forLoop TestRun.terminateDepth (depthPass config options workers measured reqsizeidx) fuel 0
    (run.startRow (measured.uninitialized reqsizeidx))).bind
      fun run => .done (run.endRow options reqsizeidx)

/-- The variables before the first request size. -/
def TestRun.initial (maxReqsize : Option UInt64) : TestRun T where
  terminateReqsize := false
  terminateDepth := false
  hasWorkload := false
  depthThroughput := fun _ => 0
  minDepthThroughput := 0
  maxDepthThroughput := 0
  reqsizeMinThroughput := fun _ => 0
  reqsizeMaxThroughput := fun _ => 0
  maxReqsize := maxReqsize
  tests := []

/-- `run_tests`, with at most `fuel` passes of each loop. -/
def runTests (config : Config) (options : TestOptions) (workers : List TestWorker)
    (measured : Measured T) (maxReqsize : Option UInt64) (fuel : ℕ) : Outcome (TestRun T) :=
  forLoop TestRun.terminateReqsize (reqsizePass config options workers measured fuel) fuel 0
    (TestRun.initial maxReqsize)

/-- What is known of a thread that has been started for a worker. -/
structure TestThread.Admitted (config : Config) (reqsizeidx depthidx : ℕ) (thread : TestThread)
    (w : TestWorker) (workload : PreparedWorkload) (depth : UInt32) (reqsize : UInt64) : Prop where
  workload_eq : w.workload = some workload
  depth_eq : workload.depths[depthidx]? = some depth
  reqsize_eq : workload.reqsizes[reqsizeidx]? = some reqsize
  worker_eq : thread.worker = w.worker
  queueDepth_eq : thread.queueDepth = depth.toInt32
  reset_eq : workload.templateGenerator.reset w.worker.filesize reqsize = some thread.generator
  queueDepth_ne : thread.queueDepth ≠ 0
  admits_eq : admits config thread.worker thread.queueDepth
    (workloads.maxIoSize thread.generator) = true

/-- The threads of a test: one for each worker with a workload, and no others. -/
def StartedFor (config : Config) (reqsizeidx depthidx : ℕ) (ws : List TestWorker)
    (threads : List TestThread) : Prop :=
  (∀ thread ∈ threads, ∃ w ∈ ws, ∃ workload depth reqsize,
    thread.Admitted config reqsizeidx depthidx w workload depth reqsize) ∧
  ∀ w ∈ ws, w.workload ≠ none → ∃ thread ∈ threads, ∃ workload depth reqsize,
    thread.Admitted config reqsizeidx depthidx w workload depth reqsize

/-- An entry inside an array is what `APR_ARRAY_IDX` reads. -/
theorem getElem?_eq_some_getD {α : Type} {array : List α} {i : ℕ} (h : i < array.length) (x : α) :
    array[i]? = some (array.getD i x) := by
  simp [h]

section Selection

variable {config : Config} {options : TestOptions} {reqsizeidx depthidx : ℕ}

theorem StartedFor.skip {w : TestWorker} {ws : List TestWorker} {threads : List TestThread}
    (hnone : w.workload = none) (h : StartedFor config reqsizeidx depthidx ws threads) :
    StartedFor config reqsizeidx depthidx (w :: ws) threads := by
  refine ⟨fun thread hthread => ?_, fun w' hw' hsome => ?_⟩
  · obtain ⟨w', hw', hadmitted⟩ := h.1 thread hthread
    exact ⟨w', List.mem_cons_of_mem _ hw', hadmitted⟩
  · rcases List.mem_cons.mp hw' with rfl | hmem
    · exact absurd hnone hsome
    · exact h.2 w' hmem hsome

theorem StartedFor.cons {w : TestWorker} {ws : List TestWorker} {thread : TestThread}
    {threads : List TestThread} {workload : PreparedWorkload} {depth : UInt32} {reqsize : UInt64}
    (hthread : thread.Admitted config reqsizeidx depthidx w workload depth reqsize)
    (h : StartedFor config reqsizeidx depthidx ws threads) :
    StartedFor config reqsizeidx depthidx (w :: ws) (thread :: threads) := by
  refine ⟨fun thread' hthread' => ?_, fun w' hw' hsome => ?_⟩
  · rcases List.mem_cons.mp hthread' with rfl | hmem
    · exact ⟨w, List.mem_cons_self, workload, depth, reqsize, hthread⟩
    · obtain ⟨w', hw', hadmitted⟩ := h.1 thread' hmem
      exact ⟨w', List.mem_cons_of_mem _ hw', hadmitted⟩
  · rcases List.mem_cons.mp hw' with rfl | hmem
    · exact ⟨thread, List.mem_cons_self, workload, depth, reqsize, hthread⟩
    · obtain ⟨thread', hthread', hadmitted⟩ := h.2 w' hmem hsome
      exact ⟨thread', List.mem_cons_of_mem _ hthread', hadmitted⟩

/-- When no flag is set after the loop over the workers, each worker with a workload has been
given a generator and a queue depth that its buffer has room for. -/
theorem selectWorkers_started {ws : List TestWorker} {sel sel' : Selection}
    (h : selectWorkers config options reqsizeidx depthidx ws sel = some sel')
    (hdepth : sel'.terminateDepth = false) (hreqsize : sel'.terminateReqsize = false) :
    sel.terminateDepth = false ∧ ∃ threads, sel'.threads = sel.threads ++ threads ∧
      StartedFor config reqsizeidx depthidx ws threads := by
  induction ws generalizing sel with
  | nil =>
    rw [selectWorkers, Option.some.injEq] at h
    subst h
    exact ⟨hdepth, [], by simp, by simp [StartedFor]⟩
  | cons w ws ih =>
    rw [selectWorkers] at h
    split at h
    · rename_i hnone
      obtain ⟨hsel, threads, hthreads, hstarted⟩ := ih h
      exact ⟨hsel, threads, hthreads, hstarted.skip hnone⟩
    · rename_i workload hsome
      dsimp only at h
      split at h
      · rename_i hflags
        rw [Option.some.injEq] at h
        have hor : (sel'.terminateDepth || sel'.terminateReqsize) = true := h ▸ hflags
        simp [hdepth, hreqsize] at hor
      · rename_i hflags
        simp only [Bool.or_eq_true, decide_eq_true_eq, not_or, Bool.not_eq_true,
          Nat.not_le] at hflags
        split at h
        · cases h
        · rename_i data hreset
          split at h
          · cases h
          · rename_i hne
            obtain ⟨hadmits, threads, hthreads, hstarted⟩ := ih h
            refine ⟨hflags.1.1, _ :: threads, by rw [hthreads, List.append_assoc]; rfl,
              @StartedFor.cons _ _ _ _ _ _ _ workload _ _ ⟨hsome, ?_, ?_, rfl, rfl, hreset, hne, ?_⟩
                hstarted⟩
            · exact getElem?_eq_some_getD hflags.1.2 0
            · exact getElem?_eq_some_getD hflags.2.2 0
            · simpa using hadmits

/-- The flag for a workload is set by a worker that has one. -/
theorem selectWorkers_hasWorkload {ws : List TestWorker} {sel sel' : Selection}
    (h : selectWorkers config options reqsizeidx depthidx ws sel = some sel')
    (hhas : sel'.hasWorkload = true) :
    sel.hasWorkload = true ∨ ∃ w ∈ ws, w.workload ≠ none := by
  induction ws generalizing sel with
  | nil =>
    cases h
    exact Or.inl hhas
  | cons w ws ih =>
    by_cases hnone : w.workload = none
    · rw [selectWorkers, hnone] at h
      obtain hsel | ⟨w', hw', hsome⟩ := ih h
      · exact Or.inl hsel
      · exact Or.inr ⟨w', List.mem_cons_of_mem _ hw', hsome⟩
    · exact Or.inr ⟨w, List.mem_cons_self, hnone⟩

end Selection

section Runs

variable {config : Config} {options : TestOptions} {workers : List TestWorker}
  {measured : Measured T}

/-- A pass over the workers traps, ends at once, or starts one test. -/
theorem depthPass_cases (reqsizeidx depthidx : ℕ) (run : TestRun T) :
    depthPass config options workers measured reqsizeidx depthidx run = .trap run ∨
      ∃ run', depthPass config options workers measured reqsizeidx depthidx run = .done run' ∧
        (run'.tests = run.tests ∨ ∃ test, run'.tests = run.tests ++ [test] ∧
          test.reqsizeidx = reqsizeidx ∧ test.depthidx = depthidx ∧
          StartedFor config reqsizeidx depthidx workers test.threads) := by
  unfold depthPass
  split
  · exact Or.inl rfl
  · rename_i sel hsel
    right
    dsimp only
    split
    · exact ⟨_, rfl, Or.inl rfl⟩
    · rename_i hflags
      simp only [Bool.or_eq_true, not_or, Bool.not_eq_true] at hflags
      obtain ⟨_, threads, hthreads, hstarted⟩ := selectWorkers_started hsel hflags.1.1 hflags.2.1
      exact ⟨_, rfl, Or.inr ⟨_, rfl, rfl, rfl, by rw [hthreads]; exact hstarted⟩⟩

/-- The tests in the log have their threads. -/
def TestRun.Started (config : Config) (workers : List TestWorker) (run : TestRun T) : Prop :=
  ∀ test ∈ run.tests, StartedFor config test.reqsizeidx test.depthidx workers test.threads

theorem depthPass_started {reqsizeidx depthidx : ℕ} {run : TestRun T}
    (h : run.Started config workers) :
    (depthPass config options workers measured reqsizeidx depthidx run).Ends
      (TestRun.Started config workers) (TestRun.Started config workers)
      (TestRun.Started config workers) := by
  obtain htrap | ⟨run', hdone, htests⟩ :=
    @depthPass_cases _ _ _ _ _ _ _ _ _ config options workers measured reqsizeidx depthidx run
  · rw [htrap]
    exact h
  · rw [hdone]
    obtain heq | ⟨test, heq, hreqsizeidx, hdepthidx, hstarted⟩ := htests
    · simpa only [Outcome.Ends, TestRun.Started, heq] using h
    · intro test' htest'
      rw [heq, List.mem_append, List.mem_singleton] at htest'
      obtain hmem | rfl := htest'
      · exact h test' hmem
      · rw [hreqsizeidx, hdepthidx]
        exact hstarted

/-- Whatever is measured and wherever the run ends: the threads of a test are those of workers
with a workload, each with the generator reset for its file and with room in its buffer for
requests of the largest size. -/
theorem runTests_started (maxReqsize : Option UInt64) (fuel : ℕ) :
    (runTests config options workers measured maxReqsize fuel).state.Started config workers := by
  apply Outcome.Ends.state
  apply forLoop_keeps
  · intro reqsizeidx run hrun
    apply Outcome.Ends.bind (D := TestRun.Started config workers)
    · exact forLoop_keeps (fun _ _ h => depthPass_started h) hrun
    · exact fun run h => h
  · intro test htest
    cases htest

/-- The flag and the tests are there because of a worker that has a workload. -/
def TestRun.Working (workers : List TestWorker) (run : TestRun T) : Prop :=
  run.hasWorkload = true ∨ run.tests ≠ [] → ∃ w ∈ workers, w.workload ≠ none

theorem depthPass_working {reqsizeidx depthidx : ℕ} {run : TestRun T} (h : run.Working workers) :
    (depthPass config options workers measured reqsizeidx depthidx run).Ends
      (TestRun.Working workers) (TestRun.Working workers) (TestRun.Working workers) := by
  unfold depthPass
  split
  · exact h
  · rename_i sel hsel
    have hhas : sel.hasWorkload = true → ∃ w ∈ workers, w.workload ≠ none := fun hset =>
      (selectWorkers_hasWorkload hsel hset).elim (fun hrun => h (Or.inl hrun)) id
    dsimp only
    split
    · exact fun hworking => hworking.elim hhas fun htests => h (Or.inr htests)
    · rename_i hflags
      simp only [Bool.or_eq_true, not_or, Bool.not_eq_true, Bool.not_eq_false'] at hflags
      exact fun _ => hhas hflags.1.2

/-- A test is executed only for workers of which one has a workload. -/
theorem runTests_working (maxReqsize : Option UInt64) (fuel : ℕ) :
    (runTests config options workers measured maxReqsize fuel).state.Working workers := by
  apply Outcome.Ends.state
  apply forLoop_keeps
  · intro reqsizeidx run hrun
    apply Outcome.Ends.bind (D := TestRun.Working workers)
    · exact forLoop_keeps (fun _ _ h => depthPass_working h)
        fun hworking => hworking.elim (fun hset => nomatch hset) fun htests => hrun (Or.inr htests)
    · exact fun run h => h
  · rintro (hset | htests)
    · cases hset
    · exact absurd rfl htests

/-- A worker without a workload, or with room in its buffer for the first test of its workload. -/
def TestWorker.FirstFits (config : Config) (w : TestWorker) : Prop :=
  ∀ workload, w.workload = some workload → ∃ depth depths reqsize reqsizes data,
    workload.depths = depth :: depths ∧ workload.reqsizes = reqsize :: reqsizes ∧
      workload.templateGenerator.reset w.worker.filesize reqsize = some data ∧
      depth.toInt32 ≠ 0 ∧
      admits config w.worker depth.toInt32 (workloads.maxIoSize data) = true

/-- The check of such workers sets no flag. -/
theorem selectWorkers_first {ws : List TestWorker} {sel : Selection}
    (hdepth : sel.terminateDepth = false) (hreqsize : sel.terminateReqsize = false)
    (hfits : ∀ w ∈ ws, w.FirstFits config) :
    ∃ sel', selectWorkers config options 0 0 ws sel = some sel' ∧ sel'.terminateDepth = false ∧
      sel'.terminateReqsize = false ∧
      (sel'.hasWorkload = true ↔ sel.hasWorkload = true ∨ ∃ w ∈ ws, w.workload ≠ none) := by
  induction ws generalizing sel with
  | nil => exact ⟨sel, rfl, hdepth, hreqsize, by simp⟩
  | cons w ws ih =>
    have hfits' : ∀ w ∈ ws, w.FirstFits config :=
      fun w' hw' => hfits w' (List.mem_cons_of_mem _ hw')
    cases hworkload : w.workload with
    | none =>
      obtain ⟨sel', hsel, hdepth', hreqsize', hhas⟩ := ih hdepth hreqsize hfits'
      refine ⟨sel', ?_, hdepth', hreqsize', by simp [hhas, hworkload]⟩
      simp only [selectWorkers, hworkload, hsel]
    | some workload =>
      obtain ⟨depth, depths, reqsize, reqsizes, data, hdepths, hreqsizes, hreset, hne, hadmits⟩ :=
        hfits w List.mem_cons_self workload hworkload
      obtain ⟨next, hnext, hdepth, hreqsize, hnextHas⟩ : ∃ next,
          selectWorkers config options 0 0 (w :: ws) sel =
            selectWorkers config options 0 0 ws next ∧ next.terminateDepth = false ∧
          next.terminateReqsize = false ∧ next.hasWorkload = true :=
        ⟨{ sel with
            hasWorkload := true
            genSeparateStatistics := sel.genSeparateStatistics &&
              decide (options.separateStatisticsReqsize = some reqsize)
            maxReqsize := sel.maxReqsize.map fun size => if reqsize > size then reqsize else size
            terminateDepth := false
            terminateReqsize := false
            threads := sel.threads ++ [⟨w.worker, data, depth.toInt32⟩] },
          by simp [selectWorkers, hworkload, hdepths, hreqsizes, hdepth, hreqsize, hreset, hne,
            hadmits], rfl, rfl, rfl⟩
      obtain ⟨sel', hsel, hdepth', hreqsize', hhas⟩ := ih hdepth hreqsize hfits'
      exact ⟨sel', hnext.trans hsel, hdepth', hreqsize', by simp [hhas, hnextHas, hworkload]⟩

/-- A test has been started. -/
def TestRun.HasTests (run : TestRun T) : Prop := run.tests ≠ []

/-- The tests in the log stay there. -/
theorem depthPass_hasTests {reqsizeidx depthidx : ℕ} {run : TestRun T} (h : run.HasTests) :
    (depthPass config options workers measured reqsizeidx depthidx run).Ends
      TestRun.HasTests TestRun.HasTests TestRun.HasTests := by
  obtain htrap | ⟨run', hdone, htests⟩ :=
    @depthPass_cases _ _ _ _ _ _ _ _ _ config options workers measured reqsizeidx depthidx run
  · rw [htrap]
    exact h
  · rw [hdone]
    obtain heq | ⟨test, heq, _⟩ := htests
    · simpa only [Outcome.Ends, TestRun.HasTests, heq] using h
    · simp [Outcome.Ends, TestRun.HasTests, heq]

/-- A loop over the queue depths keeps them there. -/
theorem depthLoop_hasTests {fuel reqsizeidx depthidx : ℕ} {run : TestRun T} (h : run.HasTests) :
    (forLoop TestRun.terminateDepth (depthPass config options workers measured reqsizeidx) fuel
      depthidx run).Ends TestRun.HasTests TestRun.HasTests TestRun.HasTests :=
  forLoop_keeps (fun _ _ h => depthPass_hasTests h) h

/-- When all workers have room for their first test, and one of them has a workload, then the
first pass starts a test. -/
theorem depthPass_first {run : TestRun T} (hdepth : run.terminateDepth = false)
    (hreqsize : run.terminateReqsize = false) (hfits : ∀ w ∈ workers, w.FirstFits config)
    (hworkload : ∃ w ∈ workers, w.workload ≠ none) :
    (depthPass config options workers measured 0 0 run).Ends
      TestRun.HasTests TestRun.HasTests TestRun.HasTests := by
  obtain ⟨sel, hsel, hseldepth, hselreqsize, hhas⟩ := @selectWorkers_first config options workers
    ⟨run.hasWorkload, run.terminateDepth, run.terminateReqsize, true, run.maxReqsize, []⟩
    hdepth hreqsize hfits
  have hselhas : sel.hasWorkload = true := hhas.mpr (Or.inr hworkload)
  simp [depthPass, hsel, hseldepth, hselreqsize, hselhas, Outcome.Ends, TestRun.HasTests,
    TestRun.record]

/-- So a run that is not cut off before its first pass has a test. -/
theorem runTests_first {fuel : ℕ} (hfuel : 1 ≤ fuel) (maxReqsize : Option UInt64)
    (hfits : ∀ w ∈ workers, w.FirstFits config) (hworkload : ∃ w ∈ workers, w.workload ≠ none) :
    (runTests config options workers measured maxReqsize fuel).state.HasTests := by
  obtain ⟨fuel, rfl⟩ := Nat.exists_eq_add_of_le' hfuel
  have hpass : ∀ reqsizeidx (run : TestRun T),
      (forLoop TestRun.terminateDepth (depthPass config options workers measured reqsizeidx)
        (fuel + 1) 0 (run.startRow (measured.uninitialized reqsizeidx))).Ends
          TestRun.HasTests TestRun.HasTests TestRun.HasTests →
      (reqsizePass config options workers measured (fuel + 1) reqsizeidx run).Ends
        TestRun.HasTests TestRun.HasTests TestRun.HasTests :=
    fun _ _ hloop => hloop.bind fun _ h => h
  have hfirst : (reqsizePass config options workers measured (fuel + 1) 0
      (TestRun.initial maxReqsize)).Ends TestRun.HasTests TestRun.HasTests TestRun.HasTests := by
    apply hpass
    rw [forLoop, if_neg (by simp [TestRun.startRow])]
    exact (depthPass_first rfl rfl hfits hworkload).bind fun _ h => depthLoop_hasTests h
  have hends : (runTests config options workers measured maxReqsize (fuel + 1)).Ends
      TestRun.HasTests TestRun.HasTests TestRun.HasTests := by
    rw [runTests, forLoop, if_neg (by simp [TestRun.initial])]
    refine hfirst.bind fun run hrun => ?_
    exact forLoop_keeps (fun _ _ h => hpass _ _ (depthLoop_hasTests h)) hrun
  exact hends.state

end Runs

end DiskBench
