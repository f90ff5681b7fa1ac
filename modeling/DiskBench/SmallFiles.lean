import Mathlib.Algebra.Order.Ring.Rat
import Mathlib.Tactic.Linarith
import DiskBench.MainRun

/-!
# Files that are too small for their requests

The check of `run_tests` compares the largest request with the share of the buffer, and never with
the size of the file. A test is started on a file that is too small when the first depth of its
row has room for such a request and the tests before have not ended the process. On a file that
is big enough the generator does not trap and its requests stay inside the file.
-/

namespace DiskBench

open ForLoop

/-- The file of a thread holds the largest request of its generator. -/
def TestThread.FitsFile (thread : TestThread) : Prop :=
  workloads.maxIoSize thread.generator ≤ thread.worker.filesize

/-- No call of the generator of a thread traps, and all requests lie inside the file. -/
def TestThread.StaysInFile (thread : TestThread) : Prop :=
  ∀ seeds data, Transition.exec (workloads.fillStep thread.worker.filesize) thread.generator
      seeds = some data →
    ∀ seed, ∃ data' seed' t, workloads.fillRequest data thread.worker.filesize seed =
      some (data', seed', t) ∧ InsideFile thread.worker.filesize t

/-- A thread that may be started on its file. An empty request is not inside any file. -/
structure TestThread.Safe (thread : TestThread) : Prop where
  fits : thread.FitsFile
  inside : 1 ≤ (workloads.maxIoSize thread.generator).toNat →
    thread.worker.filesize.toNat < 2 ^ 63 → thread.StaysInFile

/-- A file that holds the largest request is enough. -/
theorem TestThread.Admitted.safe {config : Config} {reqsizeidx depthidx : ℕ} {thread : TestThread}
    {w : TestWorker} {workload : PreparedWorkload} {depth : UInt32} {reqsize : UInt64}
    (h : thread.Admitted config reqsizeidx depthidx w workload depth reqsize)
    (hfits : thread.FitsFile) : thread.Safe := by
  refine ⟨hfits, fun hpos hfile seeds data hexec seed => ?_⟩
  have hreset := h.reset_eq
  rw [← h.worker_eq] at hreset
  have hstart : thread.generator.InFile thread.worker.filesize :=
    Factory.reset_inFile_of_maxIoSize_pos hpos hreset hfits
  obtain ⟨data', seed', t, hfill, _, hinside⟩ := (hstart.exec hfile hexec).fill hfile seed
  exact ⟨data', seed', t, hfill, hinside⟩

/-- A row of tests can end without a trap in the check of the workers. With `auto_terminate_depth`
it can end after the fourth test. -/
def PreparedWorkload.Passes (config : Config) (options : TestOptions) (workers : List IoWorker)
    (workload : PreparedWorkload) (reqsizeidx : ℕ) : Prop :=
  ∀ depthidx < workload.depths.length,
    (∀ i < depthidx, workload.room config workers reqsizeidx i = true ∧
      ¬workload.Traps reqsizeidx i) →
    workload.Traps reqsizeidx depthidx → options.autoTerminateDepth = true ∧ 4 ≤ depthidx

/-- A row of tests is reached, and its first test is started. -/
structure PreparedWorkload.Starts (config : Config) (options : TestOptions)
    (workers : List IoWorker) (workload : PreparedWorkload) (reqsizeidx : ℕ) : Prop where
  reqsizeidx_lt : reqsizeidx < workload.reqsizes.length
  depths_pos : 0 < workload.depths.length
  passes : ∀ i < reqsizeidx, workload.Passes config options workers i
  not_traps : ¬workload.Traps reqsizeidx 0
  room : workload.room config workers reqsizeidx 0 = true

section AllRuns

variable {T : Type} [Zero T] [Add T] [Div T] [NatCast T] [LT T] [LE T] [DecidableLT T]
  [DecidableLE T] {config : Config} {options : TestOptions} {workers : List IoWorker}
  {workload : PreparedWorkload}

/-- The threads in the log have files that are big enough. -/
def TestRun.FitsFiles (run : TestRun T) : Prop :=
  ∀ test ∈ run.tests, ∀ thread ∈ test.threads, thread.Safe

/-- The threads of a test have files that are big enough when the files of all workers hold the
largest request of the row. -/
theorem fitsFile_of_largest_le {reqsizeidx depthidx : ℕ} {threads : List TestThread}
    (hstarted : StartedFor config reqsizeidx depthidx (prepareWorkloads workers workload) threads)
    (hfile : ∀ worker ∈ workers, workload.largest reqsizeidx ≤ worker.filesize) :
    ∀ thread ∈ threads, thread.Safe := by
  intro thread hthread
  obtain ⟨w, hw, workload', depth, reqsize, hadmitted⟩ := hstarted.1 thread hthread
  obtain ⟨worker, hworker, rfl⟩ := List.mem_map.mp hw
  obtain rfl : workload = workload' := by simpa [prepareWorkload] using hadmitted.workload_eq
  have hreqsize : workload.reqsize reqsizeidx = reqsize := by
    simp [PreparedWorkload.reqsize, hadmitted.reqsize_eq]
  have hfits : thread.FitsFile := by
    rw [TestThread.FitsFile, Factory.maxIoSize_of_reset hadmitted.reset_eq, hadmitted.worker_eq,
      ← hreqsize]
    exact hfile worker hworker
  exact hadmitted.safe hfits

/-- What is known before a queue depth: the rows before can end, the files of the tests so far are
big enough, and the row can end when it does. -/
structure BeforeDepth (config : Config) (options : TestOptions) (workers : List IoWorker)
    (workload : PreparedWorkload) (reqsizeidx depthidx : ℕ) (run : TestRun T) : Prop where
  fits : run.FitsFiles
  passes : ∀ i < reqsizeidx, workload.Passes config options workers i
  going : run.terminateDepth = false → ∀ i < depthidx, reqsizeidx < workload.reqsizes.length →
    workload.room config workers reqsizeidx i = true ∧ ¬workload.Traps reqsizeidx i
  ended : run.terminateDepth = true → reqsizeidx < workload.reqsizes.length →
    workload.Passes config options workers reqsizeidx
  clear : run.terminateReqsize = true → workload.reqsizes.length ≤ reqsizeidx

/-- What is known before a request size. -/
structure BeforeRow (config : Config) (options : TestOptions) (workers : List IoWorker)
    (workload : PreparedWorkload) (reqsizeidx : ℕ) (run : TestRun T) : Prop where
  fits : run.FitsFiles
  passes : run.terminateReqsize = false →
    ∀ i < reqsizeidx, workload.Passes config options workers i

theorem BeforeDepth.step {measured : Measured T} {reqsizeidx depthidx : ℕ} {run : TestRun T}
    {outcome : Outcome (TestRun T)}
    (hfile : ∀ i, workload.Starts config options workers i →
      ∀ worker ∈ workers, workload.largest i ≤ worker.filesize)
    (h : BeforeDepth config options workers workload reqsizeidx depthidx run)
    (hclear : run.terminateDepth = false)
    (hnext : DepthNext config options workers workload measured reqsizeidx depthidx run outcome) :
    outcome.Ends (BeforeDepth config options workers workload reqsizeidx (depthidx + 1))
      TestRun.FitsFiles TestRun.FitsFiles := by
  have hgoing := h.going hclear
  cases hnext with
  | exhausted hend =>
    refine ⟨h.fits, h.passes, fun hset i hi hlt => ?_, fun hset hlt i hi _ htraps => ?_,
      fun hset => ?_⟩
    · have hle : depthidx < workload.depths.length := by simpa using hset
      omega
    · exact absurd htraps (hgoing i (by omega) hlt).2
    · rcases Bool.or_eq_true_iff.mp hset with hset' | hle
      · exact h.clear hset'
      · exact of_decide_eq_true hle
  | traps _ _ _ => exact h.fits
  | unfit maxReqsize hreqsizeidx hdepthidx htraps hunfit =>
    refine ⟨h.fits, h.passes, nofun, fun _ hlt i hi hroom htraps' => ?_, h.clear⟩
    exfalso
    rcases Nat.lt_trichotomy i depthidx with hlt' | rfl | hgt
    · exact (hgoing i hlt' hlt).2 htraps'
    · exact htraps htraps'
    · rw [(hroom depthidx hgt).1] at hunfit
      cases hunfit
  | test test maxReqsize hreqsizeidx hdepthidx htraps hroom htest hstarted =>
    have hall : ∀ i < depthidx + 1, workload.room config workers reqsizeidx i = true ∧
        ¬workload.Traps reqsizeidx i := fun i hi => by
      rcases Nat.lt_succ_iff_lt_or_eq.mp hi with hlt | rfl
      · exact hgoing i hlt hreqsizeidx
      · exact ⟨hroom, htraps⟩
    have hfirst := hall 0 (Nat.succ_pos _)
    refine ⟨fun test' htest' => ?_, h.passes, fun _ i hi _ => hall i hi,
      fun hset _ i hi _ htraps' => ?_, h.clear⟩
    · rcases List.mem_append.mp htest' with hmem | hmem
      · exact h.fits test' hmem
      · obtain rfl := List.mem_singleton.mp hmem
        exact fitsFile_of_largest_le hstarted (hfile reqsizeidx
          ⟨hreqsizeidx, by omega, h.passes, hfirst.2, hfirst.1⟩)
    · -- Only the measured throughput has ended the row, after its fourth test or later.
      simp only [TestRun.record, hclear, Bool.false_or, Bool.and_eq_true, decide_eq_true_eq]
        at hset
      have hmin : minTests = 3 := rfl
      have hle : depthidx < i := by
        by_contra hge
        exact (hall i (by omega)).2 htraps'
      exact ⟨hset.2, by omega⟩

/-- When the rows that are reached fit, no thread is started on a file that is too small. -/
theorem runTests_fitsFiles {measured : Measured T} {maxReqsize : Option UInt64} {fuel : ℕ}
    (hworkers : workers ≠ [])
    (hfile : ∀ i, workload.Starts config options workers i →
      ∀ worker ∈ workers, workload.largest i ≤ worker.filesize) :
    (runTests config options (prepareWorkloads workers workload) measured maxReqsize
      fuel).state.FitsFiles := by
  have hends : (runTests config options (prepareWorkloads workers workload) measured maxReqsize
      fuel).Ends (fun run => run.terminateReqsize = true ∧
        ∃ reqsizeidx, BeforeRow config options workers workload reqsizeidx run)
      TestRun.FitsFiles TestRun.FitsFiles := by
    refine runTests_ends (J := BeforeDepth config options workers workload) hworkers
      (Or.inr ⟨fun _ _ h => h.fits, fun _ _ _ h => h.fits⟩)
      ⟨fun _ h => (nomatch h), fun _ _ h => (nomatch h)⟩ ?_ ?_ ?_ ?_
    · refine fun reqsizeidx run h hclear => ⟨h.fits, h.passes hclear, fun _ i hi => by omega,
        nofun, fun hset => ?_⟩
      have hset' : run.terminateReqsize = true := hset
      rw [hset'] at hclear
      cases hclear
    · exact fun _ _ _ h => h.clear
    · exact fun _ _ _ _ h hclear hnext => h.step hfile hclear hnext
    · refine fun reqsizeidx depthidx run h hset hlast => ⟨h.fits, fun hclear i hi => ?_⟩
      rcases Nat.lt_succ_iff_lt_or_eq.mp hi with hlt | rfl
      · exact h.passes i hlt
      · apply h.ended hset
        by_contra hge
        rw [TestRun.endRow, hlast (by omega), Bool.true_or] at hclear
        cases hclear
  exact (hends.mono (fun _ h => h.2.elim fun _ hrow => hrow.fits) (fun _ h => h) fun _ h => h).state

end AllRuns

section Reached

variable {config : Config} {options : TestOptions} {workers : List IoWorker}
  {workload : PreparedWorkload}

/-- The same throughput in all tests of a row, and more in each row than in the one before. -/
def rising : Measured ℚ := ⟨fun reqsizeidx _ => reqsizeidx + 1, fun reqsizeidx =>
  (reqsizeidx + 1, reqsizeidx + 1)⟩

theorem average_eq (ring : ℕ → ℚ) : average ring = (ring 0 + ring 1 + ring 2) / 3 := by
  simp [average, minTests, List.range_succ]

/-- A ring of equal values has their average. -/
theorem average_of_eq {ring : ℕ → ℚ} {x : ℚ} (h : ∀ i < 3, ring i = x) : average ring = x := by
  rw [average_eq, h 0 (by omega), h 1 (by omega), h 2 (by omega)]
  linarith

/-- A new value above all others in the ring is above the average. -/
theorem average_update_lt {ring : ℕ → ℚ} {x y : ℚ} (i : ℕ) (h : ∀ i < 3, ring i ≤ x) (hxy : x < y) :
    average (Function.update ring (i % minTests) y) < y := by
  have h0 := h 0 (by omega)
  have h1 := h 1 (by omega)
  have h2 := h 2 (by omega)
  have hmod : i % minTests = 0 ∨ i % minTests = 1 ∨ i % minTests = 2 := by
    unfold minTests
    omega
  rw [average_eq]
  rcases hmod with hmod | hmod | hmod <;> simp [hmod] <;> linarith

/-- A test of a row has been started. -/
def TestRun.HasRow (config : Config) (workers : List IoWorker) (workload : PreparedWorkload)
    (row : ℕ) (run : TestRun ℚ) : Prop :=
  ∃ test ∈ run.tests, ∃ depthidx,
    StartedFor config row depthidx (prepareWorkloads workers workload) test.threads

/-- A further test changes nothing of it. -/
theorem TestRun.HasRow.mono {row : ℕ} {run run' : TestRun ℚ} {tests : List Test}
    (h : run.HasRow config workers workload row) (htests : run'.tests = run.tests ++ tests) :
    run'.HasRow config workers workload row := by
  obtain ⟨test, htest, hstarted⟩ := h
  exact ⟨test, htests ▸ List.mem_append_left _ htest, hstarted⟩

/-- The way to a row, before a request size. -/
def TowardsRow (config : Config) (workers : List IoWorker) (workload : PreparedWorkload)
    (row reqsizeidx : ℕ) (run : TestRun ℚ) : Prop :=
  reqsizeidx ≤ row ∧ run.terminateReqsize = false ∧
      (∀ i < 3, run.reqsizeMinThroughput i ≤ reqsizeidx) ∨
    row < reqsizeidx ∧ run.HasRow config workers workload row

/-- The way through one of the rows before. -/
structure Passing (config : Config) (options : TestOptions) (workers : List IoWorker)
    (workload : PreparedWorkload) (reqsizeidx depthidx : ℕ) (run : TestRun ℚ) : Prop where
  clear : run.terminateReqsize = false
  minDepth : run.minDepthThroughput = reqsizeidx + 1
  minReqsize : ∀ i < 3, run.reqsizeMinThroughput i ≤ reqsizeidx
  going : run.terminateDepth = false →
    (∀ i < depthidx, workload.room config workers reqsizeidx i = true ∧
      ¬workload.Traps reqsizeidx i) ∧
    (∀ i < 3, i < depthidx → run.depthThroughput i = reqsizeidx + 1) ∧
    (options.autoTerminateDepth = true → depthidx ≤ 3)

/-- The way to a row, before a queue depth. -/
def TowardsTest (config : Config) (options : TestOptions) (workers : List IoWorker)
    (workload : PreparedWorkload) (row reqsizeidx depthidx : ℕ) (run : TestRun ℚ) : Prop :=
  reqsizeidx < row ∧ Passing config options workers workload reqsizeidx depthidx run ∨
    reqsizeidx = row ∧ depthidx = 0 ∧ run.terminateReqsize = false ∧
      run.terminateDepth = false ∨
    row ≤ reqsizeidx ∧ run.HasRow config workers workload row ∧
      (run.terminateReqsize = true → workload.reqsizes.length ≤ reqsizeidx)

theorem Passing.step {row reqsizeidx depthidx : ℕ} {run : TestRun ℚ}
    {outcome : Outcome (TestRun ℚ)} (hlt : reqsizeidx < workload.reqsizes.length)
    (hpasses : workload.Passes config options workers reqsizeidx)
    (h : Passing config options workers workload reqsizeidx depthidx run)
    (hclear : run.terminateDepth = false)
    (hnext : DepthNext config options workers workload rising reqsizeidx depthidx run outcome) :
    outcome.Ends (Passing config options workers workload reqsizeidx (depthidx + 1))
      (TestRun.HasRow config workers workload row) fun _ => False := by
  obtain ⟨hall, hring, hdepth⟩ := h.going hclear
  cases hnext with
  | exhausted hend =>
    have hle : workload.depths.length ≤ depthidx := by omega
    exact ⟨by simp [h.clear, hlt], h.minDepth, h.minReqsize, fun hset => by simp [hle] at hset⟩
  | traps _ hdepthidx htraps =>
    obtain ⟨hauto, hfour⟩ := hpasses depthidx hdepthidx hall htraps
    have := hdepth hauto
    omega
  | unfit => exact ⟨h.clear, h.minDepth, h.minReqsize, nofun⟩
  | test test _ _ hdepthidx htraps hroom _ _ =>
    have hmin : minTests = 3 := rfl
    have hring' : ∀ i < 3, i < depthidx + 1 →
        Function.update run.depthThroughput (depthidx % minTests)
          ((reqsizeidx : ℚ) + 1) i = reqsizeidx + 1 := fun i hi hi' => by
      rw [Function.update_apply]
      split
      · rfl
      · rename_i hne
        rw [hmin] at hne
        exact hring i hi (by omega)
    refine ⟨h.clear, ?_, h.minReqsize, fun hgoing => ⟨fun i hi => ?_, hring', fun hauto => ?_⟩⟩
    · simp only [TestRun.record, rising, h.minDepth, lt_self_iff_false, or_false, ite_self]
    · rcases Nat.lt_succ_iff_lt_or_eq.mp hi with hlt' | rfl
      · exact hall i hlt'
      · exact ⟨hroom, htraps⟩
    · -- The fourth test of a row with constant throughput ends the row.
      by_contra hge
      have havg : average (Function.update run.depthThroughput (depthidx % minTests)
          ((reqsizeidx : ℚ) + 1)) = reqsizeidx + 1 :=
        average_of_eq fun i hi => hring' i hi (by omega)
      have hset : (run.terminateDepth || decide (minTests ≤ depthidx) &&
          decide ((reqsizeidx : ℚ) + 1 ≤ average (Function.update run.depthThroughput
            (depthidx % minTests) ((reqsizeidx : ℚ) + 1))) && options.autoTerminateDepth) =
          false := hgoing
      rw [havg, hauto, decide_eq_true (by omega : minTests ≤ depthidx)] at hset
      simp at hset

theorem TowardsTest.step {row reqsizeidx depthidx : ℕ} {run : TestRun ℚ}
    {outcome : Outcome (TestRun ℚ)} (hrow : workload.Starts config options workers row)
    (h : TowardsTest config options workers workload row reqsizeidx depthidx run)
    (hclear : run.terminateDepth = false)
    (hnext : DepthNext config options workers workload rising reqsizeidx depthidx run outcome) :
    outcome.Ends (TowardsTest config options workers workload row reqsizeidx (depthidx + 1))
      (TestRun.HasRow config workers workload row) fun _ => False := by
  obtain ⟨hlt, hpassing⟩ | ⟨rfl, rfl, hreqsize, _⟩ | ⟨hle, hhas, hreqsize⟩ := h
  · exact (hpassing.step (hlt.trans hrow.reqsizeidx_lt) (hrow.passes _ hlt) hclear hnext).mono
      (fun _ h => Or.inl ⟨hlt, h⟩) (fun _ => id) fun _ => id
  · have hlt := hrow.reqsizeidx_lt
    have hpos := hrow.depths_pos
    cases hnext with
    | exhausted hend => omega
    | traps _ _ htraps => exact absurd htraps hrow.not_traps
    | unfit _ _ _ _ hunfit =>
      rw [hrow.room] at hunfit
      cases hunfit
    | test test _ _ _ _ _ _ hstarted =>
      refine Or.inr (Or.inr ⟨Nat.le_refl _, ⟨test, List.mem_append_right _ List.mem_cons_self, 0,
        hstarted⟩, fun hset => ?_⟩)
      have hset' : run.terminateReqsize = true := hset
      rw [hreqsize] at hset'
      cases hset'
  · cases hnext with
    | exhausted hend =>
      refine Or.inr (Or.inr ⟨hle, hhas, fun hset => ?_⟩)
      rcases Bool.or_eq_true_iff.mp hset with hset' | hset'
      · exact hreqsize hset'
      · exact of_decide_eq_true hset'
    | traps => exact hhas
    | unfit => exact Or.inr (Or.inr ⟨hle, hhas, hreqsize⟩)
    | test test => exact Or.inr (Or.inr ⟨hle, hhas.mono rfl, hreqsize⟩)

/-- A row that is reached has its first test in some run. -/
theorem runTests_hasRow {row : ℕ} (hworkers : workers ≠ [])
    (hrow : workload.Starts config options workers row) :
    ∃ fuel, (runTests config options (prepareWorkloads workers workload) rising none
      fuel).state.HasRow config workers workload row := by
  refine ⟨workload.depths.length + workload.reqsizes.length + 2, ?_⟩
  have hends : (runTests config options (prepareWorkloads workers workload) rising none
      (workload.depths.length + workload.reqsizes.length + 2)).Ends
      (fun run => run.terminateReqsize = true ∧
        ∃ reqsizeidx, TowardsRow config workers workload row reqsizeidx run)
      (TestRun.HasRow config workers workload row) fun _ => False := by
    refine runTests_ends (J := TowardsTest config options workers workload row) hworkers
      (Or.inl (by omega)) (Or.inl ⟨Nat.zero_le _, rfl, fun _ _ => le_refl _⟩) ?_ ?_ ?_ ?_
    · rintro reqsizeidx run (⟨hle, _, hmin⟩ | ⟨hlt, hhas⟩) hclear
      · rcases Nat.lt_or_eq_of_le hle with hlt | heq
        · exact Or.inl ⟨hlt, hclear, rfl, hmin, fun _ => ⟨by omega, by omega, by omega⟩⟩
        · exact Or.inr (Or.inl ⟨heq, rfl, hclear, rfl⟩)
      · refine Or.inr (Or.inr ⟨Nat.le_of_lt hlt, hhas, fun hset => ?_⟩)
        have hset' : run.terminateReqsize = true := hset
        rw [hclear] at hset'
        cases hset'
    · rintro reqsizeidx depthidx run (⟨_, hpassing⟩ | ⟨_, _, hclear, _⟩ | ⟨_, _, hreqsize⟩) hset
      · rw [hpassing.clear] at hset
        cases hset
      · rw [hclear] at hset
        cases hset
      · exact hreqsize hset
    · exact fun _ _ _ _ h hclear hnext => h.step hrow hclear hnext
    · rintro reqsizeidx depthidx run (⟨hlt, hpassing⟩ | ⟨_, _, _, hclear⟩ | ⟨hle, hhas, _⟩) hset _
      · have havg := average_update_lt reqsizeidx hpassing.minReqsize
          (by linarith : (reqsizeidx : ℚ) < reqsizeidx + 1)
        refine Or.inl ⟨hlt, ?_, fun i hi => ?_⟩
        · simp [TestRun.endRow, hpassing.clear, hpassing.minDepth, not_le.mpr havg]
        · simp only [TestRun.endRow, hpassing.minDepth, Function.update_apply, Nat.cast_add,
            Nat.cast_one]
          split
          · exact le_refl _
          · have := hpassing.minReqsize i hi
            linarith
      · rw [hclear] at hset
        cases hset
      · exact Or.inr ⟨by omega, hhas⟩
  refine (hends.mono ?_ (fun _ h => h) fun _ h => h.elim).state
  rintro run ⟨hset, reqsizeidx, ⟨_, hclear, _⟩ | ⟨_, hhas⟩⟩
  · rw [hclear] at hset
    cases hset
  · exact hhas

/-- **Files that are big enough.** Whatever is measured, no thread is started on a file that is
smaller than the largest request of its generator, or on which the generator traps or leaves the
file, exactly when the files of all workers hold the largest request of each row of tests that is
reached and has room for its first test. -/
theorem no_small_file_iff (hworkers : workers ≠ []) :
    (∀ (measured : Measured ℚ) maxReqsize fuel,
      (runTests config options (prepareWorkloads workers workload) measured maxReqsize
        fuel).state.FitsFiles) ↔
      ∀ row, workload.Starts config options workers row →
        ∀ worker ∈ workers, workload.largest row ≤ worker.filesize := by
  constructor
  · intro hfits row hrow worker hworker
    obtain ⟨fuel, test, htest, depthidx, hstarted⟩ := runTests_hasRow hworkers hrow
    obtain ⟨thread, hthread, workload', depth, reqsize, hadmitted⟩ := hstarted.2
      (prepareWorkload worker (some workload.templateGenerator) workload.reqsizes workload.depths)
      (List.mem_map_of_mem hworker) nofun
    have hle : workloads.maxIoSize thread.generator ≤ thread.worker.filesize :=
      (hfits rising none fuel test htest thread hthread).fits
    obtain rfl : workload = workload' := by simpa [prepareWorkload] using hadmitted.workload_eq
    have hreqsize : workload.reqsize row = reqsize := by
      simp [PreparedWorkload.reqsize, hadmitted.reqsize_eq]
    rwa [Factory.maxIoSize_of_reset hadmitted.reset_eq, hadmitted.worker_eq, ← hreqsize] at hle
  · exact fun hfile measured maxReqsize fuel => runTests_fitsFiles hworkers hfile

end Reached

/-- The worker of `-f a.dat;1G` once its file has been created. -/
def gigabyteWorker : IoWorker :=
  openWorker (createWorker defaultBufsize 1073741824 (0 - 1)) 1073741824 true

/-- A file of 1 GiB holds the requests of `-r 64K,1M`. -/
theorem no_small_file_gigabyte : gigabyteWorker.filesize = 1073741824 ∧
    ∀ (measured : Measured ℚ) maxReqsize fuel,
      (runTests ⟨true, .linux, 4096, true⟩ ⟨true, true, none⟩
        (prepareWorkloads [gigabyteWorker] ⟨.random true, [65536, 1048576], [1, 4]⟩) measured
        maxReqsize fuel).state.FitsFiles := by
  refine ⟨rfl, (no_small_file_iff (by decide)).mpr fun row hrow => ?_⟩
  have hall : ∀ row < 2, ∀ worker ∈ [gigabyteWorker],
      PreparedWorkload.largest ⟨.random true, [65536, 1048576], [1, 4]⟩ row ≤
        worker.filesize := by decide
  exact hall row hrow.reqsizeidx_lt

/-- The worker of `-f a.dat;4096` when there is a file of that length. -/
def pageWorkers : List IoWorker :=
  prepareFiles ⟨30000000, 300000000, false, false⟩
    (openWorkers (openLinuxFile (some 4096)) none (parseOptions [.files [⟨4096, 0⟩]]).workers ()).1
    fun _ => ⟨1, 0, ⟨0, .zero, .zero, 0, 0, 2, 1⟩⟩

/-- With `-r 64K` random writes are started on it, and the first call divides by zero. -/
theorem small_file_started : ∃ test ∈ (runTests ⟨true, .linux, 4096, true⟩ ⟨false, false, none⟩
      (prepareWorkloads pageWorkers ⟨.random true, [65536], [1]⟩) rising none 3).state.tests,
    ∃ thread ∈ test.threads, ¬thread.FitsFile ∧
      workloads.fillRequest thread.generator thread.worker.filesize 1 = none := by
  refine ⟨_, List.mem_cons_self, _, List.mem_cons_self, ?_, rfl⟩
  have hlarger : ¬(65536 : UInt64) ≤ 4096 := by decide
  exact hlarger

end DiskBench
