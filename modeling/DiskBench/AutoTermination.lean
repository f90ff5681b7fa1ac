import Mathlib.Algebra.BigOperators.Intervals
import Mathlib.Tactic.Linarith
import DiskBench.Foundations.MovingWindow
import DiskBench.RequestedTests
import DiskBench.SmallFiles

/-!
# The automatic end of rows of tests

With automatic termination a row of tests ends when a throughput is not above the average of the
last three, itself among them, and the rows end when the same holds of the least and of the greatest
throughput of a row. In exact arithmetic this compares twice the last value with the sum of the two
before it.
-/

namespace DiskBench

open ForLoop MovingWindow

/-- A value behind at least three others whose double is at most the sum of the two before it. -/
def flattens (x : ℕ → ℚ) (i : ℕ) : Bool :=
  decide (3 ≤ i) && decide (2 * x i ≤ x (i - 1) + x (i - 2))

section Table

variable (table : ℕ → ℕ → ℚ) (reqsizes depths : ℕ)

/-- The last depth of a row: the first that flattens, or the last of all depths. -/
def lastDepth (reqsizeidx : ℕ) : ℕ := firstOrLast (flattens (table reqsizeidx)) depths

/-- The least throughput of a row. -/
def rowLeast (reqsizeidx : ℕ) : ℚ := least (table reqsizeidx) (lastDepth table depths reqsizeidx)

/-- The greatest throughput of a row. -/
def rowGreatest (reqsizeidx : ℕ) : ℚ :=
  greatest (table reqsizeidx) (lastDepth table depths reqsizeidx)

/-- A row whose least and whose greatest throughput flatten. -/
def rowFlattens (reqsizeidx : ℕ) : Bool :=
  flattens (rowLeast table depths) reqsizeidx && flattens (rowGreatest table depths) reqsizeidx

/-- The last row: the first that flattens, or the row of the last request size. -/
def lastReqsize : ℕ := firstOrLast (rowFlattens table depths) reqsizes

/-- The tests of a row: all depths up to the last one of the row. -/
def executedRow (reqsizeidx : ℕ) : List (ℕ × ℕ) :=
  ((List.range depths).take (lastDepth table depths reqsizeidx + 1)).map
    fun depthidx => (reqsizeidx, depthidx)

/-- The tests that are executed: the rows of all request sizes up to the last row. -/
def executed : List (ℕ × ℕ) :=
  ((List.range reqsizes).take (lastReqsize table reqsizes depths + 1)).flatMap
    (executedRow table depths)

end Table

/-- Where the array holds the last three values, the comparison with its average is this rule. -/
theorem flattens_eq {ring x : ℕ → ℚ} {i : ℕ} (h : Window minTests ring x (i + 1)) :
    (decide (minTests ≤ i) && decide (x i ≤ average ring)) = flattens x i := by
  unfold flattens minTests
  by_cases hi : 3 ≤ i
  · obtain ⟨j, rfl⟩ := Nat.exists_eq_add_of_le' hi
    have hsum := h.sum_eq (by unfold minTests; omega)
    unfold minTests at hsum
    rw [Finset.sum_Ico_eq_sum_range] at hsum
    have hfirst : j + 3 + 1 - 3 = j + 1 := by omega
    have hcount : j + 3 + 1 - (j + 1) = 3 := by omega
    rw [hfirst, hcount] at hsum
    simp only [Finset.sum_range_succ, Finset.sum_range_zero, zero_add, Nat.add_assoc,
      Nat.reduceAdd, Nat.add_zero] at hsum
    have hrule : x (j + 3) ≤ average ring ↔ 2 * x (j + 3) ≤ x (j + 3 - 1) + x (j + 3 - 2) := by
      have hone : j + 3 - 1 = j + 2 := by omega
      have htwo : j + 3 - 2 = j + 1 := by omega
      rw [average_eq, hsum, hone, htwo]
      constructor <;> intro hle <;> linarith
    simp only [hrule]
  · simp [hi]

section Run

variable {config : Config} {options : TestOptions} {workers : List IoWorker}
  {workload : PreparedWorkload} {measured : Measured ℚ}

/-- The rows before a row. -/
def rowsBefore (table : ℕ → ℕ → ℚ) (depths n : ℕ) : List (ℕ × ℕ) :=
  (List.range n).flatMap (executedRow table depths)

theorem rowsBefore_succ (table : ℕ → ℕ → ℚ) (depths n : ℕ) :
    rowsBefore table depths (n + 1) =
      rowsBefore table depths n ++ executedRow table depths n := by
  simp [rowsBefore, List.range_succ]

/-- A row of tests that ends at a depth. -/
theorem executedRow_of_last {table : ℕ → ℕ → ℚ} {depths reqsizeidx depthidx : ℕ}
    (hlast : lastDepth table depths reqsizeidx = depthidx) (hlt : depthidx < depths) :
    executedRow table depths reqsizeidx =
      (List.range (depthidx + 1)).map fun i => (reqsizeidx, i) := by
  rw [executedRow, hlast, List.take_range, Nat.min_eq_left hlt]

/-- The rows that end at a request size. -/
theorem executed_of_last {table : ℕ → ℕ → ℚ} {reqsizes depths reqsizeidx : ℕ}
    (hlast : lastReqsize table reqsizes depths = reqsizeidx) (hlt : reqsizeidx < reqsizes) :
    executed table reqsizes depths = rowsBefore table depths (reqsizeidx + 1) := by
  rw [executed, hlast, List.take_range, Nat.min_eq_left hlt, rowsBefore]

/-- The rows of all request sizes, when none of them but the last flattens. -/
theorem executed_of_all {table : ℕ → ℕ → ℚ} {reqsizes depths : ℕ}
    (hnone : ∀ i < reqsizes, rowFlattens table depths i = false) :
    executed table reqsizes depths = rowsBefore table depths reqsizes := by
  rcases Nat.eq_zero_or_pos reqsizes with rfl | hpos
  · simp [executed, rowsBefore]
  · obtain ⟨n, rfl⟩ := Nat.exists_eq_add_of_le' hpos
    exact executed_of_last (firstOrLast_eq (Nat.lt_succ_self n)
      (fun j hj => hnone j (by omega)) (Or.inr rfl)) (Nat.lt_succ_self n)

/-- What the variables of a row say after the tests of the depths below `depthidx`. -/
structure Measuring (x : ℕ → ℚ) (depthidx : ℕ) (run : TestRun ℚ) : Prop where
  window : Window minTests run.depthThroughput x depthidx
  least : ∀ i, i + 1 = depthidx → run.minDepthThroughput = least x i
  greatest : ∀ i, i + 1 = depthidx → run.maxDepthThroughput = greatest x i

/-- What the variables of the rows say after the request sizes below `reqsizeidx`. -/
structure RowsMeasured (table : ℕ → ℕ → ℚ) (depths reqsizeidx : ℕ) (run : TestRun ℚ) : Prop where
  mins : Window minTests run.reqsizeMinThroughput (rowLeast table depths) reqsizeidx
  maxs : Window minTests run.reqsizeMaxThroughput (rowGreatest table depths) reqsizeidx

/-- Where the loop over the queue depths is: before a depth of a row, or at the end of a row. -/
inductive InRow (table : ℕ → ℕ → ℚ) (depths reqsizeidx depthidx : ℕ) (run : TestRun ℚ) : Prop
  | before (hclear : run.terminateDepth = false) (hle : depthidx ≤ depths)
      (hnone : ∀ i < depthidx, flattens (table reqsizeidx) i = false)
      (hmeasuring : Measuring (table reqsizeidx) depthidx run)
      (hpairs : run.pairs = rowsBefore table depths reqsizeidx ++
        (List.range depthidx).map fun i => (reqsizeidx, i))
  | ended (hset : run.terminateDepth = true)
      (hleast : run.minDepthThroughput = rowLeast table depths reqsizeidx)
      (hgreatest : run.maxDepthThroughput = rowGreatest table depths reqsizeidx)
      (hpairs : run.pairs = rowsBefore table depths (reqsizeidx + 1))

/-- Where the loops are: in a row for one of the request sizes, or after the last of them. -/
def AutoDepth (table : ℕ → ℕ → ℚ) (workload : PreparedWorkload) (reqsizeidx depthidx : ℕ)
    (run : TestRun ℚ) : Prop :=
  reqsizeidx < workload.reqsizes.length ∧ run.terminateReqsize = false ∧
      (∀ i < reqsizeidx, rowFlattens table workload.depths.length i = false) ∧
      RowsMeasured table workload.depths.length reqsizeidx run ∧
      InRow table workload.depths.length reqsizeidx depthidx run ∨
    reqsizeidx = workload.reqsizes.length ∧
      run.pairs = executed table workload.reqsizes.length workload.depths.length

/-- Where the loop over the request sizes is. -/
def AutoRow (table : ℕ → ℕ → ℚ) (workload : PreparedWorkload) (reqsizeidx : ℕ)
    (run : TestRun ℚ) : Prop :=
  run.terminateReqsize = false ∧ reqsizeidx ≤ workload.reqsizes.length ∧
      (∀ i < reqsizeidx, rowFlattens table workload.depths.length i = false) ∧
      RowsMeasured table workload.depths.length reqsizeidx run ∧
      run.pairs = rowsBefore table workload.depths.length reqsizeidx ∨
    run.terminateReqsize = true ∧
      run.pairs = executed table workload.reqsizes.length workload.depths.length

/-- A test takes its throughput up. -/
theorem Measuring.record {x : ℕ → ℚ} {depthidx : ℕ} {run : TestRun ℚ}
    (h : Measuring x depthidx run) (options : TestOptions) (test : Test) :
    Measuring x (depthidx + 1) (run.record options depthidx (x depthidx) test) := by
  refine ⟨h.window.next, ?_, ?_⟩
  · rintro i hi
    obtain rfl : i = depthidx := by omega
    simp only [TestRun.record]
    cases i with
    | zero => simp
    | succ i =>
      rw [least_succ, h.least i rfl]
      simp only [Nat.add_eq_zero_iff, one_ne_zero, and_false, false_or]
      split
      next hlt => exact (min_eq_left hlt.le).symm
      next hlt => exact (min_eq_right (not_lt.mp hlt)).symm
  · rintro i hi
    obtain rfl : i = depthidx := by omega
    simp only [TestRun.record]
    cases i with
    | zero => simp
    | succ i =>
      rw [greatest_succ, h.greatest i rfl]
      simp only [Nat.add_eq_zero_iff, one_ne_zero, and_false, false_or]
      split
      next hlt => exact (max_eq_left hlt.le).symm
      next hlt => exact (max_eq_right (not_lt.mp hlt)).symm

/-- The variables of a row at its last depth. -/
theorem InRow.of_last {table : ℕ → ℕ → ℚ} {depths reqsizeidx depthidx next : ℕ}
    {run : TestRun ℚ} (hset : run.terminateDepth = true) (hlt : depthidx < depths)
    (hlast : lastDepth table depths reqsizeidx = depthidx)
    (hmeasuring : Measuring (table reqsizeidx) (depthidx + 1) run)
    (hpairs : run.pairs = rowsBefore table depths reqsizeidx ++
      (List.range (depthidx + 1)).map fun i => (reqsizeidx, i)) :
    InRow table depths reqsizeidx next run := by
  refine .ended hset ?_ ?_ ?_
  · rw [hmeasuring.least depthidx rfl, rowLeast, hlast]
  · rw [hmeasuring.greatest depthidx rfl, rowGreatest, hlast]
  · rw [hpairs, rowsBefore_succ, executedRow_of_last hlast hlt]

/-- One pass of the loop over the queue depths. -/
theorem AutoDepth.step {reqsizeidx depthidx : ℕ} {run : TestRun ℚ} {outcome : Outcome (TestRun ℚ)}
    (hauto : options.autoTerminateDepth = true) (hdepths : 0 < workload.depths.length)
    (hfits : ∀ i < workload.reqsizes.length, ∀ j < workload.depths.length,
      ¬workload.Traps i j ∧ workload.room config workers i j = true)
    (h : AutoDepth measured.throughput workload reqsizeidx depthidx run)
    (hclear : run.terminateDepth = false)
    (hnext : DepthNext config options workers workload measured reqsizeidx depthidx run outcome) :
    outcome.Ends (AutoDepth measured.throughput workload reqsizeidx (depthidx + 1))
      (fun _ => False) fun _ => False := by
  obtain ⟨hlt, hreqsize, hrows, hmeasured, hrow⟩ | ⟨hlast, hpairs⟩ := h
  · cases hrow with
    | ended hset =>
      rw [hset] at hclear
      cases hclear
    | before _ hle hnone hmeasuring hpairs =>
      cases hnext with
      | exhausted hend =>
        obtain ⟨last, hlast⟩ := Nat.exists_eq_add_of_le' hdepths
        obtain rfl : depthidx = last + 1 := by omega
        have hlastDepth : lastDepth measured.throughput workload.depths.length reqsizeidx = last :=
          firstOrLast_eq (by omega) (fun j hj => hnone j (by omega)) (Or.inr hlast.symm)
        refine Or.inl ⟨hlt, by simp [hreqsize, hlt], hrows, ⟨hmeasured.mins, hmeasured.maxs⟩, ?_⟩
        exact InRow.of_last (by simp [hlast]) (by omega) hlastDepth
          ⟨hmeasuring.window, hmeasuring.least, hmeasuring.greatest⟩ hpairs
      | traps _ hdepthidx htraps => exact (hfits _ hlt _ hdepthidx).1 htraps
      | unfit _ _ hdepthidx _ hroom =>
        rw [(hfits _ hlt _ hdepthidx).2] at hroom
        cases hroom
      | test test maxReqsize _ hdepthidx _ _ htest _ =>
        have hmeasuring' : Measuring (measured.throughput reqsizeidx) depthidx
            { run with hasWorkload := true, maxReqsize := maxReqsize } :=
          ⟨hmeasuring.window, hmeasuring.least, hmeasuring.greatest⟩
        have hnextMeasuring := hmeasuring'.record options test
        have hnextPairs : (({ run with hasWorkload := true, maxReqsize := maxReqsize }).record
            options depthidx (measured.throughput reqsizeidx depthidx) test).pairs =
            rowsBefore measured.throughput workload.depths.length reqsizeidx ++
              (List.range (depthidx + 1)).map fun i => (reqsizeidx, i) := by
          rw [TestRun.pairs_of_tests rfl hpairs, List.range_succ, List.map_append, htest.1, htest.2,
            List.append_assoc]
          rfl
        have hflag : (({ run with hasWorkload := true, maxReqsize := maxReqsize }).record
            options depthidx (measured.throughput reqsizeidx depthidx) test).terminateDepth =
            flattens (measured.throughput reqsizeidx) depthidx := by
          rw [← flattens_eq hnextMeasuring.window]
          simp only [TestRun.record, hclear, hauto, Bool.false_or, Bool.and_true]
        refine Or.inl ⟨hlt, hreqsize, hrows, ⟨hmeasured.mins, hmeasured.maxs⟩, ?_⟩
        cases hflat : flattens (measured.throughput reqsizeidx) depthidx with
        | true =>
          exact InRow.of_last (hflag.trans hflat) hdepthidx
            (firstOrLast_eq hdepthidx hnone (Or.inl hflat)) hnextMeasuring hnextPairs
        | false =>
          refine .before (hflag.trans hflat) hdepthidx (fun i hi => ?_) hnextMeasuring hnextPairs
          rcases Nat.lt_succ_iff_lt_or_eq.mp hi with hbefore | rfl
          · exact hnone i hbefore
          · exact hflat
  · -- After the last request size no test is started.
    cases hnext with
    | exhausted _ => exact Or.inr ⟨hlast, hpairs⟩
    | traps hbefore => omega
    | unfit _ hbefore => omega
    | test _ _ hbefore => omega

/-- One pass of the loop over the request sizes ends a row. -/
theorem AutoDepth.endRow {reqsizeidx depthidx : ℕ} {table : ℕ → ℕ → ℚ} {run : TestRun ℚ}
    (hauto : options.autoTerminateRequest = true)
    (h : AutoDepth table workload reqsizeidx depthidx run) (hset : run.terminateDepth = true)
    (hend : workload.reqsizes.length ≤ reqsizeidx → run.terminateReqsize = true) :
    AutoRow table workload (reqsizeidx + 1) (run.endRow options reqsizeidx) := by
  obtain ⟨hlt, hreqsize, hrows, hmeasured, hrow⟩ | ⟨hlast, hpairs⟩ := h
  · cases hrow with
    | before hclear =>
      rw [hclear] at hset
      cases hset
    | ended _ hleast hgreatest hpairs =>
      have hmins := hmeasured.mins.next
      have hmaxs := hmeasured.maxs.next
      rw [← hleast] at hmins
      rw [← hgreatest] at hmaxs
      have hflag : (run.endRow options reqsizeidx).terminateReqsize =
          rowFlattens table workload.depths.length reqsizeidx := by
        rw [rowFlattens, ← flattens_eq hmins, ← flattens_eq hmaxs, ← hleast, ← hgreatest]
        simp only [TestRun.endRow, hreqsize, hauto, Bool.false_or, Bool.and_true]
        cases decide (minTests ≤ reqsizeidx) <;> simp
      cases hflat : rowFlattens table workload.depths.length reqsizeidx with
      | true =>
        refine Or.inr ⟨hflag.trans hflat, ?_⟩
        rw [executed_of_last (firstOrLast_eq hlt hrows (Or.inl hflat)) hlt]
        exact hpairs
      | false =>
        refine Or.inl ⟨hflag.trans hflat, hlt, fun i hi => ?_, ⟨hmins, hmaxs⟩, hpairs⟩
        rcases Nat.lt_succ_iff_lt_or_eq.mp hi with hbefore | rfl
        · exact hrows i hbefore
        · exact hflat
  · exact Or.inr ⟨by simp [TestRun.endRow, hend (Nat.le_of_eq hlast.symm)], hpairs⟩

/-- Without depths no test is started. -/
theorem runTests_no_depths {maxReqsize : Option UInt64} {fuel : ℕ} (hworkers : workers ≠ [])
    (hdepths : workload.depths = [])
    (hfuel : workload.depths.length + workload.reqsizes.length + 1 < fuel) :
    ∃ run, runTests config options (prepareWorkloads workers workload) measured maxReqsize fuel =
      .done run ∧ run.pairs = [] := by
  have hends : (runTests config options (prepareWorkloads workers workload) measured maxReqsize
      fuel).Ends (fun run => run.terminateReqsize = true ∧ ∃ _ : ℕ, run.pairs = [])
      (fun _ => False) fun _ => False := by
    refine runTests_ends (I := fun _ run => run.pairs = [])
      (J := fun reqsizeidx _ run => run.pairs = [] ∧
        (run.terminateReqsize = true → workload.reqsizes.length ≤ reqsizeidx))
      hworkers (Or.inl hfuel) rfl ?_ (fun _ _ _ h => h.2) ?_ fun _ _ _ h _ _ => h.1
    · intro reqsizeidx run hpairs hclear
      refine ⟨hpairs, fun hset => ?_⟩
      rw [TestRun.startRow, hclear] at hset
      cases hset
    · rintro reqsizeidx depthidx run outcome ⟨hpairs, hlast⟩ _ hnext
      cases hnext with
      | exhausted =>
        refine ⟨hpairs, fun hset => ?_⟩
        simp only [Bool.or_eq_true, decide_eq_true_eq] at hset
        exact hset.elim hlast id
      | traps _ hlt => simp [hdepths] at hlt
      | unfit _ _ hlt => simp [hdepths] at hlt
      | test _ _ _ hlt => simp [hdepths] at hlt
  obtain ⟨run, hdone, _, _, hpairs⟩ := hends.done
  exact ⟨run, hdone, hpairs⟩

/-- **Automatic termination.** When all tests fit, `run_tests` ends, and it executes exactly the
tests of `executed`: the rows up to the first that flattens, each up to the first depth at which
its throughputs flatten. -/
theorem runTests_executed {maxReqsize : Option UInt64} {fuel : ℕ} (hworkers : workers ≠ [])
    (hautoDepth : options.autoTerminateDepth = true)
    (hautoRequest : options.autoTerminateRequest = true)
    (hfits : ∀ i < workload.reqsizes.length, ∀ j < workload.depths.length,
      ¬workload.Traps i j ∧ workload.room config workers i j = true)
    (hfuel : workload.depths.length + workload.reqsizes.length + 1 < fuel) :
    ∃ run, runTests config options (prepareWorkloads workers workload) measured maxReqsize fuel =
        .done run ∧
      run.pairs =
        executed measured.throughput workload.reqsizes.length workload.depths.length := by
  by_cases hdepths : workload.depths = []
  · obtain ⟨run, hdone, hpairs⟩ := @runTests_no_depths config options workers workload measured
      maxReqsize fuel hworkers hdepths hfuel
    refine ⟨run, hdone, ?_⟩
    simp [hpairs, hdepths, executed, executedRow]
  have hends : (runTests config options (prepareWorkloads workers workload) measured maxReqsize
      fuel).Ends (fun run => run.terminateReqsize = true ∧
        ∃ reqsizeidx, AutoRow measured.throughput workload reqsizeidx run)
      (fun _ => False) fun _ => False := by
    refine runTests_ends (J := AutoDepth measured.throughput workload) hworkers (Or.inl hfuel)
      (Or.inl ⟨rfl, Nat.zero_le _, by omega, ⟨.start _ _ _, .start _ _ _⟩, rfl⟩) ?_ ?_ ?_ ?_
    · rintro reqsizeidx run (⟨_, hle, hnone, hmeasured, hpairs⟩ | ⟨hset, _⟩) hclear
      · rcases Nat.lt_or_eq_of_le hle with hlt | rfl
        · refine Or.inl ⟨hlt, hclear, hnone, ⟨hmeasured.mins, hmeasured.maxs⟩,
            .before rfl (Nat.zero_le _) (by omega) ⟨.start _ _ _, by omega, by omega⟩ ?_⟩
          rw [List.range_zero, List.map_nil, List.append_nil]
          exact hpairs
        · refine Or.inr ⟨rfl, ?_⟩
          rw [executed_of_all hnone]
          exact hpairs
      · rw [hset] at hclear
        cases hclear
    · rintro reqsizeidx depthidx run (⟨_, hclear, _⟩ | ⟨heq, _⟩) hset
      · rw [hclear] at hset
        cases hset
      · exact Nat.le_of_eq heq.symm
    · exact fun reqsizeidx depthidx run outcome h hclear hnext =>
        h.step hautoDepth (List.length_pos_iff.mpr hdepths) hfits hclear hnext
    · exact fun reqsizeidx depthidx run h hset hend => h.endRow hautoRequest hset hend
  obtain ⟨run, hdone, hstop, _, ⟨hclear, _⟩ | ⟨_, hpairs⟩⟩ := hends.done
  · rw [hclear] at hstop
    cases hstop
  · exact ⟨run, hdone, hpairs⟩

end Run

/-- Sequential writes of six sizes with five depths. -/
def sixSizes : PreparedWorkload :=
  ⟨.sequential true, [512, 1024, 2048, 4096, 8192, 16384], [1, 2, 3, 4, 5]⟩

/-- A constant throughput: four rows of four tests. -/
theorem runTests_executed_constant : ∃ run : TestRun ℚ,
    runTests ⟨true, .linux, 4096, true⟩ ⟨true, true, none⟩
      (prepareWorkloads [wideWorker] sixSizes) ⟨fun _ _ => 1, fun _ => (0, 0)⟩ none 13 =
        .done run ∧
    run.pairs = [0, 1, 2, 3].flatMap fun reqsizeidx =>
      [0, 1, 2, 3].map fun depthidx => (reqsizeidx, depthidx) := by
  obtain ⟨run, hdone, hpairs⟩ := @runTests_executed ⟨true, .linux, 4096, true⟩ ⟨true, true, none⟩
    [wideWorker] sixSizes ⟨fun _ _ => 1, fun _ => (0, 0)⟩ none 13 (by decide) rfl rfl (by decide)
    (by decide)
  exact ⟨run, hdone, hpairs.trans (by decide +kernel)⟩

end DiskBench
