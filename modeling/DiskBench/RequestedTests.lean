import Mathlib.Algebra.Ring.Rat
import Mathlib.Data.List.TakeWhile
import DiskBench.TestRows

/-!
# Which tests are run

With explicit queue depths and request sizes no throughput ends a row of tests. A row then ends
at the first queue depth for which a buffer has no room, also when later depths of the array are
smaller.
-/

namespace DiskBench

open ForLoop

/-- The numbers from 0 up to the first one that fails. -/
theorem takeWhile_range_eq {p : ℕ → Bool} {n k : ℕ} (hk : k ≤ n) (hall : ∀ i < k, p i = true)
    (hend : k = n ∨ p k = false) : (List.range n).takeWhile p = List.range k := by
  obtain ⟨m, rfl⟩ := Nat.exists_eq_add_of_le hk
  have hself : (List.range k).takeWhile p = List.range k :=
    List.takeWhile_eq_self_iff.mpr fun i hi => hall i (List.mem_range.mp hi)
  rw [List.range_add, List.takeWhile_append, hself, if_pos rfl]
  cases m with
  | zero => simp
  | succ m =>
    have hfails : p k = false := hend.resolve_left (by omega)
    rw [List.range_succ_eq_map, List.map_cons, List.takeWhile_cons_of_neg (by simp [hfails]),
      List.append_nil]

theorem exists_takeWhile_range (p : ℕ → Bool) (n : ℕ) :
    ∃ k, k ≤ n ∧ (∀ i < k, p i = true) ∧ (k = n ∨ p k = false) := by
  induction n with
  | zero => exact ⟨0, Nat.le_refl _, by omega, Or.inl rfl⟩
  | succ n ih =>
    obtain ⟨k, hk, hall, hend⟩ := ih
    by_cases hlast : k = n ∧ p k = true
    · obtain ⟨rfl, htrue⟩ := hlast
      refine ⟨k + 1, Nat.le_refl _, fun i hi => ?_, Or.inl rfl⟩
      rcases Nat.lt_succ_iff_lt_or_eq.mp hi with hlt | rfl
      · exact hall i hlt
      · exact htrue
    · refine ⟨k, by omega, hall, Or.inr ?_⟩
      rcases hend with rfl | hfails
      · exact eq_false_of_ne_true fun htrue => hlast ⟨rfl, htrue⟩
      · exact hfails

/-- The numbers that meet a condition are those before the first failure of a stronger one when
and only when none of them comes after a failure. -/
theorem filter_range_eq_takeWhile_iff {p q : ℕ → Bool} {n : ℕ}
    (hpq : ∀ i < n, p i = true → q i = true) :
    (List.range n).filter q = (List.range n).takeWhile p ↔
      ∀ j < n, q j = true → ∀ i ≤ j, p i = true := by
  obtain ⟨k, hk, hall, hend⟩ := exists_takeWhile_range p n
  rw [takeWhile_range_eq hk hall hend]
  constructor
  · intro heq j hj hq i hi
    have hmem : j ∈ List.range k := heq ▸ List.mem_filter.mpr ⟨List.mem_range.mpr hj, hq⟩
    exact hall i (by have := List.mem_range.mp hmem; omega)
  · intro h
    obtain ⟨m, rfl⟩ := Nat.exists_eq_add_of_le hk
    rw [List.range_add, List.filter_append, List.filter_eq_self.mpr, List.filter_eq_nil_iff.mpr,
      List.append_nil]
    · intro j hj hq
      obtain ⟨i, hi, rfl⟩ := List.mem_map.mp hj
      have htrue := h (k + i) (by have := List.mem_range.mp hi; omega) hq k (by omega)
      rcases hend with hend | hend
      · have := List.mem_range.mp hi
        omega
      · rw [htrue] at hend
        cases hend
    · intro i hi
      have hlt := List.mem_range.mp hi
      exact hpq i (by omega) (hall i hlt)

variable {T : Type} {config : Config} {options : TestOptions} {workers : List IoWorker}
  {workload : PreparedWorkload}

/-- The index pairs of the tests that have been started. -/
def TestRun.pairs (run : TestRun T) : List (ℕ × ℕ) :=
  run.tests.map fun test => (test.reqsizeidx, test.depthidx)

/-- The tests of a row, as it ends at the first depth without room. -/
def PreparedWorkload.row (config : Config) (workers : List IoWorker) (workload : PreparedWorkload)
    (reqsizeidx : ℕ) : List (ℕ × ℕ) :=
  ((List.range workload.depths.length).takeWhile
    (workload.room config workers reqsizeidx)).map fun depthidx => (reqsizeidx, depthidx)

/-- The tests of the first `n` rows. -/
def PreparedWorkload.rows (config : Config) (workers : List IoWorker) (workload : PreparedWorkload)
    (n : ℕ) : List (ℕ × ℕ) :=
  (List.range n).flatMap (workload.row config workers)

theorem PreparedWorkload.rows_succ (n : ℕ) : workload.rows config workers (n + 1) =
    workload.rows config workers n ++ workload.row config workers n := by
  simp [rows, List.range_succ]

/-- A test adds its pair. -/
theorem TestRun.pairs_of_tests {run run' : TestRun T} {test : Test} {pairs : List (ℕ × ℕ)}
    (htests : run'.tests = run.tests ++ [test]) (hpairs : run.pairs = pairs) :
    run'.pairs = pairs ++ [(test.reqsizeidx, test.depthidx)] := by
  rw [← hpairs, TestRun.pairs, htests, List.map_append]
  rfl

/-- Where the loop over the queue depths is: in a row for one of the request sizes, or after the
last of them. -/
def AtDepth (config : Config) (workers : List IoWorker) (workload : PreparedWorkload)
    (reqsizeidx depthidx : ℕ) (run : TestRun T) : Prop :=
  reqsizeidx < workload.reqsizes.length ∧ run.terminateReqsize = false ∧
      (run.terminateDepth = false ∧ depthidx ≤ workload.depths.length ∧
          (∀ i < depthidx, workload.room config workers reqsizeidx i = true) ∧
          run.pairs = workload.rows config workers reqsizeidx ++
            (List.range depthidx).map (fun i => (reqsizeidx, i)) ∨
        run.terminateDepth = true ∧ run.pairs = workload.rows config workers (reqsizeidx + 1)) ∨
    reqsizeidx = workload.reqsizes.length ∧
      run.pairs = workload.rows config workers workload.reqsizes.length

/-- Where the loop over the request sizes is. -/
def AtRow (config : Config) (workers : List IoWorker) (workload : PreparedWorkload)
    (reqsizeidx : ℕ) (run : TestRun T) : Prop :=
  run.terminateReqsize = false ∧ reqsizeidx ≤ workload.reqsizes.length ∧
      run.pairs = workload.rows config workers reqsizeidx ∨
    run.terminateReqsize = true ∧
      run.pairs = workload.rows config workers workload.reqsizes.length

variable [Zero T] [Add T] [Div T] [NatCast T] [LT T] [LE T] [DecidableLT T] [DecidableLE T]

theorem AtDepth.step {measured : Measured T} {reqsizeidx depthidx : ℕ} {run : TestRun T}
    {outcome : Outcome (TestRun T)} (hauto : options.autoTerminateDepth = false)
    (htraps : ∀ i < workload.reqsizes.length, ∀ j < workload.depths.length, ¬workload.Traps i j)
    (h : AtDepth config workers workload reqsizeidx depthidx run)
    (hclear : run.terminateDepth = false)
    (hnext : DepthNext config options workers workload measured reqsizeidx depthidx run outcome) :
    outcome.Ends (AtDepth config workers workload reqsizeidx (depthidx + 1)) (fun _ => False)
      fun _ => False := by
  obtain ⟨hreqsizeidx, hreqsize, ⟨_, hle, hroom, hpairs⟩ | ⟨hset, _⟩⟩ | ⟨hlast, hpairs⟩ := h
  · have hrow : depthidx = workload.depths.length ∨
        workload.room config workers reqsizeidx depthidx = false →
        run.pairs = workload.rows config workers (reqsizeidx + 1) := fun hend => by
      rw [hpairs, PreparedWorkload.rows_succ, PreparedWorkload.row,
        takeWhile_range_eq hle hroom hend]
    cases hnext with
    | exhausted hend =>
      have hlength : workload.depths.length = depthidx := by omega
      exact Or.inl ⟨hreqsizeidx, by simp [hreqsize, hreqsizeidx],
        Or.inr ⟨by simp [hlength], hrow (Or.inl hlength.symm)⟩⟩
    | traps _ hdepthidx htrap => exact htraps _ hreqsizeidx _ hdepthidx htrap
    | unfit _ _ _ _ hunfit =>
      exact Or.inl ⟨hreqsizeidx, hreqsize, Or.inr ⟨rfl, hrow (Or.inr hunfit)⟩⟩
    | test test _ _ hdepthidx _ hfits htest _ =>
      refine Or.inl ⟨hreqsizeidx, hreqsize, Or.inl ⟨by simp [TestRun.record, hauto, hclear],
        hdepthidx, fun i hi => ?_, ?_⟩⟩
      · rcases Nat.lt_succ_iff_lt_or_eq.mp hi with hlt | rfl
        · exact hroom i hlt
        · exact hfits
      · rw [TestRun.pairs_of_tests rfl hpairs, List.range_succ, List.map_append, htest.1, htest.2,
          List.append_assoc]
        rfl
  · rw [hset] at hclear
    cases hclear
  · -- After the last request size no test is started.
    cases hnext with
    | exhausted _ => exact Or.inr ⟨hlast, hpairs⟩
    | traps hlt => omega
    | unfit _ hlt => omega
    | test _ _ hlt => omega

/-- With explicit request sizes and depths `run_tests` ends, after one row of tests for each
request size. -/
theorem runTests_rows {measured : Measured T} {maxReqsize : Option UInt64} {fuel : ℕ}
    (hworkers : workers ≠ []) (hauto : options.autoTerminateDepth = false)
    (hautoRequest : options.autoTerminateRequest = false)
    (htraps : ∀ i < workload.reqsizes.length, ∀ j < workload.depths.length, ¬workload.Traps i j)
    (hfuel : workload.depths.length + workload.reqsizes.length + 1 < fuel) :
    ∃ run, runTests config options (prepareWorkloads workers workload) measured maxReqsize fuel =
        .done run ∧
      run.pairs = workload.rows config workers workload.reqsizes.length := by
  have hends : (runTests config options (prepareWorkloads workers workload) measured maxReqsize
      fuel).Ends (fun run => run.terminateReqsize = true ∧
        ∃ reqsizeidx, AtRow config workers workload reqsizeidx run)
      (fun _ => False) fun _ => False := by
    refine runTests_ends (J := AtDepth config workers workload) hworkers (Or.inl hfuel)
      (Or.inl ⟨rfl, Nat.zero_le _, rfl⟩) ?_ ?_ ?_ ?_
    · rintro reqsizeidx run (⟨_, hle, hpairs⟩ | ⟨hset, _⟩) hclear
      · rcases Nat.lt_or_eq_of_le hle with hlt | heq
        · refine Or.inl ⟨hlt, hclear, Or.inl ⟨rfl, Nat.zero_le _, by omega, ?_⟩⟩
          rw [List.range_zero, List.map_nil, List.append_nil]
          exact hpairs
        · exact Or.inr ⟨heq, heq ▸ hpairs⟩
      · rw [hset] at hclear
        cases hclear
    · rintro reqsizeidx depthidx run (⟨_, hclear, _⟩ | ⟨heq, _⟩) hset
      · rw [hclear] at hset
        cases hset
      · exact Nat.le_of_eq heq.symm
    · exact fun reqsizeidx depthidx run outcome h hclear hnext =>
        h.step hauto htraps hclear hnext
    · rintro reqsizeidx depthidx run (⟨hlt, hclear, ⟨hset, _⟩ | ⟨_, hpairs⟩⟩ | ⟨heq, hpairs⟩) hstop
        hlast
      · rw [hset] at hstop
        cases hstop
      · exact Or.inl ⟨by simp [TestRun.endRow, hclear, hautoRequest], hlt, hpairs⟩
      · exact Or.inr ⟨by simp [TestRun.endRow, hlast (Nat.le_of_eq heq.symm)], hpairs⟩
  obtain ⟨run, hdone, hstop, _, ⟨hclear, _⟩ | ⟨_, hpairs⟩⟩ := hends.done
  · rw [hclear] at hstop
    cases hstop
  · exact ⟨run, hdone, hpairs⟩

/-- The whole pages of a worker's buffer that each of `depth` requests can have. -/
def bufferShare (config : Config) (worker : IoWorker) (depth : UInt32) : ℕ :=
  let share := worker.bufsize.toNat / depth.toNat
  share - share % config.pageSize.toNat

/-- The requests of a test fit into the buffers of all workers. -/
def PreparedWorkload.fits (config : Config) (workers : List IoWorker)
    (workload : PreparedWorkload) (reqsizeidx depthidx : ℕ) : Bool :=
  workers.all fun worker => decide
    ((workload.reqsize reqsizeidx).toNat ≤
      bufferShare config worker (workload.depths.getD depthidx 0))

/-- The tests that are asked for: every pair of a request size and a depth that fits, in the order
of the arrays. -/
def PreparedWorkload.requested (config : Config) (workers : List IoWorker)
    (workload : PreparedWorkload) : List (ℕ × ℕ) :=
  (List.range workload.reqsizes.length).flatMap fun reqsizeidx =>
    ((List.range workload.depths.length).filter (workload.fits config workers reqsizeidx)).map
      fun depthidx => (reqsizeidx, depthidx)

/-- Rounding down to whole pages is monotone. -/
theorem sub_mod_le_sub_mod {a b : ℕ} (h : a ≤ b) (n : ℕ) : a - a % n ≤ b - b % n := by
  have ha := Nat.div_add_mod a n
  have hb := Nat.div_add_mod b n
  have hdiv : n * (a / n) ≤ n * (b / n) := Nat.mul_le_mul_left _ (Nat.div_le_div_right h)
  omega

/-- As the divisor of a buffer size a depth is not smaller than the entry of the array. -/
theorem toNat_le_toUInt64 (depth : UInt32) :
    depth.toNat ≤ depth.toInt32.toInt64.toUInt64.toNat := by
  rw [toNat_signExtend]
  split <;> omega

/-- A request that the test of `run_tests` admits fits into the share of the buffer. -/
theorem le_bufferShare_of_admits {worker : IoWorker} {depth : UInt32} {reqsize : UInt64}
    (hdepth : depth ≠ 0) (h : admits config worker depth.toInt32 reqsize = true) :
    reqsize.toNat ≤ bufferShare config worker depth := by
  have hpos : 0 < depth.toNat := Nat.pos_of_ne_zero fun hzero => hdepth (UInt32.toNat_inj.mp hzero)
  have hshare := Nat.div_le_div_left (a := worker.bufsize.toNat) (toNat_le_toUInt64 depth) hpos
  exact (admits_iff.mp h).trans (sub_mod_le_sub_mod hshare _)

/-- A sequential or random workload with entries of at least 1 in its arrays. -/
structure PreparedWorkload.Explicit (workload : PreparedWorkload) : Prop where
  not_mixed : ∀ randomProb sequentialProb,
    workload.templateGenerator ≠ .mixed randomProb sequentialProb
  reqsizes_pos : ∀ reqsize ∈ workload.reqsizes, 1 ≤ reqsize
  depths_pos : ∀ depth ∈ workload.depths, 1 ≤ depth

theorem PreparedWorkload.Explicit.depth_ne {depthidx : ℕ} (h : workload.Explicit)
    (hdepthidx : depthidx < workload.depths.length) : workload.depths.getD depthidx 0 ≠ 0 := by
  have hpos := h.depths_pos _ (List.mem_of_getElem? (getElem?_eq_some_getD hdepthidx 0))
  intro hzero
  rw [hzero] at hpos
  exact absurd hpos (by decide)

theorem PreparedWorkload.Explicit.largest_eq (h : workload.Explicit) (reqsizeidx : ℕ) :
    workload.largest reqsizeidx = workload.reqsize reqsizeidx := by
  unfold largest
  cases hfactory : workload.templateGenerator with
  | sequential write => rfl
  | random write => rfl
  | mixed randomProb sequentialProb => exact absurd hfactory (h.not_mixed _ _)

/-- The check of the workers does not trap. -/
theorem PreparedWorkload.Explicit.not_traps {reqsizeidx depthidx : ℕ} (h : workload.Explicit)
    (hreqsizeidx : reqsizeidx < workload.reqsizes.length)
    (hdepthidx : depthidx < workload.depths.length) : ¬workload.Traps reqsizeidx depthidx := by
  rintro (hresets | hzero)
  · have hpos := h.reqsizes_pos _ (List.mem_of_getElem? (getElem?_eq_some_getD hreqsizeidx 0))
    have hne : workload.reqsize reqsizeidx ≠ 0 := by
      intro hzero
      rw [reqsize] at hzero
      rw [hzero] at hpos
      exact absurd hpos (by decide)
    cases hfactory : workload.templateGenerator with
    | sequential write => simp [hfactory, Factory.resets, Factory.reset] at hresets
    | random write => simp [hfactory, Factory.resets, Factory.reset, randomReset, hne] at hresets
    | mixed randomProb sequentialProb => exact h.not_mixed _ _ hfactory
  · exact h.depth_ne hdepthidx (congrArg Int32.toUInt32 hzero)

/-- A test for which there is room fits. -/
theorem PreparedWorkload.Explicit.fits_of_room {reqsizeidx depthidx : ℕ} (h : workload.Explicit)
    (hdepthidx : depthidx < workload.depths.length)
    (hroom : workload.room config workers reqsizeidx depthidx = true) :
    workload.fits config workers reqsizeidx depthidx = true := by
  rw [room, List.all_eq_true] at hroom
  rw [fits, List.all_eq_true]
  intro worker hworker
  have hadmits := hroom worker hworker
  rw [h.largest_eq] at hadmits
  exact decide_eq_true (le_bufferShare_of_admits (h.depth_ne hdepthidx) hadmits)

/-- The rows of tests are the requested tests when and only when no fitting depth comes after one
for which a buffer has no room. -/
theorem PreparedWorkload.Explicit.rows_eq_requested_iff (h : workload.Explicit) :
    workload.rows config workers workload.reqsizes.length = workload.requested config workers ↔
      ∀ reqsizeidx < workload.reqsizes.length, ∀ depthidx < workload.depths.length,
        workload.fits config workers reqsizeidx depthidx = true →
          ∀ i ≤ depthidx, workload.room config workers reqsizeidx i = true := by
  have hrow : ∀ reqsizeidx,
      ((List.range workload.depths.length).filter (workload.fits config workers reqsizeidx) =
        (List.range workload.depths.length).takeWhile
          (workload.room config workers reqsizeidx) ↔ _) :=
    fun reqsizeidx => filter_range_eq_takeWhile_iff fun i hi => h.fits_of_room hi
  constructor
  · intro heq reqsizeidx hreqsizeidx depthidx hdepthidx hfits i hi
    have hmem : (reqsizeidx, depthidx) ∈ workload.requested config workers :=
      List.mem_flatMap.mpr ⟨reqsizeidx, List.mem_range.mpr hreqsizeidx, List.mem_map.mpr
        ⟨depthidx, List.mem_filter.mpr ⟨List.mem_range.mpr hdepthidx, hfits⟩, rfl⟩⟩
    rw [← heq] at hmem
    obtain ⟨reqsizeidx', _, hrows⟩ := List.mem_flatMap.mp hmem
    obtain ⟨depthidx', htake, hpair⟩ := List.mem_map.mp hrows
    obtain ⟨rfl, rfl⟩ := Prod.mk.injEq .. ▸ hpair
    obtain ⟨k, hk, hall, hend⟩ :=
      exists_takeWhile_range (workload.room config workers reqsizeidx') workload.depths.length
    rw [takeWhile_range_eq hk hall hend, List.mem_range] at htake
    exact hall i (by omega)
  · intro hfits
    have hrows : ∀ reqsizeidx ∈ List.range workload.reqsizes.length,
        workload.row config workers reqsizeidx =
          ((List.range workload.depths.length).filter
            (workload.fits config workers reqsizeidx)).map
              fun depthidx => (reqsizeidx, depthidx) := fun reqsizeidx hmem => by
      rw [row, (hrow reqsizeidx).mpr (hfits reqsizeidx (List.mem_range.mp hmem))]
    exact List.flatMap_congr hrows

/-- **Requested tests.** With explicit request sizes and depths `run_tests` ends and runs all
requested tests once and in order, and no others, exactly when no request size has a fitting depth
behind a depth of the array that the test of the buffers rejects. -/
theorem requested_tests_iff (hworkers : workers ≠ []) (h : workload.Explicit)
    (hauto : options.autoTerminateDepth = false)
    (hautoRequest : options.autoTerminateRequest = false) :
    (∃ n, ∀ fuel, n ≤ fuel → ∀ (measured : Measured T) (maxReqsize : Option UInt64), ∃ run,
      runTests config options (prepareWorkloads workers workload) measured maxReqsize fuel =
        .done run ∧ run.pairs = workload.requested config workers) ↔
      ∀ reqsizeidx < workload.reqsizes.length, ∀ depthidx < workload.depths.length,
        workload.fits config workers reqsizeidx depthidx = true →
          ∀ i ≤ depthidx, workload.room config workers reqsizeidx i = true := by
  have hrows : ∀ fuel, workload.depths.length + workload.reqsizes.length + 1 < fuel →
      ∀ (measured : Measured T) (maxReqsize : Option UInt64), _ :=
    fun fuel hfuel measured maxReqsize => @runTests_rows T config options workers workload _ _ _ _
      _ _ _ _ measured maxReqsize fuel hworkers hauto hautoRequest
      (fun i hi j hj => h.not_traps hi hj) hfuel
  rw [← h.rows_eq_requested_iff]
  constructor
  · rintro ⟨n, hn⟩
    have hmeasured : Measured T := ⟨fun _ _ => 0, fun _ => (0, 0)⟩
    obtain ⟨fuel, hfuel⟩ :
        ∃ fuel, fuel = n + (workload.depths.length + workload.reqsizes.length + 2) := ⟨_, rfl⟩
    obtain ⟨run, hdone, hpairs⟩ := hn fuel (by omega) hmeasured none
    obtain ⟨run', hdone', hpairs'⟩ := hrows fuel (by omega) hmeasured none
    rw [hdone, Outcome.done.injEq] at hdone'
    rw [← hpairs, ← hpairs', hdone']
  · intro heq
    refine ⟨workload.depths.length + workload.reqsizes.length + 2, fun fuel hfuel measured
      maxReqsize => ?_⟩
    rw [← heq]
    exact hrows fuel (by omega) measured maxReqsize

/-- A worker on Linux with a buffer of 32 MiB. -/
def wideWorker : IoWorker := createWorker (32 * 1024 * 1024) 0 (0 - 1)

/-- Sequential writes of 2 MiB with the depths of `-q 1,4,32`. -/
def ascendingDepths : PreparedWorkload := ⟨.sequential true, [2 * 1024 * 1024], [1, 4, 32]⟩

/-- Depths in increasing order: the first two are run, the third does not fit. -/
theorem requested_tests_ascending :
    ∃ n, ∀ fuel, n ≤ fuel → ∀ (measured : Measured ℚ) (maxReqsize : Option UInt64), ∃ run,
      runTests ⟨true, .linux, 4096, true⟩ ⟨false, false, none⟩
        (prepareWorkloads [wideWorker] ascendingDepths) measured maxReqsize fuel = .done run ∧
      run.pairs = ascendingDepths.requested ⟨true, .linux, 4096, true⟩ [wideWorker] :=
  (requested_tests_iff (by decide)
    ⟨by simp [ascendingDepths], by simp [ascendingDepths], by simp [ascendingDepths]⟩ rfl rfl).mpr
      (by decide)

/-- The same workload with the depths of `-q 32,1`. -/
def descendingDepths : PreparedWorkload := ⟨.sequential true, [2 * 1024 * 1024], [32, 1]⟩

/-- The depth 1 fits, but the row ends at the depth 32. -/
theorem requested_test_skipped :
    descendingDepths.requested ⟨true, .linux, 4096, true⟩ [wideWorker] = [(0, 1)] ∧
      ∀ fuel, 5 ≤ fuel → ∀ measured : Measured ℚ, ∃ run,
        runTests ⟨true, .linux, 4096, true⟩ ⟨false, false, none⟩
          (prepareWorkloads [wideWorker] descendingDepths) measured none fuel = .done run ∧
        run.pairs = [] := by
  refine ⟨by decide, fun fuel hfuel measured => ?_⟩
  exact runTests_rows (by decide) rfl rfl (by decide) hfuel

end DiskBench
