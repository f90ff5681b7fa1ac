import DiskBench.Arguments
import DiskBench.Crashes

/-!
# Crashes from the command line

The arrays of `main` hold what `-q` and `-r` give, or defaults that are never 0. Nothing between
the tokens of the arguments and the divisions of the tests rejects a 0: a token without digits is
0, and so is a product of its number and unit that is a multiple of 2^64, or for a depth of 2^32.
-/

namespace DiskBench

/-- The depths that an option gives. -/
def SweepOption.depthTokens (apr : AprStrings) : SweepOption → List (List Char)
  | .queueDepth optarg => apr.strtok optarg ','
  | _ => []

/-- The request sizes that an option gives. -/
def SweepOption.sizeTokens (apr : AprStrings) : SweepOption → List (List Char)
  | .requestSize optarg => apr.strtok optarg ','
  | _ => []

/-- The depths that the command line gives. -/
def depthTokens (apr : AprStrings) (options : List SweepOption) : List (List Char) :=
  options.flatMap (SweepOption.depthTokens apr)

/-- The request sizes that the command line gives. -/
def sizeTokens (apr : AprStrings) (options : List SweepOption) : List (List Char) :=
  options.flatMap (SweepOption.sizeTokens apr)

section Parse

variable {apr : AprStrings} {options : List SweepOption}

/-- After the options the arrays hold the values of the tokens, in the same order. -/
theorem parse_arrays (apr : AprStrings) (options : List SweepOption) :
    (Sweep.parse apr options).queueDepthArray =
        (depthTokens apr options).map (fun token => (parseSize apr token).toUInt32) ∧
      (Sweep.parse apr options).requestsizeArrayRandom =
        (sizeTokens apr options).map (parseSize apr) ∧
      (Sweep.parse apr options).requestsizeArraySequential =
        (sizeTokens apr options).map (parseSize apr) := by
  induction options using List.reverseRecOn with
  | nil => exact ⟨rfl, rfl, rfl⟩
  | append_singleton options o ih =>
    obtain ⟨hdepths, hrandom, hsequential⟩ := ih
    have hnext : Sweep.parse apr (options ++ [o]) = (Sweep.parse apr options).next apr o := by
      rw [Sweep.parse, List.foldl_append]
      rfl
    rw [hnext]
    simp only [depthTokens, sizeTokens, List.flatMap_append, List.flatMap_singleton,
      List.map_append] at hdepths hrandom hsequential ⊢
    cases o <;>
      simp [Sweep.next, SweepOption.depthTokens, SweepOption.sizeTokens, hdepths, hrandom,
        hsequential]

end Parse

section Complete

variable {sweep sweep' : Sweep} {fuel : ℕ} {bound iobufsize : UInt64} {nelts : Int32}

/-- Only the loop variable 0 has the sign extension 0. -/
theorem eq_zero_of_signExtend {i : Int32} (h : i.toInt64.toUInt64 = 0) : i = 0 := by
  have hnat := toNat_signExtend i.toUInt32
  have hzero : i.toUInt32.toInt32.toInt64.toUInt64.toNat = 0 := congrArg UInt64.toNat h
  rw [hzero] at hnat
  have hword : i.toUInt32.toNat = 0 := by
    split at hnat <;> omega
  exact congrArg UInt32.toInt32 (UInt32.toNat_inj.mp hword : i.toUInt32 = 0)

/-- A loop that ends has pushed no 0. -/
theorem requestsizeLoop_ne_zero {i : Int32}
    (h : requestsizeLoop bound fuel i sweep = some sweep') :
    ∃ sizes, sweep' = sweep.push sizes ∧ ∀ size ∈ sizes, size ≠ 0 := by
  induction fuel generalizing i sweep with
  | zero => cases h
  | succ fuel ih =>
    have hne : i.toInt64.toUInt64 ≠ 0 := fun hzero => by
      rw [eq_zero_of_signExtend hzero, requestsizeLoop_zero] at h
      cases h
    rw [requestsizeLoop] at h
    split at h
    · obtain ⟨sizes, rfl, hsizes⟩ := ih h
      refine ⟨[i.toInt64.toUInt64] ++ sizes, sweep.push_push _ sizes, fun size hsize => ?_⟩
      rw [List.singleton_append, List.mem_cons] at hsize
      obtain rfl | hsize := hsize
      · exact hne
      · exact hsizes size hsize
    · cases h
      exact ⟨[], by simp [Sweep.push], fun size hsize => absurd hsize List.not_mem_nil⟩

/-- The depths without `-q`. -/
def defaultDepths : List UInt32 := depthLoop 13 1 []

theorem completeDepths_queueDepthArray (sweep : Sweep) :
    sweep.completeDepths.queueDepthArray =
      if sweep.queueDepthArray = [] then defaultDepths else sweep.queueDepthArray := by
  unfold Sweep.completeDepths
  by_cases hnil : sweep.queueDepthArray = []
  · simp [hnil, defaultDepths]
  · simp [hnil]

/-- `main` completes the depths with the powers of two, and the sizes with positive ones. -/
theorem complete_arrays (h : sweep.complete fuel iobufsize nelts = some sweep') :
    sweep'.queueDepthArray =
        (if sweep.queueDepthArray = [] then defaultDepths else sweep.queueDepthArray) ∧
      sweep'.sectorSize = sweep.sectorSize ∧
      (∃ random, sweep'.requestsizeArrayRandom = sweep.requestsizeArrayRandom ++ random ∧
        ∀ size ∈ random, size ≠ 0) ∧
      ∃ sequential, sweep'.requestsizeArraySequential =
          sweep.requestsizeArraySequential ++ sequential ∧ ∀ size ∈ sequential, size ≠ 0 := by
  rw [← completeDepths_queueDepthArray]
  obtain ⟨depths, hdepths⟩ := sweep.completeDepths_eq
  rw [Sweep.complete, hdepths, Sweep.completeSizes] at h
  rw [hdepths]
  split at h
  · split at h
    · cases h
      exact ⟨rfl, rfl, ⟨_, rfl, by simp⟩, _, rfl, by simp⟩
    · obtain ⟨sizes, rfl, hsizes⟩ := requestsizeLoop_ne_zero h
      exact ⟨rfl, rfl, ⟨sizes, rfl, hsizes⟩, sizes, rfl, hsizes⟩
  · cases h
    exact ⟨rfl, rfl, ⟨[], by simp, by simp⟩, [], by simp, by simp⟩

end Complete

/-- A factory can be reset for a size without a trap and without empty requests. -/
structure Factory.Accepts (factory : Factory) (reqsize : UInt64) : Prop where
  largestRequest_ne : factory.largestRequest reqsize ≠ 0
  resets : factory.resets reqsize = true

section Accepts

variable {reqsize : UInt64}

theorem accepts_sequential (write : Bool) :
    (Factory.sequential write).Accepts reqsize ↔ reqsize ≠ 0 :=
  ⟨fun h => h.largestRequest_ne, fun h => ⟨h, rfl⟩⟩

theorem accepts_random (write : Bool) : (Factory.random write).Accepts reqsize ↔ reqsize ≠ 0 := by
  refine ⟨fun h => h.largestRequest_ne, fun h => ⟨h, ?_⟩⟩
  simp [Factory.resets, Factory.reset, randomReset, h]

/-- The search for `min_blocksize_idx` ends at an entry that is large enough. -/
theorem minBlocksizeLoop_isSome_iff {n i : ℕ} : (minBlocksizeLoop reqsize n i).isSome ↔
    ∃ j, i ≤ j ∧ j < i + n ∧ reqsize ≤ (blocksize j).toUInt64 := by
  induction n generalizing i with
  | zero =>
    refine ⟨fun h => absurd h (by simp [minBlocksizeLoop]), ?_⟩
    rintro ⟨j, hle, hlt, _⟩
    omega
  | succ n ih =>
    rw [minBlocksizeLoop]
    split
    next hsmall =>
      rw [ih]
      constructor
      · rintro ⟨j, hle, hlt, hj⟩
        exact ⟨j, by omega, by omega, hj⟩
      · rintro ⟨j, hle, hlt, hj⟩
        have hne : j ≠ i := by
          rintro rfl
          exact absurd hsmall (UInt64.not_lt.mpr hj)
        exact ⟨j, by omega, by omega, hj⟩
    next hlarge => exact ⟨fun _ => ⟨i, by omega, by omega, UInt64.not_lt.mp hlarge⟩, fun _ => rfl⟩

/-- The mixed workload can be reset for sizes up to the largest of its table. -/
theorem accepts_mixed (randomProb sequentialProb : ℕ → UInt32) :
    (Factory.mixed randomProb sequentialProb).Accepts reqsize ↔ reqsize ≤ mixedMaxIosize := by
  have hresets : (Factory.mixed randomProb sequentialProb).resets reqsize =
      (minBlocksizeLoop reqsize 13 0).isSome := by
    simp [Factory.resets, Factory.reset, mixedReset]
  constructor
  · intro h
    obtain ⟨j, _, hlt, hj⟩ := minBlocksizeLoop_isSome_iff.mp (hresets ▸ h.resets)
    exact UInt64.le_trans hj (UInt64.le_iff_toNat_le.mpr (blocksize_bounds (by omega)).2)
  · intro h
    refine ⟨(by decide : mixedMaxIosize ≠ 0), ?_⟩
    rw [hresets, minBlocksizeLoop_isSome_iff]
    exact ⟨12, by omega, by omega, h⟩

end Accepts

section Rows

variable {config : Config} {workers : List IoWorker} {workload : PreparedWorkload}

/-- An entry of the depths is 0 as an `int` when it is 0. -/
theorem depth_eq_zero_iff {depthidx : ℕ} (hlt : depthidx < workload.depths.length) :
    workload.depth depthidx = 0 ↔ workload.depths[depthidx]? = some 0 := by
  rw [getElem?_eq_some_getD hlt 0, Option.some.injEq]
  exact ⟨fun h => congrArg Int32.toUInt32 h, fun h => congrArg UInt32.toInt32 h⟩

/-- What it takes for a row of tests to have no crash. -/
theorem row_noCrash_iff (hdepths : workload.depths ≠ []) (reqsizeidx : ℕ) :
    workload.largest reqsizeidx ≠ 0 ∧ workload.Clean config workers reqsizeidx ↔
      workload.templateGenerator.Accepts (workload.reqsize reqsizeidx) ∧
        ∀ depthidx < workload.depths.length, workload.depth depthidx = 0 →
          ∃ i < depthidx, workload.room config workers reqsizeidx i = false := by
  constructor
  · rintro ⟨hlargest, hclean⟩
    have hfirst := hclean 0 (List.length_pos_iff.mpr hdepths) (by omega)
    refine ⟨⟨hlargest, eq_true_of_ne_false fun h => hfirst (Or.inl h)⟩,
      fun depthidx hlt hzero => ?_⟩
    by_contra hroom
    refine hclean depthidx hlt (fun i hi => ?_) (Or.inr hzero)
    exact eq_true_of_ne_false fun hfalse => hroom ⟨i, hi, hfalse⟩
  · rintro ⟨haccepts, hzero⟩
    refine ⟨haccepts.largestRequest_ne, fun depthidx hlt hroom htraps => ?_⟩
    obtain hresets | hdepth := htraps
    · rw [haccepts.resets] at hresets
      cases hresets
    · obtain ⟨i, hi, hfalse⟩ := hzero depthidx hlt hdepth
      rw [hroom i hi] at hfalse
      cases hfalse

/-- All rows of tests together. -/
theorem rows_noCrash_iff {options : TestOptions} (hpage : 512 ∣ config.pageSize.toNat)
    (hworkers : workers ≠ []) (hdepths : workload.depths ≠ []) :
    workload.NoCrash config options workers ↔
      (∀ reqsize ∈ workload.reqsizes, workload.templateGenerator.Accepts reqsize) ∧
        ∀ reqsizeidx < workload.reqsizes.length, ∀ depthidx < workload.depths.length,
          workload.depth depthidx = 0 →
            ∃ i < depthidx, workload.room config workers reqsizeidx i = false := by
  rw [noCrash_iff hpage hworkers hdepths]
  simp only [row_noCrash_iff hdepths]
  constructor
  · intro h
    refine ⟨fun reqsize hmem => ?_, fun reqsizeidx hlt => (h reqsizeidx hlt).2⟩
    obtain ⟨reqsizeidx, hlt, rfl⟩ := List.getElem_of_mem hmem
    have haccepts := (h reqsizeidx hlt).1
    rwa [PreparedWorkload.reqsize, List.getD_eq_getElem?_getD, List.getElem?_eq_getElem hlt,
      Option.getD_some] at haccepts
  · rintro ⟨haccepts, hzero⟩ reqsizeidx hlt
    exact ⟨haccepts _ (List.mem_of_getElem? (getElem?_eq_some_getD hlt 0)), hzero reqsizeidx hlt⟩

end Rows

/-- The arguments of the calls of `run_tests` for the tests, in their order. -/
def Sweep.calls (randomProb sequentialProb : ℕ → UInt32) (sweep : Sweep) :
    List (TestOptions × PreparedWorkload) :=
  let options := TestOptions.mk sweep.autoTerminateRequest sweep.autoTerminateDepth
  [(options (some (128 * 1024)),
      ⟨.sequential true, sweep.requestsizeArraySequential, sweep.queueDepthArray⟩),
    (options (some (128 * 1024)),
      ⟨.sequential false, sweep.requestsizeArraySequential, sweep.queueDepthArray⟩),
    (options (some 4096), ⟨.random true, sweep.requestsizeArrayRandom, sweep.queueDepthArray⟩),
    (options (some 4096), ⟨.random false, sweep.requestsizeArrayRandom, sweep.queueDepthArray⟩),
    (options none, ⟨.mixed randomProb sequentialProb, [sweep.sectorSize.toUInt64],
      sweep.queueDepthArray⟩)]

section Calls

variable {apr : AprStrings} {options : List SweepOption} {sweep : Sweep} {config : Config}
  {workers : List IoWorker} {randomProb sequentialProb : ℕ → UInt32} {fuel : ℕ}
  {iobufsize : UInt64} {nelts : Int32}

/-- All calls use the same depths. -/
theorem depths_of_mem_calls {call : TestOptions × PreparedWorkload}
    (h : call ∈ sweep.calls randomProb sequentialProb) : call.2.depths = sweep.queueDepthArray := by
  simp only [Sweep.calls, List.mem_cons, List.not_mem_nil, or_false] at h
  obtain rfl | rfl | rfl | rfl | rfl := h <;> rfl

/-- The sizes of all calls are accepted when none of them is 0 and the mixed workload finds the
sector size in its table. -/
theorem calls_accept_iff : (∀ call ∈ sweep.calls randomProb sequentialProb,
      ∀ reqsize ∈ call.2.reqsizes, call.2.templateGenerator.Accepts reqsize) ↔
    (∀ size ∈ sweep.requestsizeArraySequential, size ≠ 0) ∧
      (∀ size ∈ sweep.requestsizeArrayRandom, size ≠ 0) ∧
      sweep.sectorSize.toUInt64 ≤ mixedMaxIosize := by
  simp only [Sweep.calls, List.forall_mem_cons, List.not_mem_nil, false_imp_iff, implies_true,
    and_true, accepts_sequential, accepts_random, accepts_mixed]
  tauto

/-- The narrowed value of a token is 0 for the multiples of 2^32. -/
theorem toUInt32_eq_zero_iff (x : UInt64) : x.toUInt32 = 0 ↔ 2 ^ 32 ∣ x.toNat := by
  rw [← UInt32.toNat_inj, UInt64.toNat_toUInt32, UInt32.toNat_zero, Nat.dvd_iff_mod_eq_zero]

/-- A depth of 0 in the completed array is a token of the command line. -/
theorem complete_depth_eq_zero_iff
    (h : (Sweep.parse apr options).complete fuel iobufsize nelts = some sweep) (depthidx : ℕ) :
    sweep.queueDepthArray[depthidx]? = some 0 ↔
      ∃ token, (depthTokens apr options)[depthidx]? = some token ∧
        2 ^ 32 ∣ (parseSize apr token).toNat := by
  rw [(complete_arrays h).1, (parse_arrays apr options).1]
  simp only [← toUInt32_eq_zero_iff]
  split
  next hnil =>
    rw [List.map_eq_nil_iff] at hnil
    have hdefault : (0 : UInt32) ∉ defaultDepths := by
      rw [defaultDepths, depthLoop_default 0]
      decide
    refine ⟨fun hzero => absurd (List.mem_of_getElem? hzero) hdefault, ?_⟩
    rintro ⟨token, htoken, _⟩
    rw [hnil] at htoken
    cases htoken
  next => simp

/-- The completed depths are not empty. -/
theorem complete_depths_ne_nil
    (h : (Sweep.parse apr options).complete fuel iobufsize nelts = some sweep) :
    sweep.queueDepthArray ≠ [] := by
  rw [(complete_arrays h).1]
  split
  next =>
    rw [defaultDepths, depthLoop_default 0]
    simp
  next hne => exact hne

/-- A size of 0 in a completed array is a token of the command line. -/
theorem complete_sizes_ne_zero_iff
    (h : (Sweep.parse apr options).complete fuel iobufsize nelts = some sweep) :
    ((∀ size ∈ sweep.requestsizeArraySequential, size ≠ 0) ∧
        ∀ size ∈ sweep.requestsizeArrayRandom, size ≠ 0) ↔
      ∀ token ∈ sizeTokens apr options, parseSize apr token ≠ 0 := by
  obtain ⟨_, _, ⟨random, hrandom, hrandomPos⟩, sequential, hsequential, hsequentialPos⟩ :=
    complete_arrays h
  obtain ⟨_, hrandomTokens, hsequentialTokens⟩ := parse_arrays apr options
  rw [hrandom, hsequential, hrandomTokens, hsequentialTokens]
  simp only [List.forall_mem_append, List.forall_mem_map, and_iff_left hrandomPos,
    and_iff_left hsequentialPos, and_self]

/-- **No crash from the command line.** The tests of `main` do not crash exactly when no size of
`-r` is 0, the mixed workload finds the sector size in its table, and each depth of `-q` that is a
multiple of 2^32 comes, in every row of tests, behind a depth for which a buffer has no room. -/
theorem commandLine_noCrash_iff (hpage : 512 ∣ config.pageSize.toNat) (hworkers : workers ≠ [])
    (hcomplete : (Sweep.parse apr options).complete fuel iobufsize nelts = some sweep) :
    (∀ call ∈ sweep.calls randomProb sequentialProb, call.2.NoCrash config call.1 workers) ↔
      (∀ token ∈ sizeTokens apr options, parseSize apr token ≠ 0) ∧
        (Sweep.parse apr options).sectorSize.toUInt64 ≤ mixedMaxIosize ∧
        ∀ call ∈ sweep.calls randomProb sequentialProb,
          ∀ reqsizeidx < call.2.reqsizes.length, ∀ depthidx token,
            (depthTokens apr options)[depthidx]? = some token →
            2 ^ 32 ∣ (parseSize apr token).toNat →
              ∃ i < depthidx, call.2.room config workers reqsizeidx i = false := by
  have hsizes := @calls_accept_iff sweep randomProb sequentialProb
  rw [(complete_arrays hcomplete).2.1, ← and_assoc, complete_sizes_ne_zero_iff hcomplete] at hsizes
  rw [← and_assoc, ← hsizes]
  have hcall : ∀ call ∈ sweep.calls randomProb sequentialProb,
      (call.2.NoCrash config call.1 workers ↔
        (∀ reqsize ∈ call.2.reqsizes, call.2.templateGenerator.Accepts reqsize) ∧
          ∀ reqsizeidx < call.2.reqsizes.length, ∀ depthidx token,
            (depthTokens apr options)[depthidx]? = some token →
            2 ^ 32 ∣ (parseSize apr token).toNat →
              ∃ i < depthidx, call.2.room config workers reqsizeidx i = false) := by
    intro call hmem
    have hdepths := depths_of_mem_calls hmem
    rw [rows_noCrash_iff hpage hworkers (hdepths ▸ complete_depths_ne_nil hcomplete)]
    refine and_congr_right fun _ => forall₂_congr fun reqsizeidx _ => ?_
    constructor
    · intro hrow depthidx token htoken hdvd
      have hzero := (complete_depth_eq_zero_iff hcomplete depthidx).mpr ⟨token, htoken, hdvd⟩
      rw [← hdepths] at hzero
      obtain ⟨hlt, _⟩ := List.getElem?_eq_some_iff.mp hzero
      exact hrow depthidx hlt ((depth_eq_zero_iff hlt).mpr hzero)
    · intro hrow depthidx hlt hdepth
      have hzero := (depth_eq_zero_iff hlt).mp hdepth
      rw [hdepths, complete_depth_eq_zero_iff hcomplete] at hzero
      obtain ⟨token, htoken, hdvd⟩ := hzero
      exact hrow depthidx token htoken hdvd
  rw [forall₂_congr hcall]
  exact forall₂_and

end Calls

/-- The arrays of `-q 1,16384,0 -r 4K`. -/
def hiddenZero : Sweep := Sweep.parse documented
  [.queueDepth ['1', ',', '1', '6', '3', '8', '4', ',', '0'], .requestSize ['4', 'K']]

/-- The depth 0 is not reached, as no buffer has room for 16384 requests. -/
theorem commandLine_noCrash_hiddenZero :
    hiddenZero.queueDepthArray = [1, 16384, 0] ∧
      ∀ call ∈ hiddenZero.calls (fun _ => 0) fun _ => 0,
        call.2.NoCrash ⟨true, .linux, 4096, true⟩ call.1 [wideWorker] := by
  refine ⟨by decide, ?_⟩
  have hroom : ∀ call ∈ hiddenZero.calls (fun _ => 0) fun _ => 0,
      ∀ reqsizeidx < call.2.reqsizes.length,
        call.2.room ⟨true, .linux, 4096, true⟩ [wideWorker] reqsizeidx 1 = false := by
    decide +kernel
  refine (@commandLine_noCrash_iff documented
    [.queueDepth ['1', ',', '1', '6', '3', '8', '4', ',', '0'], .requestSize ['4', 'K']]
    hiddenZero _ [wideWorker] (fun _ => 0) (fun _ => 0) 0 defaultBufsize 1 (by decide) (by decide)
    rfl).mpr ⟨by decide, by decide, fun call hcall reqsizeidx hlt depthidx token htoken hdvd => ?_⟩
  refine ⟨1, ?_, hroom call hcall reqsizeidx hlt⟩
  by_contra hle
  obtain rfl | rfl : depthidx = 0 ∨ depthidx = 1 := by omega
  · obtain rfl : ['1'] = token := Option.some.inj htoken
    exact absurd hdvd (by decide)
  · obtain rfl : ['1', '6', '3', '8', '4'] = token := Option.some.inj htoken
    exact absurd hdvd (by decide)

/-- With `-q x` all tests trap at the first division by a depth. -/
theorem commandLine_crash_text :
    ∃ sweep, (Sweep.parse documented [.queueDepth ['x']]).complete 0 defaultBufsize 1 =
        some sweep ∧
      ∀ call ∈ sweep.calls (fun _ => 0) fun _ => 0, ∀ (measured : Measured ℚ) (fuel : ℕ), ∃ run,
        runTests ⟨true, .linux, 4096, true⟩ call.1 (prepareWorkloads [wideWorker] call.2) measured
          none (fuel + 1) = .trap run := by
  refine ⟨_, rfl, fun call hcall measured fuel => ?_⟩
  simp only [Sweep.calls, List.mem_cons, List.not_mem_nil, or_false] at hcall
  obtain rfl | rfl | rfl | rfl | rfl := hcall <;> exact ⟨_, rfl⟩

end DiskBench
