import DiskBench.Foundations.Transition
import DiskBench.Workloads.Sequential
import DiskBench.Workloads.Random
import DiskBench.Workloads.Mixed

/-!
# The three workloads together

The generators that `main` uses, as one generator whose data says which of them runs.
-/

namespace DiskBench

/-- The data of the generator of a workload. -/
inductive GeneratorData where
  | sequential (data : SequentialData)
  | random (data : RandomData)
  | mixed (data : MixedData)

/-- `fill_request` and `max_io_size` of the three generators. -/
def workloads : Generator GeneratorData where
  fillRequest
    | .sequential data, filesize, seed =>
      let (data, t) := sequentialFillRequest data filesize
      some (.sequential data, seed, t)
    | .random data, _, seed =>
      (randomFillRequest data seed).map fun (seed, t) => (.random data, seed, t)
    | .mixed data, filesize, seed =>
      (mixedFillRequest data filesize seed).map fun (data, seed, t) => (.mixed data, seed, t)
  maxIoSize
    | .sequential data => sequentialMaxIosize data
    | .random data => randomMaxIosize data
    | .mixed _ => mixedMaxIosize

/-- A call of `fill_request` for the sequential workload. -/
theorem workloads_sequential (data : SequentialData) (filesize seed : UInt64) :
    workloads.fillRequest (.sequential data) filesize seed =
      some (.sequential (sequentialFillRequest data filesize).1, seed,
        (sequentialFillRequest data filesize).2) := rfl

/-- A factory of the source with its arguments; the cumulative tables of the mixed
workload stand for the result of the floating point computation. -/
inductive Factory where
  | sequential (write : Bool)
  | random (write : Bool)
  | mixed (randomBlocksizeProb sequentialBlocksizeProb : ℕ → UInt32)

/-- `reset` on a template that a factory has made. -/
def Factory.reset (factory : Factory) (filesize reqsize : UInt64) : Option GeneratorData :=
  match factory with
  | .sequential write => some (.sequential (sequentialReset (sequentialFactory write) reqsize))
  | .random write => (randomReset (randomFactory write) filesize reqsize).map .random
  | .mixed randomProb sequentialProb =>
    (mixedReset randomProb sequentialProb reqsize).map .mixed

/-- The invariant of a generator that runs on a file. -/
def GeneratorData.InFile (data : GeneratorData) (filesize : UInt64) : Prop :=
  match data with
  | .sequential data => data.InFile filesize
  | .random data => data.InFile filesize
  | .mixed data => data.InFile filesize ∧ mixedMaxIosize.toNat ≤ filesize.toNat

/-- The 64-bit arithmetic of the next call is exact. -/
def GeneratorData.NoWrap (data : GeneratorData) (filesize : UInt64) : Prop :=
  match data with
  | .sequential data => data.NoWrap
  | .random data => data.NoWrap
  | .mixed data => data.NoWrap filesize

theorem GeneratorData.InFile.noWrap {data : GeneratorData} {filesize : UInt64}
    (h : data.InFile filesize) (hfile : filesize.toNat < 2 ^ 63) : data.NoWrap filesize := by
  cases data with
  | sequential data => exact SequentialData.InFile.noWrap h hfile
  | random data => exact RandomData.InFile.noWrap h hfile
  | mixed data => exact MixedData.InFile.noWrap h.1 h.2 hfile

/-- A call keeps the invariant and produces a request inside the file. -/
theorem GeneratorData.InFile.fill {data : GeneratorData} {filesize : UInt64}
    (h : data.InFile filesize) (hfile : filesize.toNat < 2 ^ 63) (seed : UInt64) :
    ∃ data' seed' t, workloads.fillRequest data filesize seed = some (data', seed', t) ∧
      data'.InFile filesize ∧ InsideFile filesize t := by
  cases data with
  | sequential data =>
    obtain ⟨hdata, hinside⟩ := SequentialData.InFile.fill h hfile
    exact ⟨.sequential _, seed, _, rfl, hdata, hinside⟩
  | random data =>
    obtain ⟨seed', t, heq, hinside⟩ := RandomData.InFile.fill h hfile seed
    exact ⟨.random data, seed', t, by simp [workloads, heq], h, hinside⟩
  | mixed data =>
    obtain ⟨data', t, heq, hdata, hinside⟩ := MixedData.InFile.fill h.1 h.2 hfile seed
    exact ⟨.mixed data', randomUint64T seed, t, by simp [workloads, heq], ⟨hdata, h.2⟩, hinside⟩

/-- A reset for a request size of at least one byte on a file that holds a request of
the largest size establishes the invariant. -/
theorem Factory.reset_inFile {factory : Factory} {filesize reqsize : UInt64}
    {data : GeneratorData} (hpos : 1 ≤ reqsize.toNat)
    (hreset : factory.reset filesize reqsize = some data)
    (hmax : workloads.maxIoSize data ≤ filesize) : data.InFile filesize := by
  rw [UInt64.le_iff_toNat_le] at hmax
  cases factory with
  | sequential write =>
    simp only [Factory.reset, Option.some.injEq] at hreset
    subst hreset
    exact sequentialReset_inFile hpos hmax
  | random write =>
    simp only [Factory.reset, Option.map_eq_some_iff] at hreset
    obtain ⟨data, hdata, rfl⟩ := hreset
    have hsize : data.reqSize = reqsize := by
      unfold randomReset at hdata
      split at hdata
      · cases hdata
      · simp only [Option.some.injEq] at hdata
        rw [← hdata]
    have hle : data.reqSize.toNat ≤ filesize.toNat := hmax
    rw [hsize] at hle
    exact randomReset_inFile hpos hle hdata
  | mixed randomProb sequentialProb =>
    simp only [Factory.reset, Option.map_eq_some_iff] at hreset
    obtain ⟨data, hdata, rfl⟩ := hreset
    exact ⟨mixedReset_inFile hdata, hmax⟩

/-- The request size need not be known: a largest size of at least one byte is enough. -/
theorem Factory.reset_inFile_of_maxIoSize_pos {factory : Factory} {filesize reqsize : UInt64}
    {data : GeneratorData} (hpos : 1 ≤ (workloads.maxIoSize data).toNat)
    (hreset : factory.reset filesize reqsize = some data)
    (hmax : workloads.maxIoSize data ≤ filesize) : data.InFile filesize := by
  cases factory with
  | sequential write =>
    have hsize := hreset
    simp only [Factory.reset, Option.some.injEq] at hsize
    subst hsize
    exact Factory.reset_inFile hpos hreset hmax
  | random write =>
    have hsize := hreset
    simp only [Factory.reset, randomReset, Option.map_eq_some_iff] at hsize
    obtain ⟨data, hdata, rfl⟩ := hsize
    split at hdata
    · cases hdata
    · cases hdata
      exact Factory.reset_inFile hpos hreset hmax
  | mixed randomProb sequentialProb =>
    simp only [Factory.reset, Option.map_eq_some_iff] at hreset
    obtain ⟨data, hdata, rfl⟩ := hreset
    exact ⟨mixedReset_inFile hdata, UInt64.le_iff_toNat_le.mp hmax⟩

/-- Any number of calls keep the invariant. -/
theorem GeneratorData.InFile.exec {data data' : GeneratorData} {filesize : UInt64}
    {seeds : List UInt64} (h : data.InFile filesize) (hfile : filesize.toNat < 2 ^ 63)
    (hexec : Transition.exec (workloads.fillStep filesize) data seeds = some data') :
    data'.InFile filesize := by
  apply Transition.exec_invariant (P := fun _ _ => True) (I := fun d => d.InFile filesize)
    _ hexec Transition.along_true h
  intro d seed d' hd _ hstep
  obtain ⟨e, seed', t, heq, he, _⟩ := hd.fill hfile seed
  simp only [Generator.fillStep, heq, Option.map_some, Option.some.injEq] at hstep
  exact hstep ▸ he

/-- **Requests stay inside the file.** After a reset for a request size of at least one
byte, on a file of less than `2 ^ 62` bytes that holds a request of the largest size,
each of the generators produces a request inside the file, without a trap or a wrap of
its arithmetic, after any number of calls and whatever seed each call finds. -/
theorem requests_inside_file {factory : Factory} {filesize reqsize : UInt64}
    {data data' : GeneratorData} {seeds : List UInt64} (hpos : 1 ≤ reqsize.toNat)
    (hfile : filesize.toNat < 2 ^ 62) (hreset : factory.reset filesize reqsize = some data)
    (hmax : workloads.maxIoSize data ≤ filesize)
    (hexec : Transition.exec (workloads.fillStep filesize) data seeds = some data') :
    data'.NoWrap filesize ∧
      ∀ seed, ∃ data'' seed' t, workloads.fillRequest data' filesize seed =
        some (data'', seed', t) ∧ InsideFile filesize t := by
  have hinv : data'.InFile filesize :=
    (Factory.reset_inFile hpos hreset hmax).exec (by omega) hexec
  refine ⟨hinv.noWrap (by omega), fun seed => ?_⟩
  obtain ⟨data'', seed', t, heq, _, hinside⟩ := hinv.fill (by omega) seed
  exact ⟨data'', seed', t, heq, hinside⟩

/-- The sequential workload on a file of two requests, at the end of its first pass. -/
theorem requests_inside_file_two_blocks :
    (GeneratorData.sequential ⟨true, 1024, 512⟩).NoWrap 1024 ∧
      ∀ seed, ∃ data'' seed' t, workloads.fillRequest (.sequential ⟨true, 1024, 512⟩) 1024 seed =
        some (data'', seed', t) ∧ InsideFile 1024 t :=
  @requests_inside_file (.sequential true) 1024 512 (.sequential ⟨true, 0, 512⟩) _ [7, 7]
    (by decide) (by decide) rfl (by decide) rfl

/-- The block sizes of a mixed workload are those of the table. -/
def GeneratorData.Sized (data : GeneratorData) : Prop :=
  match data with
  | .sequential _ => True
  | .random _ => True
  | .mixed data => data.Tail

/-- The sizes of the requests that a workload makes: the request size, or the block sizes from
`min_blocksize_idx` on. -/
def GeneratorData.sizes (data : GeneratorData) : Set UInt64 :=
  match data with
  | .sequential data => {data.reqSize}
  | .random data => {data.reqSize}
  | .mixed data => {r | ∃ j, data.minBlocksizeIdx ≤ j ∧ j ≤ 12 ∧ r = (blocksize j).toUInt64}

/-- A call on any file produces a request of one of these sizes, and does not change them. -/
theorem GeneratorData.Sized.next {data data' : GeneratorData} {filesize seed seed' : UInt64}
    {t : Target} (h : data.Sized)
    (hfill : workloads.fillRequest data filesize seed = some (data', seed', t)) :
    data'.Sized ∧ workloads.maxIoSize data' = workloads.maxIoSize data ∧
      data'.sizes = data.sizes ∧ t.size ∈ data.sizes := by
  cases data with
  | sequential data =>
    obtain ⟨_, hsize, htarget, _⟩ := sequentialFillRequest_fixed data filesize
    rw [workloads_sequential, Option.some.injEq, Prod.mk.injEq, Prod.mk.injEq] at hfill
    obtain ⟨rfl, _, rfl⟩ := hfill
    exact ⟨trivial, hsize, congrArg (fun r => ({r} : Set UInt64)) hsize, htarget⟩
  | random data =>
    simp only [workloads, randomFillRequest, Option.map_eq_some_iff] at hfill
    obtain ⟨⟨seed'', t'⟩, hrandom, heq⟩ := hfill
    split at hrandom
    · cases hrandom
    · cases hrandom
      cases heq
      exact ⟨trivial, rfl, rfl, rfl⟩
  | mixed data =>
    simp only [workloads, Option.map_eq_some_iff] at hfill
    obtain ⟨⟨data'', seed'', t'⟩, hmixed, heq⟩ := hfill
    cases heq
    obtain ⟨_, prob, randomHigh, write, hnext⟩ := mixedFillRequest_next hmixed
    obtain ⟨hsize, hmin, hsizes⟩ := hnext.fixed
    have htail : data.Tail := h
    obtain ⟨j, hjmin, hj, hblock⟩ := htail.getIosize_eq prob randomHigh
    refine ⟨⟨?_, ?_⟩, rfl, ?_, j, hjmin, hj, ?_⟩
    · rw [hmin]
      exact htail.minBlocksizeIdx_le
    · rw [hmin, hsizes]
      exact htail.blocksizes_eq
    · simp only [sizes, hmin]
    · rw [hsize, hblock]

/-- None of the sizes exceeds the largest size, and none is 0 unless that is. -/
theorem GeneratorData.sizes_bounds {data : GeneratorData} {r : UInt64} (hr : r ∈ data.sizes) :
    r.toNat ≤ (workloads.maxIoSize data).toNat ∧
      (1 ≤ (workloads.maxIoSize data).toNat → 1 ≤ r.toNat) := by
  cases data with
  | sequential data =>
    obtain rfl : r = data.reqSize := hr
    exact ⟨Nat.le_refl _, id⟩
  | random data =>
    obtain rfl : r = data.reqSize := hr
    exact ⟨Nat.le_refl _, id⟩
  | mixed data =>
    obtain ⟨j, _, hj, rfl⟩ := hr
    exact ⟨(blocksize_bounds hj).2, fun _ => (blocksize_bounds hj).1⟩

/-- A call on any file keeps the largest size, and the request does not exceed it. -/
theorem GeneratorData.Sized.fill {data data' : GeneratorData} {filesize seed seed' : UInt64}
    {t : Target} (h : data.Sized)
    (hfill : workloads.fillRequest data filesize seed = some (data', seed', t)) :
    data'.Sized ∧ workloads.maxIoSize data' = workloads.maxIoSize data ∧
      t.size.toNat ≤ (workloads.maxIoSize data).toNat := by
  obtain ⟨hdata, hmax, _, hmem⟩ := h.next hfill
  exact ⟨hdata, hmax, (sizes_bounds hmem).1⟩

/-- The requests of a workload have the sizes that it starts with. -/
theorem GeneratorData.draws_sizes (data : GeneratorData) :
    workloads.Draws data.sizes fun data' => data'.Sized ∧ data'.sizes = data.sizes := by
  rintro data' filesize seed data'' seed' target ⟨hsized, hsizes⟩ hfill
  obtain ⟨hsized', _, hsizes', hmem⟩ := hsized.next hfill
  exact ⟨hsizes ▸ hmem, hsized', hsizes'.trans hsizes⟩

/-- The sequential workload with the request size `r` produces requests of that size. -/
theorem sequential_produces (r : UInt64) : workloads.Produces r
    (fun data => ∃ d : SequentialData, data = .sequential d ∧ d.reqSize = r)
    fun data => ∃ d : SequentialData, data = .sequential d ∧ d.reqSize = r := by
  rintro _ filesize seed ⟨d, rfl, rfl⟩
  obtain ⟨_, hreqSize, hsize, _⟩ := sequentialFillRequest_fixed d filesize
  exact ⟨.sequential (sequentialFillRequest d filesize).1, seed, _, rfl, hsize, _, rfl, hreqSize⟩

/-- A reset establishes it. -/
theorem Factory.reset_sized {factory : Factory} {filesize reqsize : UInt64} {data : GeneratorData}
    (hreset : factory.reset filesize reqsize = some data) : data.Sized := by
  cases factory with
  | sequential write =>
    simp only [Factory.reset, Option.some.injEq] at hreset
    subst hreset
    trivial
  | random write =>
    simp only [Factory.reset, Option.map_eq_some_iff] at hreset
    obtain ⟨data, _, rfl⟩ := hreset
    trivial
  | mixed randomProb sequentialProb =>
    simp only [Factory.reset, Option.map_eq_some_iff] at hreset
    obtain ⟨data, hdata, rfl⟩ := hreset
    exact mixedReset_tail hdata

/-- Where the largest size is not 0, no request is empty. -/
theorem GeneratorData.Sized.fill_pos {data data' : GeneratorData} {filesize seed seed' : UInt64}
    {t : Target} (h : data.Sized) (hpos : 1 ≤ (workloads.maxIoSize data).toNat)
    (hfill : workloads.fillRequest data filesize seed = some (data', seed', t)) :
    1 ≤ t.size.toNat := by
  obtain ⟨_, _, _, hmem⟩ := h.next hfill
  exact (sizes_bounds hmem).2 hpos

/-- Any number of calls after a reset keep the largest size. -/
theorem Factory.exec_sized {factory : Factory} {filesize reqsize : UInt64}
    {data data' : GeneratorData} {seeds : List UInt64}
    (hreset : factory.reset filesize reqsize = some data)
    (hexec : Transition.exec (workloads.fillStep filesize) data seeds = some data') :
    data'.Sized ∧ workloads.maxIoSize data' = workloads.maxIoSize data := by
  apply Transition.exec_invariant (P := fun _ _ => True)
    (I := fun d => d.Sized ∧ workloads.maxIoSize d = workloads.maxIoSize data)
    _ hexec Transition.along_true ⟨Factory.reset_sized hreset, rfl⟩
  rintro d seed d' ⟨hd, hmax⟩ _ hstep
  simp only [Generator.fillStep, Option.map_eq_some_iff] at hstep
  obtain ⟨⟨e, seed', t⟩, heq, rfl⟩ := hstep
  obtain ⟨he, hmax', _⟩ := hd.fill heq
  exact ⟨he, hmax'.trans hmax⟩

/-- No request is larger than the largest size, after any number of calls on any file. -/
theorem request_size_le {factory : Factory} {filesize reqsize seed seed' : UInt64}
    {data data' data'' : GeneratorData} {seeds : List UInt64} {t : Target}
    (hreset : factory.reset filesize reqsize = some data)
    (hexec : Transition.exec (workloads.fillStep filesize) data seeds = some data')
    (hfill : workloads.fillRequest data' filesize seed = some (data'', seed', t)) :
    t.size.toNat ≤ (workloads.maxIoSize data).toNat := by
  obtain ⟨hsized, hmax⟩ := Factory.exec_sized hreset hexec
  rw [← hmax]
  exact (hsized.fill hfill).2.2

end DiskBench
