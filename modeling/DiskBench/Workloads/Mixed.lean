import DiskBench.Workloads.Generator

/-!
# The mixed workload

`mixed_workload.c`. One random number selects the direction, the kind of access and
the block size of each request. Sequential accesses follow four streams with a position
each, two moving forward and two backward; random accesses take a block of the file.
-/

namespace DiskBench

/-- The table `blocksizes`. -/
def blocksizeTable : List UInt32 :=
  [512, 1024, 2 * 1024, 4 * 1024, 8 * 1024, 16 * 1024, 32 * 1024, 64 * 1024, 128 * 1024,
    256 * 1024, 512 * 1024, 1024 * 1024, 2048 * 1024]

/-- Entry `i` of the table. -/
def blocksize (i : ℕ) : UInt32 := blocksizeTable.getD i 0

/-- `struct mixed_request_generator_data`. -/
structure MixedData where
  sequentialBlocksizeProb : ℕ → UInt32
  randomBlocksizeProb : ℕ → UInt32
  minBlocksizeIdx : ℕ
  blocksizes : ℕ
  /-- Sequential read forward. -/
  seqPos1 : UInt64
  /-- Sequential read backward. -/
  seqPos2 : UInt64
  /-- Sequential write forward. -/
  seqPos3 : UInt64
  /-- Sequential write backward. -/
  seqPos4 : UInt64

/-- The search loop of `get_random_iosize` and `get_sequential_iosize`, with `n`
entries left before the last. -/
def iosizeLoop (prob : ℕ → UInt32) (randomLow : UInt32) : ℕ → ℕ → UInt32
  | 0, i => blocksize i
  | n + 1, i => if randomLow < prob i then blocksize i else iosizeLoop prob randomLow n (i + 1)

/-- The common body of `get_random_iosize` and `get_sequential_iosize`. -/
def getIosize (prob : ℕ → UInt32) (data : MixedData) (randomLow : UInt32) : UInt32 :=
  let start := data.minBlocksizeIdx
  let stop := start + data.blocksizes - 1
  iosizeLoop prob randomLow (stop - start) start

/-- `get_random_iosize`. -/
def getRandomIosize (data : MixedData) (randomLow : UInt32) : UInt32 :=
  getIosize data.randomBlocksizeProb data randomLow

/-- `get_sequential_iosize`. -/
def getSequentialIosize (data : MixedData) (randomLow : UInt32) : UInt32 :=
  getIosize data.sequentialBlocksizeProb data randomLow

/-- A forward stream at a position: the offset of its next request and its new position. -/
def forwardStream (pos filesize : UInt64) (iosize : UInt32) : UInt64 × UInt64 :=
  let pos := if pos + iosize.toUInt64 > filesize then 0 else pos
  (pos, pos + iosize.toUInt64)

/-- A backward stream at a position: the offset of its next request and its new position. -/
def backwardStream (pos filesize : UInt64) (iosize : UInt32) : UInt64 × UInt64 :=
  let pos := if pos < iosize.toUInt64 then filesize else pos
  let pos := pos - iosize.toUInt64
  (pos, pos)

/-- The offset of a random access. It traps when the file is smaller than the block. -/
def randomBlock (randomBase filesize : UInt64) (iosize : UInt32) : Option Int64 :=
  if filesize / iosize.toUInt64 = 0 then none
  else some ((randomBase % (filesize / iosize.toUInt64)).toInt64 * iosize.toUInt64.toInt64)

/-- `mixed_request_generator_fill_request`, with the worker's seed. The comparison
with `0.75 * UINT32_MAX` is exact in floating point. -/
def mixedFillRequest (data : MixedData) (filesize seed : UInt64) :
    Option (MixedData × UInt64 × Target) :=
  let randomBase := randomUint64T seed
  let randomLow := randomBase.toUInt32
  let randomHigh := (randomBase >>> 32).toUInt32
  if 4 * randomLow.toNat < 3 * 4294967295 then
    if randomLow &&& 0x1F = 0 then
      let iosize := getSequentialIosize data randomHigh
      if randomLow &&& 1 ≠ 0 then
        let (offset, pos) := forwardStream data.seqPos1 filesize iosize
        some ({ data with seqPos1 := pos }, randomBase,
          ⟨offset.toInt64, iosize.toUInt64, false⟩)
      else
        let (offset, pos) := backwardStream data.seqPos2 filesize iosize
        some ({ data with seqPos2 := pos }, randomBase,
          ⟨offset.toInt64, iosize.toUInt64, false⟩)
    else
      let iosize := getRandomIosize data randomHigh
      (randomBlock randomBase filesize iosize).map fun offset =>
        (data, randomBase, ⟨offset, iosize.toUInt64, false⟩)
  else
    if randomLow &&& 0x1F ≤ 1 then
      let iosize := getSequentialIosize data randomHigh
      if randomLow &&& 1 ≠ 0 then
        let (offset, pos) := forwardStream data.seqPos3 filesize iosize
        some ({ data with seqPos3 := pos }, randomBase,
          ⟨offset.toInt64, iosize.toUInt64, true⟩)
      else
        let (offset, pos) := backwardStream data.seqPos4 filesize iosize
        some ({ data with seqPos4 := pos }, randomBase,
          ⟨offset.toInt64, iosize.toUInt64, true⟩)
    else
      let iosize := getRandomIosize data randomHigh
      (randomBlock randomBase filesize iosize).map fun offset =>
        (data, randomBase, ⟨offset, iosize.toUInt64, true⟩)

/-- `mixed_request_generator_max_iosize`. -/
def mixedMaxIosize : UInt64 := 2 * 1024 * 1024

/-- The search for `min_blocksize_idx` in `mixed_request_generator_reset`. It has no
result when it leaves the table. -/
def minBlocksizeLoop (reqsize : UInt64) : ℕ → ℕ → Option ℕ
  | 0, _ => none
  | n + 1, i =>
    if (blocksize i).toUInt64 < reqsize then minBlocksizeLoop reqsize n (i + 1) else some i

/-- `mixed_request_generator_reset`. The cumulative tables, which the source computes
in floating point, are arguments. -/
def mixedReset (randomBlocksizeProb sequentialBlocksizeProb : ℕ → UInt32) (reqsize : UInt64) :
    Option MixedData :=
  (minBlocksizeLoop reqsize 13 0).map fun i =>
    { sequentialBlocksizeProb, randomBlocksizeProb, minBlocksizeIdx := i, blocksizes := 13 - i,
      seqPos1 := 0, seqPos2 := 0, seqPos3 := 0, seqPos4 := 0 }

/-- Every entry of the table is positive and at most 2 MiB. -/
theorem blocksize_bounds {i : ℕ} (hi : i ≤ 12) :
    1 ≤ (blocksize i).toUInt64.toNat ∧ (blocksize i).toUInt64.toNat ≤ mixedMaxIosize.toNat := by
  have hall : ∀ i : Fin 13, 1 ≤ (blocksize i).toUInt64.toNat ∧
      (blocksize i).toUInt64.toNat ≤ mixedMaxIosize.toNat := by decide
  exact hall ⟨i, by omega⟩

/-- The entries of the table are the powers of two from 512. -/
theorem blocksize_eq_pow {i : ℕ} (hi : i ≤ 12) : (blocksize i).toUInt64.toNat = 2 ^ (9 + i) := by
  have hall : ∀ i : Fin 13, (blocksize i).toUInt64.toNat = 2 ^ (9 + (i : ℕ)) := by decide
  exact hall ⟨i, by omega⟩

/-- The search loop returns one of the entries it visits. -/
theorem iosizeLoop_eq (prob : ℕ → UInt32) (randomLow : UInt32) (n i : ℕ) :
    ∃ j, i ≤ j ∧ j ≤ i + n ∧ iosizeLoop prob randomLow n i = blocksize j := by
  induction n generalizing i with
  | zero => exact ⟨i, Nat.le_refl _, Nat.le_refl _, rfl⟩
  | succ n ih =>
    rw [iosizeLoop]
    split
    · exact ⟨i, Nat.le_refl _, by omega, rfl⟩
    · obtain ⟨j, hij, hjn, heq⟩ := ih (i + 1)
      exact ⟨j, by omega, by omega, heq⟩

/-- The search for `min_blocksize_idx` stays inside the table. -/
theorem minBlocksizeLoop_le {reqsize : UInt64} {n i j : ℕ}
    (h : minBlocksizeLoop reqsize n i = some j) : i ≤ j ∧ j < i + n := by
  induction n generalizing i with
  | zero => cases h
  | succ n ih =>
    rw [minBlocksizeLoop] at h
    split at h
    · have hnext := ih h
      omega
    · simp only [Option.some.injEq] at h
      omega

/-- The block sizes in use are a tail of the table and the positions are places in the file. -/
structure MixedData.InFile (data : MixedData) (filesize : UInt64) : Prop where
  minBlocksizeIdx_le : data.minBlocksizeIdx ≤ 12
  blocksizes_eq : data.blocksizes = 13 - data.minBlocksizeIdx
  seqPos1_le : data.seqPos1.toNat ≤ filesize.toNat
  seqPos2_le : data.seqPos2.toNat ≤ filesize.toNat
  seqPos3_le : data.seqPos3.toNat ≤ filesize.toNat
  seqPos4_le : data.seqPos4.toNat ≤ filesize.toNat

/-- The block size of a request is an entry of the table. -/
theorem MixedData.InFile.iosize_bounds {data : MixedData} {filesize : UInt64}
    (h : data.InFile filesize) (prob : ℕ → UInt32) (randomLow : UInt32) :
    1 ≤ (getIosize prob data randomLow).toUInt64.toNat ∧
      (getIosize prob data randomLow).toUInt64.toNat ≤ mixedMaxIosize.toNat := by
  have hmin := h.minBlocksizeIdx_le
  have hsizes := h.blocksizes_eq
  obtain ⟨j, _, hj, heq⟩ := iosizeLoop_eq prob randomLow
    (data.minBlocksizeIdx + data.blocksizes - 1 - data.minBlocksizeIdx) data.minBlocksizeIdx
  rw [getIosize, heq]
  exact blocksize_bounds (by omega)

/-- A forward stream stays in the file and its request ends there. -/
theorem forwardStream_spec {pos filesize : UInt64} {iosize : UInt32}
    (hpos : pos.toNat ≤ filesize.toNat) (hsize : iosize.toUInt64.toNat ≤ filesize.toNat)
    (hfile : filesize.toNat < 2 ^ 63) :
    (forwardStream pos filesize iosize).1.toNat + iosize.toUInt64.toNat ≤ filesize.toNat ∧
      (forwardStream pos filesize iosize).2.toNat ≤ filesize.toNat := by
  simp only [forwardStream]
  split
  · simp only [UInt64.toNat_add]
    have hzero : (0 : UInt64).toNat = 0 := rfl
    omega
  · rename_i hle
    have hle' : (pos + iosize.toUInt64).toNat ≤ filesize.toNat := by
      simpa [UInt64.le_iff_toNat_le] using hle
    rw [UInt64.toNat_add] at hle' ⊢
    omega

/-- A backward stream stays in the file and its request ends there. -/
theorem backwardStream_spec {pos filesize : UInt64} {iosize : UInt32}
    (hpos : pos.toNat ≤ filesize.toNat) (hsize : iosize.toUInt64.toNat ≤ filesize.toNat) :
    (backwardStream pos filesize iosize).1.toNat + iosize.toUInt64.toNat ≤ filesize.toNat ∧
      (backwardStream pos filesize iosize).2.toNat ≤ filesize.toNat := by
  simp only [backwardStream]
  split
  · rw [UInt64.toNat_sub_of_le _ _ (UInt64.le_iff_toNat_le.mpr hsize)]
    omega
  · rename_i hge
    have hge' : iosize.toUInt64 ≤ pos := by simpa using hge
    have hge'' := UInt64.le_iff_toNat_le.mp hge'
    rw [UInt64.toNat_sub_of_le _ _ hge']
    omega

/-- A random access ends inside the file, and its offset is computed without wrapping. -/
theorem randomBlock_spec (randomBase : UInt64) {filesize : UInt64} {iosize : UInt32}
    (hpos : 1 ≤ iosize.toUInt64.toNat) (hsize : iosize.toUInt64.toNat ≤ filesize.toNat)
    (hfile : filesize.toNat < 2 ^ 63) :
    ∃ offset : UInt64, randomBlock randomBase filesize iosize = some offset.toInt64 ∧
      offset.toNat =
        (randomBase % (filesize / iosize.toUInt64)).toNat * iosize.toUInt64.toNat ∧
      offset.toNat + iosize.toUInt64.toNat ≤ filesize.toNat := by
  have hdiv : (filesize / iosize.toUInt64).toNat =
      filesize.toNat / iosize.toUInt64.toNat := UInt64.toNat_div ..
  have hblocks : 1 ≤ (filesize / iosize.toUInt64).toNat := by
    rw [hdiv]
    exact (Nat.one_le_div_iff hpos).mpr hsize
  have hne : filesize / iosize.toUInt64 ≠ 0 := by
    intro hzero
    rw [hzero] at hblocks
    exact absurd hblocks (by decide)
  have hend : (randomBase % (filesize / iosize.toUInt64)).toNat * iosize.toUInt64.toNat +
      iosize.toUInt64.toNat ≤ filesize.toNat := by
    have hlast := block_end_le randomBase hblocks iosize.toUInt64.toNat
    rw [hdiv] at hlast
    exact Nat.le_trans hlast (Nat.div_mul_le_self _ _)
  have hmul : (randomBase % (filesize / iosize.toUInt64) * iosize.toUInt64).toNat =
      (randomBase % (filesize / iosize.toUInt64)).toNat * iosize.toUInt64.toNat := by
    rw [UInt64.toNat_mul, Nat.mod_eq_of_lt (by omega)]
  refine ⟨_, ?_, hmul, by rw [hmul]; exact hend⟩
  rw [randomBlock, if_neg hne, UInt64.toInt64_mul]

/-- None of the sums, differences and products of `fill_request` wraps, whatever
block size is chosen and whatever is drawn. -/
def MixedData.NoWrap (data : MixedData) (filesize : UInt64) : Prop :=
  ∀ i, data.minBlocksizeIdx ≤ i → i ≤ 12 →
    data.seqPos1.toNat + (blocksize i).toUInt64.toNat < 2 ^ 64 ∧
    data.seqPos3.toNat + (blocksize i).toUInt64.toNat < 2 ^ 64 ∧
    (blocksize i).toUInt64.toNat ≤ filesize.toNat ∧
    ∀ randomBase : UInt64, (randomBase % (filesize / (blocksize i).toUInt64)).toNat *
      (blocksize i).toUInt64.toNat < 2 ^ 63

theorem MixedData.InFile.noWrap {data : MixedData} {filesize : UInt64} (h : data.InFile filesize)
    (hmax : mixedMaxIosize.toNat ≤ filesize.toNat) (hfile : filesize.toNat < 2 ^ 63) :
    data.NoWrap filesize := by
  intro i _ hi
  have hbounds := blocksize_bounds hi
  have h1 := h.seqPos1_le
  have h3 := h.seqPos3_le
  refine ⟨by omega, by omega, by omega, fun randomBase => ?_⟩
  obtain ⟨offset, _, heq, hend⟩ :=
    randomBlock_spec randomBase hbounds.1 (by omega) hfile
  omega

/-- A call keeps the positions in the file and produces a request inside it. -/
theorem MixedData.InFile.fill {data : MixedData} {filesize : UInt64} (h : data.InFile filesize)
    (hmax : mixedMaxIosize.toNat ≤ filesize.toNat) (hfile : filesize.toNat < 2 ^ 63)
    (seed : UInt64) :
    ∃ data' t, mixedFillRequest data filesize seed = some (data', randomUint64T seed, t) ∧
      data'.InFile filesize ∧ InsideFile filesize t := by
  have hsize : ∀ prob randomLow, 1 ≤ (getIosize prob data randomLow).toUInt64.toNat ∧
      (getIosize prob data randomLow).toUInt64.toNat ≤ filesize.toNat := by
    intro prob randomLow
    have hbounds := h.iosize_bounds prob randomLow
    omega
  have hforward : ∀ pos : UInt64, pos.toNat ≤ filesize.toNat → ∀ prob randomLow, _ :=
    fun pos hpos prob randomLow =>
      forwardStream_spec hpos (hsize prob randomLow).2 hfile
  have hbackward : ∀ pos : UInt64, pos.toNat ≤ filesize.toNat → ∀ prob randomLow, _ :=
    fun pos hpos prob randomLow =>
      backwardStream_spec hpos (hsize prob randomLow).2
  have hrandom : ∀ randomBase prob randomLow, _ := fun randomBase prob randomLow =>
    randomBlock_spec randomBase (hsize prob randomLow).1 (hsize prob randomLow).2 hfile
  simp only [mixedFillRequest, getRandomIosize, getSequentialIosize]
  split
  · split
    · split
      · have hs := hforward _ h.seqPos1_le data.sequentialBlocksizeProb
          (randomUint64T seed >>> 32).toUInt32
        exact ⟨_, _, rfl, { h with seqPos1_le := hs.2 },
          InsideFile.of_toNat (hsize _ _).1 hs.1 hfile⟩
      · have hs := hbackward _ h.seqPos2_le data.sequentialBlocksizeProb
          (randomUint64T seed >>> 32).toUInt32
        exact ⟨_, _, rfl, { h with seqPos2_le := hs.2 },
          InsideFile.of_toNat (hsize _ _).1 hs.1 hfile⟩
    · obtain ⟨offset, heq, _, hend⟩ := hrandom (randomUint64T seed) data.randomBlocksizeProb
        (randomUint64T seed >>> 32).toUInt32
      exact ⟨data, _, by rw [heq]; rfl, h, InsideFile.of_toNat (hsize _ _).1 hend hfile⟩
  · split
    · split
      · have hs := hforward _ h.seqPos3_le data.sequentialBlocksizeProb
          (randomUint64T seed >>> 32).toUInt32
        exact ⟨_, _, rfl, { h with seqPos3_le := hs.2 },
          InsideFile.of_toNat (hsize _ _).1 hs.1 hfile⟩
      · have hs := hbackward _ h.seqPos4_le data.sequentialBlocksizeProb
          (randomUint64T seed >>> 32).toUInt32
        exact ⟨_, _, rfl, { h with seqPos4_le := hs.2 },
          InsideFile.of_toNat (hsize _ _).1 hs.1 hfile⟩
    · obtain ⟨offset, heq, _, hend⟩ := hrandom (randomUint64T seed) data.randomBlocksizeProb
        (randomUint64T seed >>> 32).toUInt32
      exact ⟨data, _, by rw [heq]; rfl, h, InsideFile.of_toNat (hsize _ _).1 hend hfile⟩

/-- After a reset all four positions are at the start of the file. -/
theorem mixedReset_inFile {randomProb sequentialProb : ℕ → UInt32} {reqsize filesize : UInt64}
    {data : MixedData} (hreset : mixedReset randomProb sequentialProb reqsize = some data) :
    data.InFile filesize := by
  simp only [mixedReset, Option.map_eq_some_iff] at hreset
  obtain ⟨i, hi, rfl⟩ := hreset
  have hle := minBlocksizeLoop_le hi
  have hi' : i ≤ 12 := by omega
  exact ⟨hi', rfl, Nat.zero_le _, Nat.zero_le _, Nat.zero_le _, Nat.zero_le _⟩

/-- The block sizes in use are a tail of the table. -/
structure MixedData.Tail (data : MixedData) : Prop where
  minBlocksizeIdx_le : data.minBlocksizeIdx ≤ 12
  blocksizes_eq : data.blocksizes = 13 - data.minBlocksizeIdx

/-- A block size that is chosen is an entry of the tail. -/
theorem MixedData.Tail.getIosize_eq {data : MixedData} (h : data.Tail) (prob : ℕ → UInt32)
    (randomLow : UInt32) :
    ∃ j, data.minBlocksizeIdx ≤ j ∧ j ≤ 12 ∧ getIosize prob data randomLow = blocksize j := by
  have hmin := h.minBlocksizeIdx_le
  have hsizes := h.blocksizes_eq
  obtain ⟨j, hj, hj', heq⟩ := iosizeLoop_eq prob randomLow
    (data.minBlocksizeIdx + data.blocksizes - 1 - data.minBlocksizeIdx) data.minBlocksizeIdx
  exact ⟨j, hj, by omega, heq⟩

/-- The outcomes of `fill_request` for a block size. -/
inductive MixedNext (data : MixedData) (filesize randomBase : UInt64) (iosize : UInt32)
    (write : Bool) : MixedData → Target → Prop
  | random (offset : Int64) (hblock : randomBlock randomBase filesize iosize = some offset) :
      MixedNext data filesize randomBase iosize write data ⟨offset, iosize.toUInt64, write⟩
  | readForward :
      MixedNext data filesize randomBase iosize write
        { data with seqPos1 := (forwardStream data.seqPos1 filesize iosize).2 }
        ⟨(forwardStream data.seqPos1 filesize iosize).1.toInt64, iosize.toUInt64, write⟩
  | readBackward :
      MixedNext data filesize randomBase iosize write
        { data with seqPos2 := (backwardStream data.seqPos2 filesize iosize).2 }
        ⟨(backwardStream data.seqPos2 filesize iosize).1.toInt64, iosize.toUInt64, write⟩
  | writeForward :
      MixedNext data filesize randomBase iosize write
        { data with seqPos3 := (forwardStream data.seqPos3 filesize iosize).2 }
        ⟨(forwardStream data.seqPos3 filesize iosize).1.toInt64, iosize.toUInt64, write⟩
  | writeBackward :
      MixedNext data filesize randomBase iosize write
        { data with seqPos4 := (backwardStream data.seqPos4 filesize iosize).2 }
        ⟨(backwardStream data.seqPos4 filesize iosize).1.toInt64, iosize.toUInt64, write⟩

/-- `fill_request` chooses a block size of one of the two tables and one of the outcomes. -/
theorem mixedFillRequest_next {data data' : MixedData} {filesize seed seed' : UInt64} {t : Target}
    (h : mixedFillRequest data filesize seed = some (data', seed', t)) :
    seed' = randomUint64T seed ∧ ∃ prob randomHigh write,
      MixedNext data filesize (randomUint64T seed) (getIosize prob data randomHigh) write
        data' t := by
  unfold mixedFillRequest getSequentialIosize getRandomIosize at h
  dsimp only at h
  split at h
  · split at h
    · split at h
      · cases h
        exact ⟨rfl, _, _, _, .readForward⟩
      · cases h
        exact ⟨rfl, _, _, _, .readBackward⟩
    · obtain ⟨offset, hblock, heq⟩ := Option.map_eq_some_iff.mp h
      cases heq
      exact ⟨rfl, _, _, _, .random offset hblock⟩
  · split at h
    · split at h
      · cases h
        exact ⟨rfl, _, _, _, .writeForward⟩
      · cases h
        exact ⟨rfl, _, _, _, .writeBackward⟩
    · obtain ⟨offset, hblock, heq⟩ := Option.map_eq_some_iff.mp h
      cases heq
      exact ⟨rfl, _, _, _, .random offset hblock⟩

/-- The request of an outcome has the block size, and the tables stay as they are. -/
theorem MixedNext.fixed {data data' : MixedData} {filesize randomBase : UInt64} {iosize : UInt32}
    {write : Bool} {t : Target} (h : MixedNext data filesize randomBase iosize write data' t) :
    t.size = iosize.toUInt64 ∧ data'.minBlocksizeIdx = data.minBlocksizeIdx ∧
      data'.blocksizes = data.blocksizes := by
  cases h <;> exact ⟨rfl, rfl, rfl⟩

/-- After a reset the block sizes in use are a tail of the table. -/
theorem mixedReset_tail {randomProb sequentialProb : ℕ → UInt32} {reqsize : UInt64}
    {data : MixedData} (hreset : mixedReset randomProb sequentialProb reqsize = some data) :
    data.Tail := by
  simp only [mixedReset, Option.map_eq_some_iff] at hreset
  obtain ⟨i, hi, rfl⟩ := hreset
  have hle := minBlocksizeLoop_le hi
  have hi' : i ≤ 12 := by omega
  exact ⟨hi', rfl⟩

end DiskBench
