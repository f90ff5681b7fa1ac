import DiskBench.FileOpen
import DiskBench.Workloads.Workloads

/-!
# Requests in whole sectors

Direct I/O needs offsets and sizes that are multiples of the sector size. Sums, differences and
products of 64-bit words keep multiples of a power of two. So the offsets of all generators are
multiples of the sector size, but for the backward streams of the mixed one, which start at the end
of the file.
-/

namespace DiskBench

/-- A power of two from 512 to 2 MiB. -/
def IsSectorSize (sectorSize : UInt64) : Prop :=
  ∃ k, 9 ≤ k ∧ k ≤ 21 ∧ sectorSize.toNat = 2 ^ k

/-- Offset and size of a request are multiples of `n`. -/
structure Target.MultipleOf (n : ℕ) (t : Target) : Prop where
  offset : n ∣ t.offset.toUInt64.toNat
  size : n ∣ t.size.toNat

section Words

variable {n : ℕ} {x y : UInt64}

theorem IsSectorSize.dvd_word {sectorSize : UInt64} (h : IsSectorSize sectorSize) :
    sectorSize.toNat ∣ 2 ^ 64 := by
  obtain ⟨k, _, hk, heq⟩ := h
  rw [heq]
  exact Nat.pow_dvd_pow 2 (by omega)

/-- Sums keep multiples of a divisor of the word size. -/
theorem dvd_toNat_add (hword : n ∣ 2 ^ 64) (hx : n ∣ x.toNat) (hy : n ∣ y.toNat) :
    n ∣ (x + y).toNat := by
  rw [UInt64.toNat_add]
  exact (Nat.dvd_mod_iff hword).mpr (Nat.dvd_add hx hy)

/-- And so do products. -/
theorem dvd_toNat_mul (hword : n ∣ 2 ^ 64) (hy : n ∣ y.toNat) : n ∣ (x * y).toNat := by
  rw [UInt64.toNat_mul]
  exact (Nat.dvd_mod_iff hword).mpr (Nat.dvd_mul_left_of_dvd hy _)

/-- A difference is a multiple when the first number is. -/
theorem dvd_toNat_sub_iff (hword : n ∣ 2 ^ 64) (hy : n ∣ y.toNat) :
    n ∣ (x - y).toNat ↔ n ∣ x.toNat := by
  constructor
  · intro hsub
    have hsum := dvd_toNat_add hword hsub hy
    rwa [UInt64.sub_add_cancel] at hsum
  · intro hx
    rw [UInt64.toNat_sub]
    exact (Nat.dvd_mod_iff hword).mpr (Nat.dvd_add (Nat.dvd_sub hword hy) hx)

end Words

section Sizes

/-- The search for `min_blocksize_idx` ends at a block size that holds the request size. -/
theorem minBlocksizeLoop_ge {reqsize : UInt64} {n i j : ℕ}
    (h : minBlocksizeLoop reqsize n i = some j) : reqsize.toNat ≤ (blocksize j).toUInt64.toNat := by
  induction n generalizing i with
  | zero => cases h
  | succ n ih =>
    rw [minBlocksizeLoop] at h
    split at h
    · exact ih h
    · rename_i hge
      rw [Option.some.injEq] at h
      rw [← h]
      exact UInt64.le_iff_toNat_le.mp (UInt64.not_lt.mp hge)

/-- All block sizes from there on are multiples of a sector size. -/
theorem IsSectorSize.dvd_blocksize {sectorSize : UInt64} (h : IsSectorSize sectorSize) {n i j k : ℕ}
    (hmin : minBlocksizeLoop sectorSize n i = some j) (hj : j ≤ k) (hk : k ≤ 12) :
    sectorSize.toNat ∣ (blocksize k).toUInt64.toNat := by
  obtain ⟨l, _, _, heq⟩ := h
  have hge := minBlocksizeLoop_ge hmin
  rw [heq, blocksize_eq_pow (by omega)] at hge
  have hle : l ≤ 9 + j := (Nat.pow_le_pow_iff_right (by omega)).mp hge
  rw [heq, blocksize_eq_pow hk]
  exact Nat.pow_dvd_pow 2 (by omega)

end Sizes

/-- The block sizes and the positions of the mixed generator are multiples of `n`. -/
structure MixedData.MultipleOf (n : ℕ) (data : MixedData) : Prop where
  tail : data.Tail
  blocksizes : ∀ i, data.minBlocksizeIdx ≤ i → i ≤ 12 → n ∣ (blocksize i).toUInt64.toNat
  seqPos1 : n ∣ data.seqPos1.toNat
  seqPos2 : n ∣ data.seqPos2.toNat
  seqPos3 : n ∣ data.seqPos3.toNat
  seqPos4 : n ∣ data.seqPos4.toNat

/-- What a generator adds, subtracts and multiplies are multiples of `n`; for the mixed one the
file size is among them. -/
def GeneratorData.MultipleOf (n : ℕ) (filesize : UInt64) (data : GeneratorData) : Prop :=
  match data with
  | .sequential data => n ∣ data.off.toUInt64.toNat ∧ n ∣ data.reqSize.toNat
  | .random data => n ∣ data.reqSize.toNat
  | .mixed data => data.MultipleOf n ∧ n ∣ filesize.toNat

/-- The mixed workload. -/
def Factory.IsMixed (factory : Factory) : Prop :=
  match factory with
  | .sequential _ => False
  | .random _ => False
  | .mixed _ _ => True

section Calls

variable {n : ℕ} {filesize : UInt64}

theorem forwardStream_dvd (hword : n ∣ 2 ^ 64) {pos : UInt64} {iosize : UInt32}
    (hpos : n ∣ pos.toNat) (hsize : n ∣ iosize.toUInt64.toNat) :
    n ∣ (forwardStream pos filesize iosize).1.toNat ∧
      n ∣ (forwardStream pos filesize iosize).2.toNat := by
  unfold forwardStream
  dsimp only
  split
  · exact ⟨Nat.dvd_zero _, dvd_toNat_add hword (Nat.dvd_zero _) hsize⟩
  · exact ⟨hpos, dvd_toNat_add hword hpos hsize⟩

theorem backwardStream_dvd (hword : n ∣ 2 ^ 64) {pos : UInt64} {iosize : UInt32}
    (hpos : n ∣ pos.toNat) (hsize : n ∣ iosize.toUInt64.toNat) (hfile : n ∣ filesize.toNat) :
    n ∣ (backwardStream pos filesize iosize).1.toNat ∧
      n ∣ (backwardStream pos filesize iosize).2.toNat := by
  unfold backwardStream
  dsimp only
  split
  · exact ⟨(dvd_toNat_sub_iff hword hsize).mpr hfile, (dvd_toNat_sub_iff hword hsize).mpr hfile⟩
  · exact ⟨(dvd_toNat_sub_iff hword hsize).mpr hpos, (dvd_toNat_sub_iff hword hsize).mpr hpos⟩

theorem randomBlock_dvd (hword : n ∣ 2 ^ 64) {randomBase : UInt64} {iosize : UInt32}
    {offset : Int64} (hsize : n ∣ iosize.toUInt64.toNat)
    (h : randomBlock randomBase filesize iosize = some offset) : n ∣ offset.toUInt64.toNat := by
  unfold randomBlock at h
  split at h
  · cases h
  · cases h
    rw [← UInt64.toInt64_mul]
    exact dvd_toNat_mul hword hsize

/-- A call of the mixed generator keeps the multiples. -/
theorem MixedNext.multipleOf (hword : n ∣ 2 ^ 64) {data data' : MixedData} {randomBase : UInt64}
    {iosize : UInt32} {write : Bool} {t : Target} (hsize : n ∣ iosize.toUInt64.toNat)
    (hfile : n ∣ filesize.toNat) (hdata : data.MultipleOf n)
    (h : MixedNext data filesize randomBase iosize write data' t) :
    data'.MultipleOf n ∧ t.MultipleOf n := by
  obtain ⟨htail, hsizes, h1, h2, h3, h4⟩ := hdata
  cases h with
  | random offset hblock =>
    exact ⟨⟨htail, hsizes, h1, h2, h3, h4⟩, randomBlock_dvd hword hsize hblock, hsize⟩
  | readForward =>
    obtain ⟨hoffset, hpos⟩ := @forwardStream_dvd n filesize hword _ _ h1 hsize
    exact ⟨⟨⟨htail.1, htail.2⟩, hsizes, hpos, h2, h3, h4⟩, hoffset, hsize⟩
  | readBackward =>
    obtain ⟨hoffset, hpos⟩ := backwardStream_dvd hword h2 hsize hfile
    exact ⟨⟨⟨htail.1, htail.2⟩, hsizes, h1, hpos, h3, h4⟩, hoffset, hsize⟩
  | writeForward =>
    obtain ⟨hoffset, hpos⟩ := @forwardStream_dvd n filesize hword _ _ h3 hsize
    exact ⟨⟨⟨htail.1, htail.2⟩, hsizes, h1, h2, hpos, h4⟩, hoffset, hsize⟩
  | writeBackward =>
    obtain ⟨hoffset, hpos⟩ := backwardStream_dvd hword h4 hsize hfile
    exact ⟨⟨⟨htail.1, htail.2⟩, hsizes, h1, h2, h3, hpos⟩, hoffset, hsize⟩

/-- A call of a generator keeps the multiples, and offset and size of the request are among
them. -/
theorem GeneratorData.MultipleOf.fill (hword : n ∣ 2 ^ 64) {data data' : GeneratorData}
    {seed seed' : UInt64} {t : Target} (h : data.MultipleOf n filesize)
    (hfill : workloads.fillRequest data filesize seed = some (data', seed', t)) :
    data'.MultipleOf n filesize ∧ t.MultipleOf n := by
  cases data with
  | sequential data =>
    obtain ⟨hoff, hsize⟩ := h
    have hnext := dvd_toNat_add hword hoff hsize
    rw [workloads_sequential, sequentialFillRequest] at hfill
    dsimp only at hfill
    split at hfill
    · cases hfill
      exact ⟨⟨Nat.dvd_zero _, hsize⟩, Nat.dvd_zero _, hsize⟩
    · cases hfill
      exact ⟨⟨hnext, hsize⟩, hoff, hsize⟩
  | random data =>
    have hsize : n ∣ data.reqSize.toNat := h
    simp only [workloads, randomFillRequest, Option.map_eq_some_iff] at hfill
    obtain ⟨⟨seed'', t'⟩, hrandom, heq⟩ := hfill
    split at hrandom
    · cases hrandom
    · cases hrandom
      cases heq
      exact ⟨hsize, dvd_toNat_mul hword hsize, hsize⟩
  | mixed data =>
    obtain ⟨hdata, hfile⟩ := h
    simp only [workloads, Option.map_eq_some_iff] at hfill
    obtain ⟨⟨data'', seed'', t'⟩, hmixed, heq⟩ := hfill
    cases heq
    obtain ⟨_, prob, randomHigh, write, hnext⟩ := mixedFillRequest_next hmixed
    obtain ⟨j, hj, hj', hblock⟩ := hdata.tail.getIosize_eq prob randomHigh
    have hsize := hdata.blocksizes j hj hj'
    rw [← hblock] at hsize
    obtain ⟨hdata', ht⟩ := hnext.multipleOf hword hsize hfile hdata
    exact ⟨⟨hdata', hfile⟩, ht⟩

/-- Any number of calls keep them. -/
theorem GeneratorData.MultipleOf.exec (hword : n ∣ 2 ^ 64) {data data' : GeneratorData}
    {seeds : List UInt64} (h : data.MultipleOf n filesize)
    (hexec : Transition.exec (workloads.fillStep filesize) data seeds = some data') :
    data'.MultipleOf n filesize := by
  apply Transition.exec_invariant (P := fun _ _ => True) (I := fun d => d.MultipleOf n filesize)
    _ hexec Transition.along_true h
  intro d seed d' hd _ hstep
  simp only [Generator.fillStep, Option.map_eq_some_iff] at hstep
  obtain ⟨⟨e, seed', t⟩, heq, rfl⟩ := hstep
  exact (hd.fill hword heq).1

end Calls

section Reset

variable {factory : Factory} {filesize reqsize sectorSize : UInt64} {data : GeneratorData}

/-- After a reset the offsets are 0, and the sizes are multiples of the sector size. -/
theorem Factory.reset_multipleOf (hsector : IsSectorSize sectorSize)
    (hreqsize : sectorSize.toNat ∣ reqsize.toNat) (hmixed : factory.IsMixed → reqsize = sectorSize)
    (hfile : factory.IsMixed → sectorSize.toNat ∣ filesize.toNat)
    (hreset : factory.reset filesize reqsize = some data) :
    data.MultipleOf sectorSize.toNat filesize := by
  cases factory with
  | sequential write =>
    cases hreset
    exact ⟨Nat.dvd_zero _, hreqsize⟩
  | random write =>
    simp only [Factory.reset, randomReset, Option.map_eq_some_iff] at hreset
    obtain ⟨data, hdata, rfl⟩ := hreset
    split at hdata
    · cases hdata
    · cases hdata
      exact hreqsize
  | mixed randomProb sequentialProb =>
    obtain rfl := hmixed trivial
    simp only [Factory.reset, mixedReset, Option.map_eq_some_iff] at hreset
    obtain ⟨data, ⟨i, hmin, rfl⟩, rfl⟩ := hreset
    have hle := minBlocksizeLoop_le hmin
    exact ⟨⟨⟨by dsimp only; omega, rfl⟩, fun k hk hk' => hsector.dvd_blocksize hmin hk hk',
      Nat.dvd_zero _, Nat.dvd_zero _, Nat.dvd_zero _, Nat.dvd_zero _⟩, hfile trivial⟩

/-- With the seed 32 the first request of the mixed generator is read backward from the end of
the file. -/
theorem mixed_first_backward {randomProb sequentialProb : ℕ → UInt32}
    (hsector : IsSectorSize sectorSize)
    (hreset : (Factory.mixed randomProb sequentialProb).reset filesize sectorSize = some data) :
    ∃ data' seed' t, workloads.fillRequest data filesize 32 = some (data', seed', t) ∧
      (sectorSize.toNat ∣ t.offset.toUInt64.toNat ↔ sectorSize.toNat ∣ filesize.toNat) := by
  simp only [Factory.reset, mixedReset, Option.map_eq_some_iff] at hreset
  obtain ⟨data, ⟨i, hmin, rfl⟩, rfl⟩ := hreset
  generalize hdata : MixedData.mk sequentialProb randomProb i (13 - i) 0 0 0 0 = data
  have htail : data.Tail := by
    have hle := minBlocksizeLoop_le hmin
    rw [← hdata]
    exact ⟨by dsimp only; omega, rfl⟩
  have hread : 4 * (randomUint64T 32).toUInt32.toNat < 3 * 4294967295 := by decide
  have hsequential : (randomUint64T 32).toUInt32 &&& 0x1F = 0 := by decide
  have hbackward : ¬(randomUint64T 32).toUInt32 &&& 1 ≠ 0 := by decide
  obtain ⟨iosize, hiosize⟩ :
      ∃ iosize, iosize = getSequentialIosize data (randomUint64T 32 >>> 32).toUInt32 := ⟨_, rfl⟩
  have hfill : mixedFillRequest data filesize 32 =
      some ({ data with seqPos2 := (backwardStream data.seqPos2 filesize iosize).2 },
        randomUint64T 32, ⟨(backwardStream data.seqPos2 filesize iosize).1.toInt64,
          iosize.toUInt64, false⟩) := by
    unfold mixedFillRequest
    dsimp only
    rw [if_pos hread, if_pos hsequential, if_neg hbackward, ← hiosize]
  obtain ⟨j, hj, hj', hblock⟩ := htail.getIosize_eq data.sequentialBlocksizeProb
    (randomUint64T 32 >>> 32).toUInt32
  have hmin' : data.minBlocksizeIdx = i := by rw [← hdata]
  have hsize : sectorSize.toNat ∣ iosize.toUInt64.toNat := by
    rw [hiosize, getSequentialIosize, hblock]
    exact hsector.dvd_blocksize hmin (hmin' ▸ hj) hj'
  have hpos : data.seqPos2 < iosize.toUInt64 := by
    rw [UInt64.lt_iff_toNat_lt, hiosize, getSequentialIosize, hblock, ← hdata]
    exact (blocksize_bounds hj').1
  refine ⟨_, _, _, by simp only [workloads, hfill]; rfl, ?_⟩
  simp only [backwardStream, if_pos hpos, UInt64.toUInt64_toInt64]
  exact dvd_toNat_sub_iff hsector.dvd_word hsize

/-- **Whole sectors.** After a reset for a multiple of the sector size, for the mixed workload for
the sector size, all offsets and sizes are multiples of the sector size after any number of calls
and for any seeds, exactly when the workload is not the mixed one or the file size is a multiple of
the sector size. -/
theorem requests_whole_sectors_iff (hsector : IsSectorSize sectorSize)
    (hreqsize : sectorSize.toNat ∣ reqsize.toNat) (hmixed : factory.IsMixed → reqsize = sectorSize)
    (hreset : factory.reset filesize reqsize = some data) :
    (∀ seeds data', Transition.exec (workloads.fillStep filesize) data seeds = some data' →
      ∀ seed data'' seed' t, workloads.fillRequest data' filesize seed = some (data'', seed', t) →
        t.MultipleOf sectorSize.toNat) ↔
      (factory.IsMixed → sectorSize.toNat ∣ filesize.toNat) := by
  constructor
  · intro hall hfactory
    cases factory with
    | sequential write => exact hfactory.elim
    | random write => exact hfactory.elim
    | mixed randomProb sequentialProb =>
      obtain rfl := hmixed trivial
      obtain ⟨data', seed', t, hfill, hiff⟩ := mixed_first_backward hsector hreset
      exact hiff.mp (hall [] data rfl 32 data' seed' t hfill).offset
  · intro hfile seeds data' hexec seed data'' seed' t hfill
    have hdata := (Factory.reset_multipleOf hsector hreqsize hmixed hfile hreset).exec
      hsector.dvd_word hexec
    exact (hdata.fill hsector.dvd_word hfill).2

/-- Random writes of 8192 bytes in a file of an odd length. -/
theorem requests_whole_sectors_random :
    (Factory.random true).reset 200000001 8192 = some (.random ⟨true, 24414, 8192⟩) ∧
    ∀ seeds data', Transition.exec (workloads.fillStep 200000001) (.random ⟨true, 24414, 8192⟩)
        seeds = some data' →
      ∀ seed data'' seed' t, workloads.fillRequest data' 200000001 seed = some (data'', seed', t) →
        t.MultipleOf (4096 : UInt64).toNat :=
  ⟨rfl, (@requests_whole_sectors_iff (.random true) 200000001 8192 4096 _
    ⟨12, by decide, by decide, rfl⟩ (by decide) (fun h => h.elim) rfl).mpr fun h => h.elim⟩

end Reset

/-- A file of 200000001 bytes is opened with this length. With sectors of 4096 bytes the mixed
workload has then a request whose offset is no multiple of 512. -/
theorem unaligned_backward_read :
    linuxFileOpen 4096 (.exact 1) (.succeed 1073741824) (some 200000001) 0 =
      some ⟨200000001, false⟩ ∧
    ∀ randomProb sequentialProb, ∃ data data' seed' t,
      (Factory.mixed randomProb sequentialProb).reset 200000001 4096 = some data ∧
      workloads.fillRequest data 200000001 32 = some (data', seed', t) ∧
      ¬t.MultipleOf (4096 : UInt64).toNat := by
  refine ⟨rfl, fun randomProb sequentialProb => ?_⟩
  obtain ⟨data', seed', t, hfill, hiff⟩ := @mixed_first_backward 200000001 4096 _ randomProb
    sequentialProb ⟨12, by decide, by decide, rfl⟩ rfl
  exact ⟨_, data', seed', t, rfl, hfill, fun h => absurd (hiff.mp h.offset) (by decide)⟩

end DiskBench
