import DiskBench.Workloads.Generator

/-!
# The random workload

`random_workload.c`. The file is divided into blocks of the request size, and each
request takes the block given by the next random number.
-/

namespace DiskBench

/-- `struct random_request_generator_data`. -/
structure RandomData where
  write : Bool
  blocks : UInt64
  reqSize : UInt64

/-- `random_request_generator_fill_request`, with the worker's seed. It traps when
there are no blocks. -/
def randomFillRequest (data : RandomData) (seed : UInt64) : Option (UInt64 × Target) :=
  let randomBase := randomUint64T seed
  if data.blocks = 0 then none
  else
    let offset := (randomBase % data.blocks).toInt64
    let offset := (offset.toUInt64 * data.reqSize).toInt64
    some (randomBase, ⟨offset, data.reqSize, data.write⟩)

/-- `random_request_generator_max_iosize`. -/
def randomMaxIosize (data : RandomData) : UInt64 := data.reqSize

/-- `random_request_generator_factory`. -/
def randomFactory (write : Bool) : RandomData := ⟨write, 0, 0⟩

/-- `random_request_generator_reset`. It traps for the request size 0. -/
def randomReset (template : RandomData) (filesize reqsize : UInt64) : Option RandomData :=
  if reqsize = 0 then none
  else some { template with reqSize := reqsize, blocks := filesize / reqsize }

/-- The blocks cover no more than the file, and there is at least one. -/
structure RandomData.InFile (data : RandomData) (filesize : UInt64) : Prop where
  blocks_pos : 1 ≤ data.blocks.toNat
  reqSize_pos : 1 ≤ data.reqSize.toNat
  blocks_le : data.blocks.toNat * data.reqSize.toNat ≤ filesize.toNat

/-- The product that `fill_request` computes does not wrap, whatever is drawn. -/
def RandomData.NoWrap (data : RandomData) : Prop :=
  ∀ randomBase : UInt64, (randomBase % data.blocks).toNat * data.reqSize.toNat < 2 ^ 63

/-- A block drawn at random ends inside the file. -/
theorem RandomData.InFile.block_end {data : RandomData} {filesize : UInt64}
    (h : data.InFile filesize) (randomBase : UInt64) :
    (randomBase % data.blocks).toNat * data.reqSize.toNat + data.reqSize.toNat ≤
      filesize.toNat :=
  Nat.le_trans (block_end_le randomBase h.blocks_pos _) h.blocks_le

theorem RandomData.InFile.noWrap {data : RandomData} {filesize : UInt64}
    (h : data.InFile filesize) (hfile : filesize.toNat < 2 ^ 63) : data.NoWrap := by
  intro randomBase
  have hend := h.block_end randomBase
  omega

/-- A call produces a request inside the file. -/
theorem RandomData.InFile.fill {data : RandomData} {filesize : UInt64}
    (h : data.InFile filesize) (hfile : filesize.toNat < 2 ^ 63) (seed : UInt64) :
    ∃ seed' t, randomFillRequest data seed = some (seed', t) ∧ InsideFile filesize t := by
  have hblocks : data.blocks ≠ 0 := by
    intro hzero
    have hpos := h.blocks_pos
    rw [hzero] at hpos
    exact absurd hpos (by decide)
  have hend := h.block_end (randomUint64T seed)
  have hmul : (randomUint64T seed % data.blocks * data.reqSize).toNat =
      (randomUint64T seed % data.blocks).toNat * data.reqSize.toNat := by
    rw [UInt64.toNat_mul, Nat.mod_eq_of_lt (by omega)]
  refine ⟨_, _, if_neg hblocks, ?_⟩
  simp only [UInt64.toUInt64_toInt64]
  exact InsideFile.of_toNat h.reqSize_pos (by rw [hmul]; exact hend) hfile

/-- After a reset the blocks cover no more than the file. -/
theorem randomReset_inFile {write : Bool} {filesize reqsize : UInt64} {data : RandomData}
    (hpos : 1 ≤ reqsize.toNat) (hle : reqsize.toNat ≤ filesize.toNat)
    (hreset : randomReset (randomFactory write) filesize reqsize = some data) :
    data.InFile filesize := by
  have hne : reqsize ≠ 0 := by
    rintro rfl
    exact absurd hpos (by decide)
  rw [randomReset, if_neg hne, Option.some.injEq] at hreset
  subst hreset
  have hdiv : (filesize / reqsize).toNat = filesize.toNat / reqsize.toNat := UInt64.toNat_div ..
  refine ⟨?_, hpos, ?_⟩
  · rw [hdiv]
    exact (Nat.one_le_div_iff hpos).mpr hle
  · rw [hdiv]
    exact Nat.div_mul_le_self _ _

end DiskBench
