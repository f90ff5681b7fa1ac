import DiskBench.Foundations.Chances
import DiskBench.RandomState

/-!
# The blocks of the random workload

Each request of the random workload takes the block of the next random number. The draws for the
data of a write come in between, but their number is always the same, so every request depends on
the seed of the worker by a permutation of the words.
-/

namespace DiskBench

open Chances Transition

/-- The draws for the data of a request with this direction and size. -/
def dataDraws (config : Config) (write : Bool) (size : UInt64) : ℕ :=
  if write = true ∧ config.writeRandom = true then 62 * ((size.toNat + 511) / 512) else 0

/-- A word by its number. -/
def wordEquiv : UInt64 ≃ Fin (2 ^ 64) where
  toFun := UInt64.toFin
  invFun := UInt64.ofFin
  left_inv _ := rfl
  right_inv _ := rfl

variable {config : Config} {data : RandomData} {filesize seed : UInt64}

/-- The draws of the preparation of a request. -/
theorem prepareEntry_randomSeed (config : Config) (worker : IoWorker) (entry : AsyncQueueEntry)
    (seed : UInt64) (target : Target) (now : AprTime) :
    (prepareEntry config worker entry seed target now).2.randomSeed =
      randomUint64T^[dataDraws config target.write target.size] seed := by
  unfold prepareEntry dataDraws
  cases hwrite : target.write with
  | false => rfl
  | true =>
    rw [if_pos rfl]
    refine (fillBuffer_seed config.writeRandom _ seed).trans ?_
    cases config.writeRandom <;> rfl

/-- A request of the random workload takes the block of a draw, and leaves the seed behind a fixed
number of draws. -/
theorem nextRequest_random (hblocks : data.blocks ≠ 0) :
    ∃ r, nextRequest config workloads filesize (.random data, seed) = some (r, .random data,
        randomUint64T^[dataDraws config data.write data.reqSize + 1] seed) ∧
      r.off = randomUint64T seed % data.blocks * data.reqSize := by
  have hfill : workloads.fillRequest (.random data) filesize seed =
      some (.random data, randomUint64T seed,
        ⟨((randomUint64T seed % data.blocks).toInt64.toUInt64 * data.reqSize).toInt64,
          data.reqSize, data.write⟩) := by
    show (randomFillRequest data seed).map _ = _
    rw [randomFillRequest, if_neg hblocks]
    rfl
  rw [nextRequest, hfill, Option.map_some]
  dsimp only
  rw [prepareEntry_randomSeed, ← Function.iterate_succ_apply]
  refine ⟨_, rfl, ?_⟩
  rw [IoRequest.off, prepareEntry_offset]
  simp only [UInt64.toUInt64_toInt64]

/-- Request `n` of the random workload takes the block of a draw that depends on the seed by a
permutation of the words. -/
theorem supply_random (hblocks : data.blocks ≠ 0) (n : ℕ) :
    ∃ r, supply (nextRequest config workloads filesize) (.random data, seed) n = some r ∧
      r.off = randomUint64T^[n * (dataDraws config data.write data.reqSize + 1) + 1] seed %
        data.blocks * data.reqSize := by
  induction n generalizing seed with
  | zero =>
    obtain ⟨r, hnext, hoff⟩ := @nextRequest_random config data filesize seed hblocks
    exact ⟨r, by rw [supply, hnext]; rfl, by rw [hoff, Nat.zero_mul]; rfl⟩
  | succ n ih =>
    obtain ⟨r, hnext, _⟩ := @nextRequest_random config data filesize seed hblocks
    obtain ⟨r', hsupply, hoff⟩ :=
      @ih (randomUint64T^[dataDraws config data.write data.reqSize + 1] seed)
    refine ⟨r', by rw [supply, hnext]; exact hsupply, ?_⟩
    rw [hoff, ← Function.iterate_add_apply, Nat.succ_mul, Nat.add_right_comm]

section Reset

variable {write : Bool} {reqsize : UInt64} (hpos : 1 ≤ reqsize.toNat)
  (hle : reqsize.toNat ≤ filesize.toNat) (hfile : filesize.toNat < 2 ^ 63)
  (hreset : randomReset (randomFactory write) filesize reqsize = some data)

include hpos hle hfile hreset

/-- After a reset, request `n` takes a block when its draw has the remainder of the block. -/
theorem supply_block (config : Config) (seed : UInt64) (n k : ℕ) :
    (∃ r, supply (nextRequest config workloads filesize) (.random data, seed) n = some r ∧
      r.off.toNat = k * reqsize.toNat) ↔
      (randomUint64T^[n * (dataDraws config write reqsize + 1) + 1] seed).toNat %
        (filesize.toNat / reqsize.toNat) = k := by
  have hin := randomReset_inFile hpos hle hreset
  have hne : reqsize ≠ 0 := by
    rintro rfl
    exact absurd hpos (by decide)
  rw [randomReset, if_neg hne, Option.some.injEq] at hreset
  have hsize : data.reqSize = reqsize := by rw [← hreset]
  have hwrite : data.write = write := by rw [← hreset, randomFactory]
  have hcount : data.blocks.toNat = filesize.toNat / reqsize.toNat := by
    rw [← hreset]
    exact UInt64.toNat_div ..
  have hblocks : data.blocks ≠ 0 := by
    intro hzero
    have hsome := Nat.div_pos hle hpos
    rw [hzero, UInt64.toNat_zero] at hcount
    omega
  obtain ⟨r, hsupply, hoff⟩ := @supply_random config data filesize seed hblocks n
  rw [hsize, hwrite] at hoff
  have hplace : r.off.toNat =
      (randomUint64T^[n * (dataDraws config write reqsize + 1) + 1] seed).toNat %
        (filesize.toNat / reqsize.toNat) * reqsize.toNat := by
    have hwrap := hin.noWrap hfile
      (randomUint64T^[n * (dataDraws config write reqsize + 1) + 1] seed)
    rw [hsize] at hwrap
    rw [hoff, UInt64.toNat_mul, Nat.mod_eq_of_lt (by omega), UInt64.toNat_mod, hcount]
  simp only [hsupply, Option.some.injEq, exists_eq_left', hplace]
  exact Nat.mul_left_inj (Nat.ne_of_gt hpos)

end Reset

/-- The words with a remainder. -/
theorem card_word_mod {b k : ℕ} (hk : k < b) : Nat.card {word : UInt64 // word.toNat % b = k} =
    2 ^ 64 / b + if k < 2 ^ 64 % b then 1 else 0 :=
  (card_eq_count wordEquiv fun x => x % b = k).trans (count_mod hk)

/-- **Every block is equally likely.** After a reset of the random workload each request takes each
block of the file for the same number of the seeds that a worker can have, up to one seed: as many
as the number of blocks fits into the number of words. This holds for the first request and for
every later one, for reads and for writes, with constant and with random data. -/
theorem random_blocks_uniform {write : Bool} {reqsize : UInt64} (hpos : 1 ≤ reqsize.toNat)
    (hle : reqsize.toNat ≤ filesize.toNat) (hfile : filesize.toNat < 2 ^ 63)
    (hreset : randomReset (randomFactory write) filesize reqsize = some data) (config : Config)
    (n : ℕ) {k : ℕ} (hk : k < filesize.toNat / reqsize.toNat) :
    Nat.card {seed : UInt64 // ∃ r, supply (nextRequest config workloads filesize)
        (.random data, seed) n = some r ∧ r.off.toNat = k * reqsize.toNat} =
      2 ^ 64 / (filesize.toNat / reqsize.toNat) +
        if k < 2 ^ 64 % (filesize.toNat / reqsize.toNat) then 1 else 0 := by
  rw [Nat.card_congr (Equiv.subtypeEquivRight fun seed =>
    supply_block hpos hle hfile hreset config seed n k), ← card_word_mod hk]
  exact card_comp (p := fun word : UInt64 => word.toNat % (filesize.toNat / reqsize.toNat) = k)
    (randomUint64T_bijective.iterate _)

/-- On a file of three sectors the first one is read for one seed more than the others. -/
theorem random_blocks_uniform_three : Nat.card {seed : UInt64 // ∃ r,
      supply (nextRequest ⟨false, .linux, 4096, true⟩ workloads 1536)
        (.random ⟨false, 3, 512⟩, seed) 7 = some r ∧ r.off.toNat = 0} = 6148914691236517206 :=
  @random_blocks_uniform ⟨false, 3, 512⟩ 1536 false 512 (by decide) (by decide) (by decide) rfl
    ⟨false, .linux, 4096, true⟩ 7 0 (by decide)

end DiskBench
