import DiskBench.RandomBlocks
import DiskBench.Streams

/-!
# The shares of the mixed workload

One draw selects everything about a request of the mixed workload. The low half selects the
direction and the kind of access, the high half the size, so these two are independent and both can
be counted. The block of a random access comes from the same draw: it is not independent of the
kind, and some blocks are never taken.
-/

namespace DiskBench

open Chances CumulativeTable Transition

/-- The kinds of requests of the mixed workload. -/
inductive Access
  | sequential (write : Bool)
  | random (write : Bool)
  deriving DecidableEq

namespace Access

/-- The access that the low half of a draw selects. -/
def of (low : UInt32) : Access :=
  if 4 * low.toNat < 3 * 4294967295 then
    if low &&& 0x1F = 0 then sequential false else random false
  else if low &&& 0x1F ≤ 1 then sequential true else random true

def write : Access → Bool
  | sequential write => write
  | random write => write

/-- The cumulative table of the sizes. -/
def prob (data : MixedData) : Access → ℕ → UInt32
  | sequential _ => data.sequentialBlocksizeProb
  | random _ => data.randomBlocksizeProb

/-- The size that the high half of a draw selects. -/
def iosize (data : MixedData) (a : Access) (high : UInt32) : UInt32 :=
  getIosize (a.prob data) data high

/-- A draw selects the access, with this size. -/
def Selected (data : MixedData) (j : ℕ) (a : Access) (draw : UInt64) : Prop :=
  Access.of draw.toUInt32 = a ∧ a.iosize data (draw >>> 32).toUInt32 = blocksize j

/-- The factors of the sizes. -/
def factor : Access → ℕ → ℚ
  | sequential _ => sequentialFactor
  | random _ => randomFactor

/-- The part of a size among the sizes from `start` on, by the factors. -/
def part (a : Access) (start j : ℕ) : ℚ :=
  a.factor j / cumulative a.factor start (12 - start)

/-- The high halves that select a size, by the factors of the sizes from `start` on. -/
def High (a : Access) (start j high : ℕ) : Prop :=
  firstDraw 4294967295 a.factor start (12 - start) (j - start) ≤ high ∧
    high < endDraw 4294967295 a.factor start (12 - start) (j - start)

instance (a : Access) (start j : ℕ) : DecidablePred (a.High start j) :=
  fun _ => instDecidableAnd

/-- The five low bits that select the access among those of its direction. -/
def Bits : Access → ℕ → Prop
  | sequential false => fun bits => bits = 0
  | sequential true => fun bits => bits ≤ 1
  | random false => fun bits => ¬bits = 0
  | random true => fun bits => ¬bits ≤ 1

instance (a : Access) : DecidablePred a.Bits := fun bits =>
  match a with
  | sequential false => inferInstanceAs (Decidable (bits = 0))
  | sequential true => inferInstanceAs (Decidable (bits ≤ 1))
  | random false => inferInstanceAs (Decidable (¬bits = 0))
  | random true => inferInstanceAs (Decidable (¬bits ≤ 1))

/-- The low halves that select the access. -/
def Low (a : Access) (low : ℕ) : Prop :=
  a.write = decide (3221225472 ≤ low) ∧ a.Bits (low % 32)

instance (a : Access) : DecidablePred a.Low := fun low =>
  inferInstanceAs (Decidable (a.write = decide (3221225472 ≤ low) ∧ a.Bits (low % 32)))

/-- How many of the low halves select the access. -/
def share : Access → ℕ
  | sequential false => 3 * 2 ^ 25
  | sequential true => 2 * 2 ^ 25
  | random false => 93 * 2 ^ 25
  | random true => 30 * 2 ^ 25

end Access

/-- The stream that a sequential access follows. -/
def Stream.of (write : Bool) (low : UInt32) : Stream :=
  if write then if low &&& 1 ≠ 0 then writeForward else writeBackward
  else if low &&& 1 ≠ 0 then readForward else readBackward

/-- The data with another position of a stream. -/
def MixedData.setPosition (data : MixedData) (stream : Stream) (pos : UInt64) : MixedData :=
  match stream with
  | .readForward => { data with seqPos1 := pos }
  | .readBackward => { data with seqPos2 := pos }
  | .writeForward => { data with seqPos3 := pos }
  | .writeBackward => { data with seqPos4 := pos }

/-- The request of an access, and the data after it. -/
def Access.perform (data : MixedData) (filesize randomBase : UInt64) (a : Access) :
    Option (MixedData × Target) :=
  let iosize := a.iosize data (randomBase >>> 32).toUInt32
  match a with
  | sequential write =>
    let stream := Stream.of write randomBase.toUInt32
    some (data.setPosition stream (stream.next (data.position stream) filesize iosize).2,
      data.request filesize randomBase stream)
  | random write =>
    (randomBlock randomBase filesize iosize).map fun offset =>
      (data, ⟨offset, iosize.toUInt64, write⟩)

/-- `fill_request` performs the access that the low half of the draw selects. -/
theorem mixedFillRequest_perform (data : MixedData) (filesize seed : UInt64) :
    mixedFillRequest data filesize seed =
      ((Access.of (randomUint64T seed).toUInt32).perform data filesize (randomUint64T seed)).map
        fun (data, t) => (data, randomUint64T seed, t) := by
  unfold mixedFillRequest Access.of
  dsimp only
  split
  · split
    · simp only [Access.perform, Stream.of, Option.map_some]
      split <;> rfl
    · rw [Access.perform, Option.map_map]
      rfl
  · split
    · simp only [Access.perform, Stream.of, Option.map_some]
      split <;> rfl
    · rw [Access.perform, Option.map_map]
      rfl

section Low

/-- The five low bits of a word. -/
theorem low_bits (low : UInt32) : (low &&& 0x1F).toNat = low.toNat % 32 := by
  rw [UInt32.toNat_and]
  exact Nat.and_two_pow_sub_one_eq_mod _ 5

/-- An access is selected by its direction and its bits. -/
theorem Access.of_eq_iff (low : UInt32) (a : Access) : Access.of low = a ↔ a.Low low.toNat := by
  have hzero : low &&& 0x1F = 0 ↔ low.toNat % 32 = 0 := by
    rw [← UInt32.toNat_inj, low_bits, UInt32.toNat_zero]
  have hone : low &&& 0x1F ≤ 1 ↔ low.toNat % 32 ≤ 1 := by
    rw [UInt32.le_iff_toNat_le, low_bits, UInt32.toNat_one]
  have hread : 4 * low.toNat < 3 * 4294967295 ↔ ¬3221225472 ≤ low.toNat := by omega
  simp only [Access.of, Access.Low, hzero, hone, hread]
  by_cases hdirection : 3221225472 ≤ low.toNat
  · rw [if_neg (not_not_intro hdirection), decide_eq_true hdirection]
    split <;> rcases a with (_ | _) | (_ | _) <;> simp_all [Access.write, Access.Bits]
  · rw [if_pos hdirection, decide_eq_false hdirection]
    split <;> rcases a with (_ | _) | (_ | _) <;> simp_all [Access.write, Access.Bits]

/-- The words below the bound of the direction and all words, by their five low bits. -/
theorem Access.count_bits (a : Access) :
    Nat.count (fun low => a.Bits (low % 32)) 3221225472 = Nat.count a.Bits 32 * (3 * 2 ^ 25) ∧
      Nat.count (fun low => a.Bits (low % 32)) (2 ^ 32) = Nat.count a.Bits 32 * 2 ^ 27 := by
  have hparts (n : ℕ) : Nat.count (fun low => a.Bits (low % 32)) (32 * n) =
      Nat.count a.Bits 32 * n := by
    have hcount := count_parts (p := a.Bits) (q := fun _ => True) (by decide : 0 < 32) n
    simpa only [and_true, Nat.count_true] using hcount
  have hfirst : 3221225472 = 32 * (3 * 2 ^ 25) := by norm_num
  have hall : 2 ^ 32 = 32 * 2 ^ 27 := by norm_num
  constructor
  · rw [hfirst, hparts]
  · rw [hall, hparts]

/-- A quarter of the low halves writes, and the five low bits are equally frequent. -/
theorem Access.count_low (a : Access) : Nat.count a.Low (2 ^ 32) = a.share := by
  show Nat.count (fun low => a.write = decide (3221225472 ≤ low) ∧ a.Bits (low % 32)) _ = _
  obtain ⟨hfirst, hall⟩ := a.count_bits
  have hbits : Nat.count a.Bits 32 * (if a.write then 2 ^ 25 else 3 * 2 ^ 25) = a.share := by
    rcases a with (_ | _) | (_ | _) <;> decide
  cases hwrite : a.write with
  | false =>
    have hreads := @count_below (fun low => a.Bits (low % 32)) _ 3221225472 (2 ^ 32) (by decide)
    simp only [eq_comm (a := false), decide_eq_false_iff_not, Nat.not_le]
    rw [hreads, hfirst, ← hbits, hwrite]
    rfl
  | true =>
    have hwrites := @count_above (fun low => a.Bits (low % 32)) _ 3221225472 (2 ^ 32) (by decide)
    simp only [eq_comm (a := true), decide_eq_true_eq]
    rw [hwrite, if_pos rfl] at hbits
    omega

end Low

section High

variable {prob : ℕ → UInt32} {high : UInt32}

theorem blocksize_inj {i j : ℕ} (hi : i ≤ 12) (hj : j ≤ 12) :
    blocksize i = blocksize j ↔ i = j := by
  refine ⟨fun h => ?_, fun h => congrArg blocksize h⟩
  have hsizes := congrArg (fun size : UInt32 => size.toUInt64.toNat) h
  simp only [blocksize_eq_pow hi, blocksize_eq_pow hj] at hsizes
  have hexponents := Nat.pow_right_injective (Nat.le_refl 2) hsizes
  omega

/-- The draws between two thresholds of a table that does not decrease select the size between
them. The first size has no lower bound and the last one no upper bound. -/
theorem iosizeLoop_eq_iff {n i j : ℕ} (hij : i ≤ j) (hj : j ≤ i + n) (hn : i + n ≤ 12)
    (hmono : ∀ k k', i ≤ k → k ≤ k' → k' ≤ i + n → prob k ≤ prob k') :
    iosizeLoop prob high n i = blocksize j ↔
      (i < j → prob (j - 1) ≤ high) ∧ (j < i + n → high < prob j) := by
  induction n generalizing i with
  | zero =>
    obtain rfl : i = j := by omega
    simp [iosizeLoop]
  | succ n ih =>
    rw [iosizeLoop]
    obtain rfl | hlt := Nat.eq_or_lt_of_le hij
    · split
      next hbelow => simp [hbelow]
      next habove =>
        obtain ⟨k, hk, hkn, hsize⟩ := iosizeLoop_eq prob high n (i + 1)
        rw [hsize, blocksize_inj (by omega) (by omega)]
        exact iff_of_false (by omega) fun h => habove (h.2 (by omega))
    · split
      next hbelow =>
        rw [blocksize_inj (by omega) (by omega)]
        refine iff_of_false (by omega) fun h => ?_
        have hfirst := hmono i (j - 1) (Nat.le_refl i) (by omega) (by omega)
        exact absurd (UInt32.lt_of_lt_of_le hbelow (UInt32.le_trans hfirst (h.1 hlt)))
          (UInt32.lt_irrefl high)
      next habove =>
        rw [ih (by omega) (by omega) (by omega) fun k k' hk hkk' hk' =>
          hmono k k' (by omega) hkk' (by omega)]
        refine and_congr ⟨fun h _ => ?_, fun h _ => h hlt⟩ ?_
        · obtain rfl | hnext := Nat.eq_or_lt_of_le (Nat.succ_le_of_lt hlt)
          · exact UInt32.not_lt.mp habove
          · exact h hnext
        · rw [Nat.add_right_comm, Nat.add_assoc]

variable {reqsize : UInt64} {data : MixedData}

theorem Access.factor_pos (a : Access) {i : ℕ} (hi : i ≤ 12) : 0 < a.factor i := by
  cases a with
  | sequential _ => exact sizeFactor_pos (by decide) hi
  | random _ => exact sizeFactor_pos (by decide) hi

/-- The tables after a reset hold the thresholds of the factors. -/
theorem mixedResetExact_prob (hreset : mixedResetExact reqsize = some data) (a : Access) {k : ℕ}
    (hk : k ≤ 12 - data.minBlocksizeIdx) :
    (a.prob data (data.minBlocksizeIdx + k)).toNat =
      threshold 4294967295 a.factor data.minBlocksizeIdx (12 - data.minBlocksizeIdx) k := by
  obtain ⟨table, htable, rfl⟩ := Option.map_eq_some_iff.mp hreset
  obtain ⟨start, hstart, htable⟩ := Option.bind_eq_some_iff.mp htable
  obtain ⟨randomProb, hrandom, htable⟩ := Option.bind_eq_some_iff.mp htable
  obtain ⟨sequentialProb, hsequential, rfl⟩ := Option.map_eq_some_iff.mp htable
  have hle : start ≤ 12 := by
    have hlt := (minBlocksizeLoop_le hstart).2
    omega
  have hlength : 12 - start + 1 = 13 - start := by omega
  have hweight : ∀ k ≤ 12 - start, 0 < a.factor (start + k) :=
    fun k hk => a.factor_pos (by omega)
  have hbound := threshold_le hweight 4294967295 hk
  obtain ⟨prob, hprob, hfilled⟩ := blocksizeProb_eq a.factor start (12 - start)
  rw [hlength] at hprob hfilled
  have hentry := hfilled k (by rw [← hlength]; exact Nat.lt_succ_of_le hk)
  have htable : a.prob (SizeTable.mixedData ⟨sequentialProb, randomProb, start, 13 - start⟩)
      (start + k) = (prob (start + k)).getD 0 := by
    cases a with
    | sequential _ =>
      obtain rfl : prob = sequentialProb := Option.some_inj.mp (hprob.symm.trans hsequential)
      rfl
    | random _ =>
      obtain rfl : prob = randomProb := Option.some_inj.mp (hprob.symm.trans hrandom)
      rfl
  show (a.prob _ (start + k)).toNat = _
  rw [htable, hentry, Option.getD_some]
  exact UInt32.toNat_ofNat_of_lt (Nat.lt_of_le_of_lt hbound (by decide))

/-- The high halves that select a size after a reset. -/
theorem Access.iosize_eq_iff (hreset : mixedResetExact reqsize = some data) (a : Access) {j : ℕ}
    (hmin : data.minBlocksizeIdx ≤ j) (hj : j ≤ 12) (high : UInt32) :
    a.iosize data high = blocksize j ↔ a.High data.minBlocksizeIdx j high.toNat := by
  have htail := (mixedResetExact_spec hreset).1.tail
  have hlength : data.minBlocksizeIdx + data.blocksizes - 1 - data.minBlocksizeIdx =
      12 - data.minBlocksizeIdx := by
    rw [htail.blocksizes_eq]
    omega
  have hhigh := high.toNat_lt
  have hweight : ∀ k ≤ 12 - data.minBlocksizeIdx, 0 < a.factor (data.minBlocksizeIdx + k) :=
    fun k hk => a.factor_pos (by omega)
  have hentry : ∀ i, data.minBlocksizeIdx ≤ i → i ≤ 12 → (a.prob data i).toNat =
      threshold 4294967295 a.factor data.minBlocksizeIdx (12 - data.minBlocksizeIdx)
        (i - data.minBlocksizeIdx) := by
    intro i hi hi'
    have hprob := mixedResetExact_prob hreset a (k := i - data.minBlocksizeIdx) (by omega)
    rwa [Nat.add_sub_cancel' hi] at hprob
  have hmono : ∀ k k', data.minBlocksizeIdx ≤ k → k ≤ k' →
      k' ≤ data.minBlocksizeIdx + (12 - data.minBlocksizeIdx) →
      a.prob data k ≤ a.prob data k' := by
    intro k k' hk hkk' hk'
    rw [UInt32.le_iff_toNat_le, hentry k hk (by omega), hentry k' (by omega) (by omega)]
    exact threshold_mono hweight _ (by omega) (by omega)
  rw [Access.iosize, getIosize, hlength, iosizeLoop_eq_iff hmin (by omega) (by omega) hmono]
  refine and_congr ?_ ?_
  · obtain rfl | hlt := Nat.eq_or_lt_of_le hmin
    · rw [Nat.sub_self, firstDraw]
      exact iff_of_true (fun h => absurd h (Nat.lt_irrefl _)) (Nat.zero_le _)
    · obtain ⟨n, hn⟩ : ∃ n, j - data.minBlocksizeIdx = n + 1 := ⟨_, (Nat.succ_pred (by omega)).symm⟩
      rw [hn, firstDraw, UInt32.le_iff_toNat_le, hentry (j - 1) (by omega) (by omega)]
      have hprevious : j - 1 - data.minBlocksizeIdx = n := by omega
      rw [hprevious]
      exact ⟨fun h => h hlt, fun h _ => h⟩
  · rw [endDraw, UInt32.lt_iff_toNat_lt, hentry j hmin hj]
    split <;> omega

end High

section Requests

variable {config : Config} {reqsize filesize randomBase seed : UInt64} {data data' : MixedData}

/-- What a request does not change: the sizes that the draws select. -/
structure MixedData.SameSizes (data data' : MixedData) : Prop where
  tail : data'.Tail
  iosize : ∀ (a : Access) high, a.iosize data' high = a.iosize data high

theorem MixedData.Tail.setPosition (h : data.Tail) (stream : Stream) (pos : UInt64) :
    data.SameSizes (data.setPosition stream pos) := by
  cases stream <;> exact ⟨⟨h.minBlocksizeIdx_le, h.blocksizes_eq⟩, fun a _ => by cases a <;> rfl⟩

theorem Stream.write_of (write : Bool) (low : UInt32) : (Stream.of write low).write = write := by
  unfold Stream.of
  split
  next hwrite => split <;> exact hwrite.symm
  next hwrite => split <;> exact (Bool.not_eq_true write ▸ hwrite).symm

/-- The file has a block of each size. -/
theorem randomBlock_blocksize (randomBase : UInt64) {j : ℕ} (hj : j ≤ 12)
    (hmax : mixedMaxIosize ≤ filesize) :
    ∃ offset, randomBlock randomBase filesize (blocksize j) = some offset := by
  have hbounds := blocksize_bounds hj
  rw [UInt64.le_iff_toNat_le] at hmax
  have hne : filesize / (blocksize j).toUInt64 ≠ 0 := by
    intro hzero
    have hdiv := congrArg UInt64.toNat hzero
    rw [UInt64.toNat_div, UInt64.toNat_zero, Nat.div_eq_zero_iff] at hdiv
    omega
  exact ⟨_, if_neg hne⟩

/-- The direction and the size of the request of an access. -/
theorem Access.perform_spec (htail : data.Tail) (hmax : mixedMaxIosize ≤ filesize) (a : Access) :
    ∃ data' t, a.perform data filesize randomBase = some (data', t) ∧ data.SameSizes data' ∧
      t.write = a.write ∧ t.size = (a.iosize data (randomBase >>> 32).toUInt32).toUInt64 := by
  cases a with
  | sequential write =>
    exact ⟨_, _, rfl, htail.setPosition _ _, Stream.write_of write _, rfl⟩
  | random write =>
    obtain ⟨j, -, hj, hsize⟩ := htail.getIosize_eq data.randomBlocksizeProb
      (randomBase >>> 32).toUInt32
    obtain ⟨offset, hoffset⟩ := randomBlock_blocksize randomBase hj hmax
    refine ⟨data, ⟨offset, (blocksize j).toUInt64, write⟩, ?_, ⟨htail, fun _ _ => rfl⟩, rfl, ?_⟩
    · simp only [Access.perform, Access.iosize, Access.prob, hsize, hoffset, Option.map_some]
    · rw [Access.iosize, Access.prob, hsize]

/-- The next request of the mixed workload takes its direction and its size from one draw. -/
theorem nextRequest_mixed (hconstant : config.writeRandom = false) (htail : data.Tail)
    (hmax : mixedMaxIosize ≤ filesize) :
    ∃ r data', nextRequest config workloads filesize (.mixed data, seed) =
        some (r, .mixed data', randomUint64T seed) ∧ data.SameSizes data' ∧
      r.write = (Access.of (randomUint64T seed).toUInt32).write ∧
      r.size = ((Access.of (randomUint64T seed).toUInt32).iosize data
        (randomUint64T seed >>> 32).toUInt32).toUInt64 := by
  obtain ⟨data', t, hperform, hsame, hwrite, hsize⟩ :=
    @Access.perform_spec filesize (randomUint64T seed) data htail hmax
      (Access.of (randomUint64T seed).toUInt32)
  have hfill : workloads.fillRequest (.mixed data) filesize seed =
      some (.mixed data', randomUint64T seed, t) := by
    show (mixedFillRequest data filesize seed).map _ = _
    rw [mixedFillRequest_perform, hperform]
    rfl
  have hdraws : dataDraws config t.write t.size = 0 := by
    rw [dataDraws, hconstant, if_neg (by simp)]
  rw [nextRequest, hfill, Option.map_some]
  dsimp only
  rw [prepareEntry_randomSeed, hdraws]
  exact ⟨_, data', rfl, hsame, by rw [prepareEntry_write, hwrite], by rw [prepareEntry_size, hsize]⟩

/-- And so does each later one. -/
theorem supply_mixed (hconstant : config.writeRandom = false) (htail : data.Tail)
    (hmax : mixedMaxIosize ≤ filesize) (n : ℕ) :
    ∃ r, supply (nextRequest config workloads filesize) (.mixed data, seed) n = some r ∧
      r.write = (Access.of (randomUint64T^[n + 1] seed).toUInt32).write ∧
      r.size = ((Access.of (randomUint64T^[n + 1] seed).toUInt32).iosize data
        (randomUint64T^[n + 1] seed >>> 32).toUInt32).toUInt64 := by
  induction n generalizing data seed with
  | zero =>
    obtain ⟨r, data', hnext, -, hwrite, hsize⟩ :=
      @nextRequest_mixed config filesize seed data hconstant htail hmax
    exact ⟨r, by rw [supply, hnext]; rfl, hwrite, hsize⟩
  | succ n ih =>
    obtain ⟨r, data', hnext, hsame, -⟩ :=
      @nextRequest_mixed config filesize seed data hconstant htail hmax
    obtain ⟨r', hsupply, hwrite, hsize⟩ := @ih (randomUint64T seed) data' hsame.tail
    refine ⟨r', by rw [supply, hnext]; exact hsupply, hwrite, ?_⟩
    rw [hsize, hsame.iosize]
    rfl

end Requests

section Words

variable {reqsize : UInt64} {data : MixedData}

/-- The words that select an access and a size. -/
theorem Access.card_words (hreset : mixedResetExact reqsize = some data) (a : Access) {j : ℕ}
    (hmin : data.minBlocksizeIdx ≤ j) (hj : j ≤ 12) :
    ∃ d : ℕ, |(d : ℚ) - 4294967295 * a.part data.minBlocksizeIdx j| < 2 ∧
      Nat.card {draw // a.Selected data j draw} = a.share * d := by
  have hweight : ∀ k ≤ 12 - data.minBlocksizeIdx, 0 < a.factor (data.minBlocksizeIdx + k) :=
    fun k hk => a.factor_pos (by omega)
  obtain ⟨hle, hdraws⟩ := abs_draws_sub_lt hweight 4294967295
    (show j - data.minBlocksizeIdx ≤ 12 - data.minBlocksizeIdx by omega)
  rw [Nat.add_sub_cancel' hmin] at hdraws
  refine ⟨_, hdraws, ?_⟩
  have hend : endDraw 4294967295 a.factor data.minBlocksizeIdx (12 - data.minBlocksizeIdx)
      (j - data.minBlocksizeIdx) ≤ 2 ^ 32 := by
    have hbound := threshold_le hweight 4294967295
      (show j - data.minBlocksizeIdx ≤ 12 - data.minBlocksizeIdx by omega)
    rw [endDraw]
    split <;> omega
  have hhalves : ∀ draw : UInt64, draw.toUInt32.toNat = (wordEquiv draw : ℕ) % 2 ^ 32 ∧
      (draw >>> 32).toUInt32.toNat = (wordEquiv draw : ℕ) / 2 ^ 32 := by
    intro draw
    have hdraw := draw.toNat_lt
    have hshift : (32 : UInt64).toNat % 64 = 32 := by decide
    have hhigh : draw.toNat / 2 ^ 32 < 2 ^ 32 := by omega
    refine ⟨UInt64.toNat_toUInt32 draw, ?_⟩
    rw [UInt64.toNat_toUInt32, UInt64.toNat_shiftRight, hshift, Nat.shiftRight_eq_div_pow,
      Nat.mod_eq_of_lt hhigh]
    rfl
  have hselect : ∀ draw, a.Selected data j draw ↔ a.Low ((wordEquiv draw : ℕ) % 2 ^ 32) ∧
      a.High data.minBlocksizeIdx j ((wordEquiv draw : ℕ) / 2 ^ 32) := by
    intro draw
    rw [Access.Selected, Access.of_eq_iff, Access.iosize_eq_iff hreset a hmin hj, (hhalves draw).1,
      (hhalves draw).2]
  rw [Nat.card_congr (Equiv.subtypeEquivRight hselect), card_eq_count wordEquiv fun x =>
    a.Low (x % 2 ^ 32) ∧ a.High data.minBlocksizeIdx j (x / 2 ^ 32)]
  have hparts := count_parts (m := 2 ^ 32) (p := a.Low) (q := a.High data.minBlocksizeIdx j)
    (by decide) (2 ^ 32)
  have hsizes : Nat.count (a.High data.minBlocksizeIdx j) (2 ^ 32) = _ := count_interval hle hend
  rw [a.count_low, hsizes] at hparts
  exact hparts

end Words

/-- **The shares of the mixed workload.** With constant data and on a file that holds the largest
block of 2 MiB, for each direction and each size of the table, the number of seeds with which a
request has this direction and this size is the same for all requests of the run. Of `2 ^ 32` low
halves a quarter writes, one read in 32 and one write in 16 is sequential, and for both kinds of
access the high halves that select the size are as many as its weight says, but for less than two
of `2 ^ 32`. On a smaller file a random access of a block that it does not hold divides by zero. -/
theorem mixed_shares {reqsize filesize : UInt64} {data : MixedData}
    (hreset : mixedResetExact reqsize = some data) (hmax : mixedMaxIosize ≤ filesize)
    {config : Config} (hconstant : config.writeRandom = false) (write : Bool) {j : ℕ}
    (hmin : data.minBlocksizeIdx ≤ j) (hj : j ≤ 12) :
    ∃ sequentialDraws randomDraws : ℕ,
      |(sequentialDraws : ℚ) -
        4294967295 * (Access.sequential write).part data.minBlocksizeIdx j| < 2 ∧
      |(randomDraws : ℚ) - 4294967295 * (Access.random write).part data.minBlocksizeIdx j| < 2 ∧
      ∀ n, Nat.card {seed : UInt64 // ∃ r, supply (nextRequest config workloads filesize)
          (.mixed data, seed) n = some r ∧ r.write = write ∧ r.size = (blocksize j).toUInt64} =
        (Access.sequential write).share * sequentialDraws +
          (Access.random write).share * randomDraws := by
  have hfinite : Finite UInt64 := Finite.of_equiv _ wordEquiv.symm
  obtain ⟨sequentialDraws, hsequential, hcardSequential⟩ :=
    Access.card_words hreset (.sequential write) hmin hj
  obtain ⟨randomDraws, hrandom, hcardRandom⟩ := Access.card_words hreset (.random write) hmin hj
  refine ⟨sequentialDraws, randomDraws, hsequential, hrandom, fun n => ?_⟩
  have hrequest : ∀ seed, (∃ r, supply (nextRequest config workloads filesize) (.mixed data, seed)
      n = some r ∧ r.write = write ∧ r.size = (blocksize j).toUInt64) ↔
      (Access.sequential write).Selected data j (randomUint64T^[n + 1] seed) ∨
        (Access.random write).Selected data j (randomUint64T^[n + 1] seed) := by
    intro seed
    obtain ⟨r, hsupply, hwrite, hsize⟩ := @supply_mixed config filesize seed data hconstant
      (mixedResetExact_spec hreset).1.tail hmax n
    simp only [hsupply, Option.some.injEq, exists_eq_left', hwrite, hsize, UInt32.toUInt64_inj,
      Access.Selected]
    generalize Access.of (randomUint64T^[n + 1] seed).toUInt32 = a
    cases a <;> simp only [Access.write, Access.sequential.injEq, Access.random.injEq, reduceCtorEq,
      false_and, or_false, false_or] <;> exact and_congr_right fun hwrite => by rw [hwrite]
  rw [Nat.card_congr (Equiv.subtypeEquivRight hrequest), ← hcardSequential, ← hcardRandom,
    ← card_or fun draw h h' => Access.noConfusion (h.1.symm.trans h'.1)]
  exact card_comp (p := fun draw => (Access.sequential write).Selected data j draw ∨
    (Access.random write).Selected data j draw) (randomUint64T_bijective.iterate (n + 1))

/-- Reads of 4 KiB on a file of 1 GiB, with sectors of 512 bytes and constant data. -/
theorem mixed_shares_page : ∃ data, mixedResetExact 512 = some data ∧
    ∃ sequentialDraws randomDraws : ℕ,
      |(sequentialDraws : ℚ) - 4294967295 * (Access.sequential false).part 0 3| < 2 ∧
      |(randomDraws : ℚ) - 4294967295 * (Access.random false).part 0 3| < 2 ∧
      ∀ n, Nat.card {seed : UInt64 // ∃ r, supply
          (nextRequest ⟨false, .linux, 4096, false⟩ workloads 1073741824) (.mixed data, seed) n =
            some r ∧ r.write = false ∧ r.size = (blocksize 3).toUInt64} =
        3 * 2 ^ 25 * sequentialDraws + 93 * 2 ^ 25 * randomDraws := by
  obtain ⟨data, hreset, hmin⟩ := exists_mixedResetExact_sector
  have hshares := @mixed_shares 512 1073741824 data hreset (by decide) ⟨false, .linux, 4096, false⟩
    rfl false 3 (by omega) (by decide)
  rw [hmin] at hshares
  exact ⟨data, hreset, hshares⟩

section Blind

variable {filesize randomBase : UInt64} {data : MixedData}

/-- The low bits of a draw are the low bits of the block that it takes, in a file with a multiple of
32 blocks. -/
theorem block_low_bits {blocks : ℕ} (hblocks : 32 ∣ blocks) (randomBase : UInt64) :
    randomBase.toNat % blocks % 32 = randomBase.toUInt32.toNat % 32 := by
  rw [Nat.mod_mod_of_dvd _ hblocks, UInt64.toNat_toUInt32]
  omega

/-- A file of a multiple of 64 MiB has a multiple of 32 blocks of each size. -/
theorem dvd_blocks (hfile : 67108864 ∣ filesize.toNat) {j : ℕ} (hj : j ≤ 12) :
    32 ∣ filesize.toNat / (blocksize j).toUInt64.toNat := by
  obtain ⟨q, hq⟩ := hfile
  have hsize : (blocksize j).toUInt64.toNat = 2 ^ (9 + j) := blocksize_eq_pow hj
  have hpow : 67108864 = 2 ^ (9 + j) * (32 * 2 ^ (12 - j)) := by
    have hsum : 9 + j + (5 + (12 - j)) = 26 := by omega
    rw [show (32 : ℕ) = 2 ^ 5 by rfl, ← pow_add, ← pow_add, hsum]
    norm_num
  rw [hq, hsize, hpow, Nat.mul_assoc, Nat.mul_div_cancel_left _ (by positivity), Nat.mul_assoc]
  exact Dvd.intro _ rfl

end Blind

/-- **The random accesses have blind spots.** On a file of a multiple of 64 MiB, after any calls
with any seeds, a request of the mixed workload is the next one of its stream, or it takes a block
that is not the first of a group of 32, and for a write not the second one either: the bits that
select the kind of access select the block, too. -/
theorem random_accesses_blind {reqsize filesize : UInt64} {start data : MixedData}
    (hstart : mixedResetExact reqsize = some start) (hreached : data.ReachedFrom start filesize)
    (hpos : 0 < filesize) (hfile : filesize.toNat < 2 ^ 63)
    (hmultiple : 67108864 ∣ filesize.toNat) (seed : UInt64) :
    ∃ data' t, mixedFillRequest data filesize seed = some (data', randomUint64T seed, t) ∧
      ((∃ stream, t = data.request filesize (randomUint64T seed) stream) ∨
        ∃ block, t.offset.toUInt64.toNat = block * t.size.toNat ∧
          block < filesize.toNat / t.size.toNat ∧ (if t.write then 2 else 1) ≤ block % 32) := by
  have htail := (hreached.drawable hstart).tail
  have hlarge : mixedMaxIosize.toNat ≤ filesize.toNat := by
    have hmax : mixedMaxIosize.toNat = 2097152 := by decide
    rw [UInt64.lt_iff_toNat_lt, UInt64.toNat_zero] at hpos
    omega
  obtain ⟨data', t, hperform, -⟩ := @Access.perform_spec filesize (randomUint64T seed) data htail
    (UInt64.le_iff_toNat_le.mpr hlarge) (Access.of (randomUint64T seed).toUInt32)
  refine ⟨data', t, by rw [mixedFillRequest_perform, hperform]; rfl, ?_⟩
  cases haccess : Access.of (randomUint64T seed).toUInt32 with
  | sequential write =>
    rw [haccess, Access.perform, Option.some.injEq] at hperform
    exact Or.inl ⟨_, (congrArg Prod.snd hperform).symm⟩
  | random write =>
    rw [haccess] at hperform
    obtain ⟨j, -, hj, hiosize⟩ := htail.getIosize_eq data.randomBlocksizeProb
      (randomUint64T seed >>> 32).toUInt32
    have hbounds := blocksize_bounds hj
    obtain ⟨offset, hblock, hoffset, -⟩ :=
      randomBlock_spec (randomUint64T seed) hbounds.1 (hbounds.2.trans hlarge) hfile
    have htarget : t = ⟨offset.toInt64, (blocksize j).toUInt64, write⟩ := by
      have hrequest := congrArg (Option.map Prod.snd) hperform
      simp only [Access.perform, Access.iosize, Access.prob, hiosize, hblock, Option.map_some,
        Option.some.injEq] at hrequest
      exact hrequest.symm
    have hbits := ((Access.of_eq_iff _ _).mp haccess).2
    have hblocks := dvd_blocks hmultiple hj
    refine Or.inr ⟨(randomUint64T seed).toNat % (filesize.toNat / (blocksize j).toUInt64.toNat),
      ?_, ?_, ?_⟩
    · rw [htarget, UInt64.toUInt64_toInt64, hoffset, UInt64.toNat_mod, UInt64.toNat_div]
    · rw [htarget]
      exact Nat.mod_lt _ (Nat.div_pos (hbounds.2.trans hlarge) hbounds.1)
    · rw [htarget, block_low_bits hblocks]
      cases write with
      | false => exact Nat.pos_of_ne_zero hbits
      | true => exact Nat.lt_of_not_le hbits

/-- After a reset for sectors of 512 bytes on a file of 1 GiB, whatever the seeds. -/
theorem random_accesses_blind_gibibyte : ∃ start, mixedResetExact 512 = some start ∧
    ∀ data : MixedData, data.ReachedFrom start 1073741824 → ∀ seed,
      ∃ data' t, mixedFillRequest data 1073741824 seed = some (data', randomUint64T seed, t) ∧
        ((∃ stream, t = data.request 1073741824 (randomUint64T seed) stream) ∨
          ∃ block, t.offset.toUInt64.toNat = block * t.size.toNat ∧
            block < 1073741824 / t.size.toNat ∧ (if t.write then 2 else 1) ≤ block % 32) := by
  obtain ⟨start, hstart, -⟩ := exists_mixedResetExact_sector
  exact ⟨start, hstart, fun data hreached =>
    random_accesses_blind hstart hreached (by decide) (by decide) (by decide)⟩

end DiskBench
