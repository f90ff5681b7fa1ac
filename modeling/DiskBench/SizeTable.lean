import Mathlib.Data.Rat.Floor
import DiskBench.Alignment
import DiskBench.CommandLine
import DiskBench.Foundations.CumulativeTable

/-!
# The size table of the mixed workload

`mixed_request_generator_reset` fills the two cumulative tables in two passes, here in exact
arithmetic. The local arrays and the tables start without entries, and an entry that has not been
written cannot be read. The search for the smallest block size has no bound of its own.
-/

namespace DiskBench

open CumulativeTable

/-- The factor of an entry of the table. The bandwidth halves on either side of the size `base`. -/
def sizeFactor (base i : ℕ) : ℚ :=
  let size := (blocksize i).toNat
  let factor : ℚ := if size < base then base / size else size / base
  let factor := factor * factor
  1 / factor

/-- `current_random_factor` before the sum. -/
def randomFactor : ℕ → ℚ := sizeFactor 4096

/-- `current_sequential_factor` before the sum. -/
def sequentialFactor : ℕ → ℚ := sizeFactor (128 * 1024)

/-- The first pass over the factors, with `n` entries left: `random_factors` or
`sequential_factors`, and the current factor. -/
def factorLoop (factor : ℕ → ℚ) (start : ℕ) :
    ℕ → ℕ → (ℕ → Option ℚ) → Option ℚ → Option ((ℕ → Option ℚ) × Option ℚ)
  | 0, _, factors, current => some (factors, current)
  | n + 1, i, factors, _ =>
    let current := if i > start then (factors (i - 1)).map (factor i + ·) else some (factor i)
    current.bind fun value =>
      factorLoop factor start n (i + 1) (Function.update factors i (some value)) (some value)

/-- The second pass over the factors. The conversion to 32 bits truncates. -/
def probLoop (current : ℚ) :
    ℕ → ℕ → (ℕ → Option ℚ) → (ℕ → Option UInt32) → Option (ℕ → Option UInt32)
  | 0, _, _, prob => some prob
  | n + 1, i, factors, prob =>
    (factors i).bind fun factor =>
      let factor := factor / current
      probLoop current n (i + 1) (Function.update factors i (some factor))
        (Function.update prob i (some (UInt32.ofNat ⌊4294967295 * factor⌋₊)))

/-- Both passes over the factors of one table. -/
def blocksizeProb (factor : ℕ → ℚ) (start blocksizes : ℕ) : Option (ℕ → Option UInt32) :=
  (factorLoop factor start blocksizes start (fun _ => none) none).bind fun pass =>
    pass.2.bind fun current => probLoop current blocksizes start pass.1 fun _ => none

/-- The fields of `struct mixed_request_generator_data` that the reset computes. -/
structure SizeTable where
  sequentialBlocksizeProb : ℕ → Option UInt32
  randomBlocksizeProb : ℕ → Option UInt32
  minBlocksizeIdx : ℕ
  blocksizes : ℕ

/-- `mixed_request_generator_reset`, without a result when it leaves the table of block sizes. -/
def sizeTable (reqsize : UInt64) : Option SizeTable :=
  (minBlocksizeLoop reqsize 13 0).bind fun start =>
    (blocksizeProb randomFactor start (13 - start)).bind fun randomBlocksizeProb =>
      (blocksizeProb sequentialFactor start (13 - start)).map fun sequentialBlocksizeProb =>
        { sequentialBlocksizeProb, randomBlocksizeProb, minBlocksizeIdx := start,
          blocksizes := 13 - start }

namespace SizeTable

variable (table : SizeTable)

/-- The common body of the two lookups. They have no result when they read an entry that has not
been written. -/
def iosize (prob : ℕ → Option UInt32) (randomLow : UInt32) : Option UInt32 :=
  let start := table.minBlocksizeIdx
  let stop := start + table.blocksizes - 1
  lookup prob (blocksizeTable[·]?) randomLow (stop - start) start

/-- `get_random_iosize`. -/
def getRandomIosize (randomLow : UInt32) : Option UInt32 :=
  table.iosize table.randomBlocksizeProb randomLow

/-- `get_sequential_iosize`. -/
def getSequentialIosize (randomLow : UInt32) : Option UInt32 :=
  table.iosize table.sequentialBlocksizeProb randomLow

end SizeTable

/-- A cumulative table: its entries from `start` on are written, do not decrease, and end at
`UINT32_MAX`. -/
structure CumulativeProb (start : ℕ) (prob : ℕ → Option UInt32) : Prop where
  written : ∀ i, start ≤ i → i ≤ 12 → (prob i).isSome
  mono : ∀ i j, start ≤ i → i ≤ j → j ≤ 12 → ∀ a ∈ prob i, ∀ b ∈ prob j, a ≤ b
  last : prob 12 = some 0xFFFFFFFF

/-- The table of a request size: it starts at the smallest block size that is large enough, both
cumulative tables are well formed, and each draw finds a size. -/
structure SizeTable.WellFormed (reqsize : UInt64) (table : SizeTable) : Prop where
  minBlocksizeIdx_le : table.minBlocksizeIdx ≤ 12
  reqsize_le : reqsize ≤ (blocksize table.minBlocksizeIdx).toUInt64
  smallest : ∀ i < table.minBlocksizeIdx, (blocksize i).toUInt64 < reqsize
  random : CumulativeProb table.minBlocksizeIdx table.randomBlocksizeProb
  sequential : CumulativeProb table.minBlocksizeIdx table.sequentialBlocksizeProb
  getRandomIosize : ∀ draw, ∃ size, table.getRandomIosize draw = some size ∧
    reqsize ≤ size.toUInt64 ∧ size.toUInt64 ≤ mixedMaxIosize
  getSequentialIosize : ∀ draw, ∃ size, table.getSequentialIosize draw = some size ∧
    reqsize ≤ size.toUInt64 ∧ size.toUInt64 ≤ mixedMaxIosize

section Passes

variable {factor : ℕ → ℚ} {start : ℕ}

/-- One step of the first pass reads the sum that the step before has written. -/
theorem factor_step {m : ℕ} {factors : ℕ → Option ℚ}
    (h : Filled factors (cumulative factor start) start m) :
    (if start + m > start then (factors (start + m - 1)).map (factor (start + m) + ·)
      else some (factor (start + m))) = some (cumulative factor start m) := by
  cases m with
  | zero => rw [if_neg (by omega), cumulative_zero, Nat.add_zero]
  | succ m =>
    rw [if_pos (by omega), ← Nat.add_assoc, Nat.add_sub_cancel, h m (Nat.lt_succ_self m),
      Option.map_some, cumulative_succ, Nat.add_assoc]

/-- The first pass leaves the sums of the factors. -/
theorem factorLoop_eq (n m : ℕ) {factors : ℕ → Option ℚ} (current : Option ℚ)
    (h : Filled factors (cumulative factor start) start m) :
    ∃ factors', factorLoop factor start (n + 1) (start + m) factors current =
        some (factors', some (cumulative factor start (m + n))) ∧
      Filled factors' (cumulative factor start) start (m + (n + 1)) := by
  induction n generalizing m factors current with
  | zero => exact ⟨_, by rw [factorLoop, factor_step h]; rfl, h.update⟩
  | succ n ih =>
    obtain ⟨factors', heq, hfilled⟩ := ih (m + 1) _ h.update
    refine ⟨factors', ?_, ?_⟩
    · rw [factorLoop, factor_step h, Option.bind_some, Nat.add_assoc, heq]
      congr 4
      omega
    · rwa [show m + (n + 1 + 1) = m + 1 + (n + 1) by omega]

/-- The second pass leaves the thresholds. -/
theorem probLoop_eq {last : ℕ} (n m : ℕ) {factors : ℕ → Option ℚ} {prob : ℕ → Option UInt32}
    (hfactors : ∀ k, m ≤ k → k < m + n → factors (start + k) = some (cumulative factor start k))
    (hprob : Filled prob (fun k => UInt32.ofNat (threshold 4294967295 factor start last k))
      start m) :
    ∃ prob', probLoop (cumulative factor start last) n (start + m) factors prob = some prob' ∧
      Filled prob' (fun k => UInt32.ofNat (threshold 4294967295 factor start last k))
        start (m + n) := by
  induction n generalizing m factors prob with
  | zero => exact ⟨prob, rfl, hprob⟩
  | succ n ih =>
    rw [probLoop, hfactors m (Nat.le_refl m) (by omega), Option.bind_some]
    have hrest : ∀ k, m + 1 ≤ k → k < m + 1 + n →
        Function.update factors (start + m)
          (some (cumulative factor start m / cumulative factor start last)) (start + k) =
            some (cumulative factor start k) := by
      intro k hk hlt
      rw [Function.update_of_ne (by omega), hfactors k (by omega) (by omega)]
    obtain ⟨prob', heq, hfilled⟩ := ih (m + 1) hrest hprob.update
    refine ⟨prob', ?_, ?_⟩
    · rw [← heq]
      simp [threshold, Nat.add_assoc]
    · rwa [show m + (n + 1) = m + 1 + n by omega]

/-- Both passes over a table of `last + 1` entries leave the thresholds of its factors. -/
theorem blocksizeProb_eq (factor : ℕ → ℚ) (start last : ℕ) :
    ∃ prob, blocksizeProb factor start (last + 1) = some prob ∧
      Filled prob (fun k => UInt32.ofNat (threshold 4294967295 factor start last k)) start
        (last + 1) := by
  obtain ⟨factors, hfirst, hfactors⟩ :=
    factorLoop_eq last 0 none (Filled.zero (fun _ => none) (cumulative factor start) start)
  obtain ⟨prob, hsecond, hprob⟩ := probLoop_eq (last + 1) 0
    (fun k _ hk => hfactors k (by omega)) (Filled.zero (fun _ => none)
      (fun k => UInt32.ofNat (threshold 4294967295 factor start last k)) start)
  simp only [Nat.zero_add, Nat.add_zero] at hfirst hsecond hprob
  exact ⟨prob, by rw [blocksizeProb, hfirst]; exact hsecond, hprob⟩

/-- The tables of positive factors are cumulative. -/
theorem cumulativeProb (hfactor : ∀ i ≤ 12, 0 < factor i) (hstart : start ≤ 12) :
    ∃ prob, blocksizeProb factor start (13 - start) = some prob ∧ CumulativeProb start prob ∧
      ∀ a ∈ prob start, a.toNat = threshold 4294967295 factor start (12 - start) 0 := by
  have hweight : ∀ k ≤ 12 - start, 0 < factor (start + k) := fun k hk => hfactor _ (by omega)
  obtain ⟨prob, hprob, hfilled⟩ := blocksizeProb_eq factor start (12 - start)
  rw [show 12 - start + 1 = 13 - start by omega] at hprob hfilled
  have hentry : ∀ i, start ≤ i → i ≤ 12 → prob i =
      some (UInt32.ofNat (threshold 4294967295 factor start (12 - start) (i - start))) := by
    intro i hle hi
    have hi' := hfilled (i - start) (by omega)
    rwa [Nat.add_sub_cancel' hle] at hi'
  have htoNat : ∀ n ≤ 12 - start,
      (UInt32.ofNat (threshold 4294967295 factor start (12 - start) n)).toNat =
        threshold 4294967295 factor start (12 - start) n := by
    intro n hn
    exact UInt32.toNat_ofNat_of_lt
      (Nat.lt_of_le_of_lt (threshold_le hweight 4294967295 hn) (by decide))
  refine ⟨prob, hprob, ⟨?_, ?_, ?_⟩, ?_⟩
  · exact fun i hle hi => hentry i hle hi ▸ rfl
  · intro i j hi hij hj a ha b hb
    rw [hentry i hi (by omega), Option.mem_some] at ha
    rw [hentry j (by omega) hj, Option.mem_some] at hb
    rw [← ha, ← hb, UInt32.le_iff_toNat_le, htoNat _ (by omega), htoNat _ (by omega)]
    exact threshold_mono hweight _ (by omega) (by omega)
  · rw [hentry 12 hstart (Nat.le_refl 12), threshold_last hweight]
    rfl
  · intro a ha
    rw [hentry start (Nat.le_refl start) hstart, Option.mem_some, Nat.sub_self] at ha
    rw [← ha, htoNat 0 (Nat.zero_le _)]

end Passes

theorem sizeFactor_pos {base i : ℕ} (hbase : 0 < base) (hi : i ≤ 12) : 0 < sizeFactor base i := by
  have hsize : 0 < ((blocksize i).toNat : ℚ) := Nat.cast_pos.mpr (blocksize_bounds hi).1
  have hbase' : 0 < (base : ℚ) := Nat.cast_pos.mpr hbase
  simp only [sizeFactor]
  split <;> positivity

/-- The search passes over the sizes that are too small. -/
theorem lt_of_minBlocksizeLoop {reqsize : UInt64} {n i j : ℕ}
    (h : minBlocksizeLoop reqsize n i = some j) :
    ∀ k, i ≤ k → k < j → (blocksize k).toUInt64 < reqsize := by
  induction n generalizing i with
  | zero => cases h
  | succ n ih =>
    intro k hik hkj
    rw [minBlocksizeLoop] at h
    split at h
    next hsmall =>
      obtain rfl | hlt := Nat.eq_or_lt_of_le hik
      · exact hsmall
      · exact ih h k hlt hkj
    next =>
      cases h
      omega

/-- The table of block sizes is sorted. -/
theorem blocksize_mono {i j : ℕ} (hij : i ≤ j) (hj : j ≤ 12) :
    (blocksize i).toUInt64 ≤ (blocksize j).toUInt64 := by
  rw [UInt64.le_iff_toNat_le, blocksize_eq_pow (hij.trans hj), blocksize_eq_pow hj]
  exact Nat.pow_le_pow_right (by omega) (by omega)

theorem blocksizeTable_getElem? {i : ℕ} (hi : i ≤ 12) :
    blocksizeTable[i]? = some (blocksize i) := by
  have hlt : i < blocksizeTable.length := Nat.lt_succ_iff.mpr hi
  rw [blocksize, List.getD_eq_getElem?_getD, List.getElem?_eq_getElem hlt, Option.getD_some]

/-- A lookup in a cumulative table finds one of the block sizes in use. -/
theorem SizeTable.iosize_eq {table : SizeTable} {prob : ℕ → Option UInt32}
    (hmin : table.minBlocksizeIdx ≤ 12) (hsizes : table.blocksizes = 13 - table.minBlocksizeIdx)
    (h : CumulativeProb table.minBlocksizeIdx prob) (draw : UInt32) :
    ∃ j, table.minBlocksizeIdx ≤ j ∧ j ≤ 12 ∧ table.iosize prob draw = some (blocksize j) := by
  have hwritten : ∀ i, table.minBlocksizeIdx ≤ i → i < table.minBlocksizeIdx +
      (table.minBlocksizeIdx + table.blocksizes - 1 - table.minBlocksizeIdx) →
      (prob i).isSome := fun i hi hlt => h.written i hi (by omega)
  obtain ⟨j, hj, hj', heq⟩ := lookup_eq (blocksizeTable[·]?) draw hwritten
  exact ⟨j, hj, by omega, heq.trans (blocksizeTable_getElem? (by omega))⟩

theorem SizeTable.iosize_bounds {table : SizeTable} {reqsize : UInt64}
    {prob : ℕ → Option UInt32} (hmin : table.minBlocksizeIdx ≤ 12)
    (hsizes : table.blocksizes = 13 - table.minBlocksizeIdx)
    (hreqsize : reqsize ≤ (blocksize table.minBlocksizeIdx).toUInt64)
    (h : CumulativeProb table.minBlocksizeIdx prob) (draw : UInt32) :
    ∃ size, table.iosize prob draw = some size ∧ reqsize ≤ size.toUInt64 ∧
      size.toUInt64 ≤ mixedMaxIosize := by
  obtain ⟨j, hj, hj', heq⟩ := table.iosize_eq hmin hsizes h draw
  exact ⟨_, heq, UInt64.le_trans hreqsize (blocksize_mono hj hj'),
    UInt64.le_iff_toNat_le.mpr (blocksize_bounds hj').2⟩

/-- The reset gives the tables from the entry where the search ends. -/
theorem sizeTable_of_start {reqsize : UInt64} {start : ℕ}
    (hstart : minBlocksizeLoop reqsize 13 0 = some start) :
    ∃ table, sizeTable reqsize = some table ∧ table.minBlocksizeIdx = start ∧
      table.blocksizes = 13 - start ∧ CumulativeProb start table.randomBlocksizeProb ∧
      CumulativeProb start table.sequentialBlocksizeProb ∧
      ∀ a ∈ table.sequentialBlocksizeProb start,
        a.toNat = threshold 4294967295 sequentialFactor start (12 - start) 0 := by
  have hle : start ≤ 12 := by
    have hlt := (minBlocksizeLoop_le hstart).2
    omega
  have hrandomFactor : ∀ i ≤ 12, 0 < randomFactor i := fun i hi => sizeFactor_pos (by decide) hi
  have hsequentialFactor : ∀ i ≤ 12, 0 < sequentialFactor i :=
    fun i hi => sizeFactor_pos (by decide) hi
  obtain ⟨randomProb, hrandom, hrandomProb, -⟩ := cumulativeProb hrandomFactor hle
  obtain ⟨sequentialProb, hsequential, hsequentialProb, hfirst⟩ :=
    cumulativeProb hsequentialFactor hle
  refine ⟨⟨sequentialProb, randomProb, start, 13 - start⟩, ?_, rfl, rfl, hrandomProb,
    hsequentialProb, hfirst⟩
  rw [sizeTable, hstart, Option.bind_some, hrandom, Option.bind_some, hsequential,
    Option.map_some]

/-- **The size table is well formed exactly when the request size is at most the largest block
size**: for larger ones the search leaves the table. -/
theorem sizeTable_wellFormed_iff (reqsize : UInt64) :
    (∃ table, sizeTable reqsize = some table ∧ table.WellFormed reqsize) ↔
      reqsize ≤ mixedMaxIosize := by
  constructor
  · rintro ⟨table, -, h⟩
    exact UInt64.le_trans h.reqsize_le
      (UInt64.le_iff_toNat_le.mpr (blocksize_bounds h.minBlocksizeIdx_le).2)
  · intro h
    have hends : (minBlocksizeLoop reqsize 13 0).isSome :=
      minBlocksizeLoop_isSome_iff.mpr ⟨12, by omega, by omega, h⟩
    obtain ⟨start, hstart⟩ := Option.isSome_iff_exists.mp hends
    obtain ⟨table, htable, rfl, hsizes, hrandom, hsequential, -⟩ := sizeTable_of_start hstart
    have hmin : table.minBlocksizeIdx ≤ 12 := by
      have hlt := (minBlocksizeLoop_le hstart).2
      omega
    have hlarge : reqsize ≤ (blocksize table.minBlocksizeIdx).toUInt64 :=
      UInt64.le_iff_toNat_le.mpr (minBlocksizeLoop_ge hstart)
    exact ⟨table, htable, hmin, hlarge,
      fun i hi => lt_of_minBlocksizeLoop hstart i (Nat.zero_le i) hi, hrandom, hsequential,
      SizeTable.iosize_bounds hmin hsizes hlarge hrandom,
      SizeTable.iosize_bounds hmin hsizes hlarge hsequential⟩

/-- With a sector size of 4 MiB the search leaves the table. -/
theorem sizeTable_four_mebibyte : sizeTable 4194304 = none ∧
    ¬∃ table, sizeTable 4194304 = some table ∧ table.WellFormed 4194304 := by
  have hleaves : sizeTable 4194304 = none := by
    have hsearch : minBlocksizeLoop 4194304 13 0 = none := by decide
    rw [sizeTable, hsearch, Option.bind_none]
  refine ⟨hleaves, ?_⟩
  rintro ⟨table, htable, -⟩
  rw [hleaves] at htable
  cases htable

end DiskBench
