import Mathlib.Tactic.IntervalCases
import Mathlib.Tactic.NormNum
import DiskBench.SizeTable

/-!
# The sequential streams of the mixed workload

Which of the four streams a draw can move. The test for a sequential read asks for five low bits
that are 0 and the test for its direction for a low bit that is 1, so no draw reads forward. The
other streams move, unless the only block of the file that is left for them is where they are.
-/

namespace DiskBench

open CumulativeTable

/-- The tables with the zeros of `calloc` where the reset has not written, and the positions. -/
def SizeTable.mixedData (table : SizeTable) : MixedData where
  sequentialBlocksizeProb i := (table.sequentialBlocksizeProb i).getD 0
  randomBlocksizeProb i := (table.randomBlocksizeProb i).getD 0
  minBlocksizeIdx := table.minBlocksizeIdx
  blocksizes := table.blocksizes
  seqPos1 := 0
  seqPos2 := 0
  seqPos3 := 0
  seqPos4 := 0

/-- `mixed_request_generator_reset` with the tables of exact arithmetic. -/
def mixedResetExact (reqsize : UInt64) : Option MixedData :=
  (sizeTable reqsize).map SizeTable.mixedData

/-- The sequential streams. -/
inductive Stream
  | readForward
  | readBackward
  | writeForward
  | writeBackward
  deriving DecidableEq

namespace Stream

/-- The offset of the next request of a stream, and its new position. -/
def next : Stream → UInt64 → UInt64 → UInt32 → UInt64 × UInt64
  | readForward => forwardStream
  | readBackward => backwardStream
  | writeForward => forwardStream
  | writeBackward => backwardStream

def write : Stream → Bool
  | readForward => false
  | readBackward => false
  | writeForward => true
  | writeBackward => true

/-- The next request of a size leaves the stream where it is: it starts again and has read one block
before, or it starts again at the end and the file has one more block than its position. -/
def StaysAt (stream : Stream) (pos filesize size : UInt64) : Prop :=
  match stream with
  | readForward | writeForward => pos = size ∧ filesize < size + size
  | readBackward | writeBackward => pos < size ∧ filesize = pos + size

end Stream

namespace MixedData

/-- The position of a stream. -/
def position (data : MixedData) : Stream → UInt64
  | .readForward => data.seqPos1
  | .readBackward => data.seqPos2
  | .writeForward => data.seqPos3
  | .writeBackward => data.seqPos4

/-- The next request of a stream, with the block size of a draw. -/
def request (data : MixedData) (filesize randomBase : UInt64) (stream : Stream) : Target :=
  let iosize := getSequentialIosize data (randomBase >>> 32).toUInt32
  ⟨(stream.next (data.position stream) filesize iosize).1.toInt64, iosize.toUInt64, stream.write⟩

/-- Some draw issues the next request of a stream and moves its position and no other. -/
def Moves (data : MixedData) (filesize : UInt64) (stream : Stream) : Prop :=
  ∃ randomBase seed data', randomUint64T seed = randomBase ∧
    mixedFillRequest data filesize seed =
      some (data', randomBase, data.request filesize randomBase stream) ∧
    data'.position stream ≠ data.position stream ∧
    ∀ other, other ≠ stream → data'.position other = data.position other

/-- The largest block is the only block size, and its next request leaves the stream where it
is. -/
def AtOnlyPlace (data : MixedData) (filesize : UInt64) (stream : Stream) : Prop :=
  data.minBlocksizeIdx = 12 ∧ stream.StaysAt (data.position stream) filesize mixedMaxIosize

/-- The data that is reached by calls of `fill_request`, with any seed at each of them: the filling
of the buffers draws from the same seed in between. -/
def ReachedFrom (data start : MixedData) (filesize : UInt64) : Prop :=
  ∃ seeds, Transition.exec (workloads.fillStep filesize) (.mixed start) seeds = some (.mixed data)

end MixedData

section Blocks

variable {pos filesize : UInt64} {iosize : UInt32}

/-- A forward stream stays where it is when it starts again and has read one block before. -/
theorem forwardStream_eq_iff (hsize : iosize.toUInt64 ≠ 0) :
    (forwardStream pos filesize iosize).2 = pos ↔
      pos = iosize.toUInt64 ∧ filesize < iosize.toUInt64 + iosize.toUInt64 := by
  simp only [forwardStream]
  split
  · rename_i hend
    rw [UInt64.zero_add]
    constructor
    · rintro rfl
      exact ⟨rfl, hend⟩
    · exact fun h => h.1.symm
  · rename_i hroom
    rw [UInt64.add_eq_left]
    refine iff_of_false hsize ?_
    rintro ⟨rfl, hlt⟩
    exact hroom hlt

/-- A backward stream stays where it is when it starts again at the end of the file. -/
theorem backwardStream_eq_iff (hsize : iosize.toUInt64 ≠ 0) :
    (backwardStream pos filesize iosize).2 = pos ↔
      pos < iosize.toUInt64 ∧ filesize = pos + iosize.toUInt64 := by
  simp only [backwardStream]
  split
  · rename_i hstart
    rw [UInt64.sub_eq_iff_eq_add]
    exact ⟨fun h => ⟨hstart, h⟩, fun h => h.2⟩
  · rename_i hroom
    rw [UInt64.sub_eq_iff_eq_add, eq_comm, UInt64.add_eq_left]
    exact iff_of_false hsize fun h => hroom h.1

theorem Stream.next_eq_iff (stream : Stream) (hsize : iosize.toUInt64 ≠ 0) :
    (stream.next pos filesize iosize).2 = pos ↔ stream.StaysAt pos filesize iosize.toUInt64 := by
  cases stream with
  | readForward => exact forwardStream_eq_iff hsize
  | readBackward => exact backwardStream_eq_iff hsize
  | writeForward => exact forwardStream_eq_iff hsize
  | writeBackward => exact backwardStream_eq_iff hsize

/-- A stream stays for one size at most. -/
theorem Stream.StaysAt.size_eq {stream : Stream} {size size' : UInt64}
    (h : stream.StaysAt pos filesize size) (h' : stream.StaysAt pos filesize size') :
    size = size' := by
  have hbackward (heq : filesize = pos + size) (heq' : filesize = pos + size') : size = size' :=
    (UInt64.add_right_inj pos).mp (heq.symm.trans heq')
  cases stream with
  | readForward => exact h.1.symm.trans h'.1
  | readBackward => exact hbackward h.2 h'.2
  | writeForward => exact h.1.symm.trans h'.1
  | writeBackward => exact hbackward h.2 h'.2

end Blocks

section Draws

/-- The draw with the given halves. -/
def drawOf (high low : UInt32) : UInt64 := UInt64.ofNat (high.toNat * 2 ^ 32 + low.toNat)

theorem drawOf_toUInt32 (high low : UInt32) : (drawOf high low).toUInt32 = low := by
  apply UInt32.toNat_inj.mp
  have hlow := low.toNat_lt
  simp only [drawOf, UInt64.toNat_toUInt32, UInt64.toNat_ofNat']
  omega

theorem drawOf_high (high low : UInt32) : (drawOf high low >>> 32).toUInt32 = high := by
  apply UInt32.toNat_inj.mp
  have hlow := low.toNat_lt
  have hhigh := high.toNat_lt
  have hshift : (32 : UInt64).toNat % 64 = 32 := by decide
  simp only [drawOf, UInt64.toNat_toUInt32, UInt64.toNat_shiftRight, UInt64.toNat_ofNat', hshift,
    Nat.shiftRight_eq_div_pow]
  omega

/-- Each draw is the next word after some seed. -/
theorem exists_seed (randomBase : UInt64) : ∃ seed, randomUint64T seed = randomBase := by
  have hfinite : Finite UInt64 := Finite.of_injective UInt64.toFin fun _ _ => UInt64.toFin_inj.mp
  exact Finite.surjective_of_injective randomUint64T_injective randomBase

/-- The low half of a draw that selects a stream. Nothing selects the forward read. -/
def Stream.low : Stream → UInt32
  | readForward => 0
  | readBackward => 0
  | writeForward => 0xFFFFFFE1
  | writeBackward => 0xFFFFFFE0

/-- A draw with the low half of a stream issues its next request and moves it. -/
theorem mixedFillRequest_drawOf (data : MixedData) (filesize : UInt64) {seed : UInt64}
    {high : UInt32} {stream : Stream} (hstream : stream ≠ .readForward)
    (hseed : randomUint64T seed = drawOf high stream.low) :
    ∃ data', mixedFillRequest data filesize seed =
        some (data', drawOf high stream.low,
          data.request filesize (drawOf high stream.low) stream) ∧
      data'.position stream =
        (stream.next (data.position stream) filesize (getSequentialIosize data high)).2 ∧
      ∀ other, other ≠ stream → data'.position other = data.position other := by
  have hlow := drawOf_toUInt32 high stream.low
  have hhigh := drawOf_high high stream.low
  simp only [mixedFillRequest, MixedData.request, hseed, hlow, hhigh]
  cases stream with
  | readForward => exact absurd rfl hstream
  | readBackward =>
    refine ⟨{ data with seqPos2 := _ }, rfl, rfl, ?_⟩
    intro other hother
    cases other <;> first | rfl | exact absurd rfl hother
  | writeForward =>
    refine ⟨{ data with seqPos3 := _ }, rfl, rfl, ?_⟩
    intro other hother
    cases other <;> first | rfl | exact absurd rfl hother
  | writeBackward =>
    refine ⟨{ data with seqPos4 := _ }, rfl, rfl, ?_⟩
    intro other hother
    cases other <;> first | rfl | exact absurd rfl hother

/-- The test for a sequential read leaves no draw for the forward direction. -/
theorem and_one_of_mask {low : UInt32} (h : low &&& 0x1F = 0) : low &&& 1 = 0 := by
  have hmask : (1 : UInt32) = 0x1F &&& 1 := by decide
  rw [hmask, ← UInt32.and_assoc, h, UInt32.zero_and]

/-- The tables stay as they are, and each stream stays or has its next request. The forward read
stays. -/
theorem fillRequest_kept {data data' : MixedData} {filesize seed seed' : UInt64} {t : Target}
    (h : mixedFillRequest data filesize seed = some (data', seed', t)) :
    (data'.sequentialBlocksizeProb = data.sequentialBlocksizeProb ∧
      data'.minBlocksizeIdx = data.minBlocksizeIdx ∧ data'.blocksizes = data.blocksizes) ∧
    ∀ stream, data'.position stream = data.position stream ∨ stream ≠ .readForward ∧
      ∃ high, data'.position stream =
        (stream.next (data.position stream) filesize (getSequentialIosize data high)).2 := by
  unfold mixedFillRequest at h
  dsimp only at h
  split at h
  · split at h
    · rename_i hmask
      split at h
      · rename_i hforward
        exact absurd (and_one_of_mask hmask) hforward
      · cases h
        refine ⟨⟨rfl, rfl, rfl⟩, fun stream => ?_⟩
        cases stream with
        | readBackward => exact Or.inr ⟨Stream.noConfusion, _, rfl⟩
        | _ => exact Or.inl rfl
    · obtain ⟨offset, -, heq⟩ := Option.map_eq_some_iff.mp h
      cases heq
      exact ⟨⟨rfl, rfl, rfl⟩, fun _ => Or.inl rfl⟩
  · split at h
    · split at h
      · cases h
        refine ⟨⟨rfl, rfl, rfl⟩, fun stream => ?_⟩
        cases stream with
        | writeForward => exact Or.inr ⟨Stream.noConfusion, _, rfl⟩
        | _ => exact Or.inl rfl
      · cases h
        refine ⟨⟨rfl, rfl, rfl⟩, fun stream => ?_⟩
        cases stream with
        | writeBackward => exact Or.inr ⟨Stream.noConfusion, _, rfl⟩
        | _ => exact Or.inl rfl
    · obtain ⟨offset, -, heq⟩ := Option.map_eq_some_iff.mp h
      cases heq
      exact ⟨⟨rfl, rfl, rfl⟩, fun _ => Or.inl rfl⟩

end Draws

section Moves

variable {data : MixedData} {filesize : UInt64} {stream : Stream}

/-- A stream moves when some draw gives its next request another position. The forward read never
does. -/
theorem moves_iff_exists_high : data.Moves filesize stream ↔ stream ≠ .readForward ∧
    ∃ high, (stream.next (data.position stream) filesize (getSequentialIosize data high)).2 ≠
      data.position stream := by
  constructor
  · rintro ⟨randomBase, seed, data', hseed, hfill, hmoved, -⟩
    obtain hkept | ⟨hstream, high, hnext⟩ := (fillRequest_kept hfill).2 stream
    · exact absurd hkept hmoved
    · exact ⟨hstream, high, hnext ▸ hmoved⟩
  · rintro ⟨hstream, high, hmoved⟩
    obtain ⟨seed, hseed⟩ := exists_seed (drawOf high stream.low)
    obtain ⟨data', hfill, hnext, hothers⟩ :=
      mixedFillRequest_drawOf data filesize hstream hseed
    exact ⟨_, seed, data', hseed, hfill, hnext ▸ hmoved, hothers⟩

/-- The sizes that a draw can choose for a sequential request: the smallest and the largest. -/
structure MixedData.Drawable (data : MixedData) : Prop where
  tail : data.Tail
  smallest : getSequentialIosize data 0 = blocksize data.minBlocksizeIdx
  largest : getSequentialIosize data 0xFFFFFFFF = blocksize 12

theorem blocksize_last : (blocksize 12).toUInt64 = mixedMaxIosize := by decide

/-- Some size moves a stream unless it is at its only place. -/
theorem MixedData.Drawable.exists_high_iff (h : data.Drawable) :
    (∃ high, (stream.next (data.position stream) filesize (getSequentialIosize data high)).2 ≠
      data.position stream) ↔ ¬data.AtOnlyPlace filesize stream := by
  have hne : ∀ i ≤ 12, (blocksize i).toUInt64 ≠ 0 := by
    intro i hi hzero
    have hpos := (blocksize_bounds hi).1
    rw [hzero] at hpos
    exact absurd hpos (by decide)
  constructor
  · rintro ⟨high, hmoved⟩ ⟨hmin, hstays⟩
    obtain ⟨j, hj, hj', hsize⟩ :=
      h.tail.getIosize_eq data.sequentialBlocksizeProb high
    obtain rfl : j = 12 := by omega
    refine hmoved ((stream.next_eq_iff ?_).mpr ?_)
    · rw [getSequentialIosize, hsize]
      exact hne 12 (Nat.le_refl 12)
    · rw [getSequentialIosize, hsize, blocksize_last]
      exact hstays
  · intro hplace
    by_contra hall
    have hkept (high : UInt32) : (stream.next (data.position stream) filesize
        (getSequentialIosize data high)).2 = data.position stream := by
      by_contra hmoved
      exact hall ⟨high, hmoved⟩
    have hsmallest := hkept 0
    have hlargest := hkept 0xFFFFFFFF
    rw [h.smallest, stream.next_eq_iff (hne _ h.tail.minBlocksizeIdx_le)] at hsmallest
    rw [h.largest, stream.next_eq_iff (hne 12 (Nat.le_refl 12))] at hlargest
    have hsizes := congrArg UInt64.toNat (hsmallest.size_eq hlargest)
    rw [blocksize_eq_pow h.tail.minBlocksizeIdx_le, blocksize_eq_pow (Nat.le_refl 12)] at hsizes
    have hmin := Nat.pow_right_injective (Nat.le_refl 2) hsizes
    exact hplace ⟨by omega, blocksize_last ▸ hlargest⟩

end Moves

section Reset

/-- A positive threshold takes the draw 0. -/
theorem iosizeLoop_zero {prob : ℕ → UInt32} {n i : ℕ} (h : 0 < prob i) :
    iosizeLoop prob 0 n i = blocksize i := by
  cases n with
  | zero => rfl
  | succ n => rw [iosizeLoop, if_pos h]

/-- No threshold is above the largest draw. -/
theorem iosizeLoop_largest (prob : ℕ → UInt32) (n i : ℕ) :
    iosizeLoop prob 0xFFFFFFFF n i = blocksize (i + n) := by
  induction n generalizing i with
  | zero => rfl
  | succ n ih =>
    have hle : ¬(0xFFFFFFFF : UInt32) < prob i := by
      rw [UInt32.lt_iff_toNat_lt]
      have hlt := (prob i).toNat_lt
      have hlargest : (0xFFFFFFFF : UInt32).toNat = 2 ^ 32 - 1 := by decide
      omega
    rw [iosizeLoop, if_neg hle, ih]
    congr 1
    omega

theorem sequentialFactor_bounds {i : ℕ} (hi : i ≤ 12) :
    1 / 65536 ≤ sequentialFactor i ∧ sequentialFactor i ≤ 1 := by
  have hsize : (blocksize i).toNat = 2 ^ (9 + i) := blocksize_eq_pow hi
  simp only [sequentialFactor, sizeFactor, hsize]
  interval_cases i <;> norm_num

theorem first_threshold_pos {start : ℕ} (hstart : start ≤ 12) :
    0 < threshold 4294967295 sequentialFactor start (12 - start) 0 := by
  have hweight : ∀ k ≤ 12 - start, 0 < sequentialFactor (start + k) :=
    fun k hk => sizeFactor_pos (by decide) (by omega)
  have htotal : cumulative sequentialFactor start (12 - start) ≤ ((12 - start : ℕ) + 1) * 1 :=
    cumulative_le fun k hk => (sequentialFactor_bounds (by omega)).2
  have hlength : ((12 - start : ℕ) : ℚ) ≤ 12 := by
    exact_mod_cast Nat.sub_le 12 start
  have hfirst := (sequentialFactor_bounds hstart).1
  apply threshold_pos hweight
  rw [cumulative_zero]
  push_cast
  linarith

/-- After a reset both sizes can be drawn, and the positions are 0. -/
theorem mixedResetExact_spec {reqsize : UInt64} {data : MixedData}
    (hreset : mixedResetExact reqsize = some data) :
    data.Drawable ∧ ∀ stream, data.position stream = 0 := by
  obtain ⟨table, htable, rfl⟩ := Option.map_eq_some_iff.mp hreset
  refine ⟨?_, fun stream => by cases stream <;> rfl⟩
  obtain ⟨start, hstart, -⟩ := Option.bind_eq_some_iff.mp htable
  obtain ⟨table', htable', hmin, hsizes, -, hsequential, hfirst⟩ := sizeTable_of_start hstart
  obtain rfl : table' = table := Option.some_inj.mp (htable'.symm.trans htable)
  have hle : start ≤ 12 := by
    have hlt := (minBlocksizeLoop_le hstart).2
    omega
  obtain ⟨first, hprob⟩ := Option.isSome_iff_exists.mp
    (hsequential.written start (Nat.le_refl start) hle)
  have hpos : 0 < first := by
    rw [UInt32.lt_iff_toNat_lt, hfirst first hprob]
    exact first_threshold_pos hle
  have hlast : start + (start + (13 - start) - 1 - start) = 12 := by omega
  refine ⟨⟨hmin.trans_le hle, hsizes.trans (by rw [← hmin]; rfl)⟩, ?_, ?_⟩
  · rw [getSequentialIosize, getIosize]
    apply iosizeLoop_zero
    simpa only [SizeTable.mixedData, hmin, hprob, Option.getD_some] using hpos
  · rw [getSequentialIosize, getIosize, iosizeLoop_largest]
    simp only [SizeTable.mixedData, hmin, hsizes, hlast]

end Reset

section Run

variable {reqsize filesize : UInt64} {start data : MixedData}

theorem MixedData.ReachedFrom.refl (start : MixedData) (filesize : UInt64) :
    start.ReachedFrom start filesize := ⟨[], rfl⟩

/-- One more call. -/
theorem MixedData.ReachedFrom.fill {data' : MixedData} {seed seed' : UInt64} {t : Target}
    (h : data.ReachedFrom start filesize)
    (hfill : mixedFillRequest data filesize seed = some (data', seed', t)) :
    data'.ReachedFrom start filesize := by
  obtain ⟨seeds, hexec⟩ := h
  have hstep : workloads.fillStep filesize (.mixed data) seed = some (.mixed data') := by
    simp [Generator.fillStep, workloads, hfill]
  exact ⟨seeds ++ [seed], Transition.exec_append.mpr
    ⟨_, hexec, Transition.exec_cons_eq_some.mpr ⟨_, hstep, rfl⟩⟩⟩

/-- What every call keeps holds of all data that is reached. -/
theorem MixedData.ReachedFrom.invariant {I : MixedData → Prop} (h : data.ReachedFrom start filesize)
    (hfill : ∀ data seed data' seed' t, I data →
      mixedFillRequest data filesize seed = some (data', seed', t) → I data') (hstart : I start) :
    I data := by
  obtain ⟨seeds, hexec⟩ := h
  obtain ⟨data', hdata', hI⟩ := Transition.exec_invariant (P := fun _ _ => True)
    (I := fun d => ∃ data, d = GeneratorData.mixed data ∧ I data)
    (by
      rintro _ seed d' ⟨data, rfl, hI⟩ - hstep
      simp only [Generator.fillStep, workloads, Option.map_map, Option.map_eq_some_iff] at hstep
      obtain ⟨⟨data', seed', t⟩, hnext, rfl⟩ := hstep
      exact ⟨data', rfl, hfill data seed data' seed' t hI hnext⟩)
    hexec Transition.along_true ⟨start, rfl, hstart⟩
  cases hdata'
  exact hI

/-- The tables are those after the reset. -/
theorem MixedData.ReachedFrom.tables (h : data.ReachedFrom start filesize) :
    data.sequentialBlocksizeProb = start.sequentialBlocksizeProb ∧
      data.minBlocksizeIdx = start.minBlocksizeIdx ∧ data.blocksizes = start.blocksizes := by
  refine h.invariant (I := fun data =>
    data.sequentialBlocksizeProb = start.sequentialBlocksizeProb ∧
      data.minBlocksizeIdx = start.minBlocksizeIdx ∧ data.blocksizes = start.blocksizes)
    (fun data seed data' seed' t hdata hfill => ?_) ⟨rfl, rfl, rfl⟩
  obtain ⟨hprob, hmin, hsizes⟩ := (fillRequest_kept hfill).1
  exact ⟨hprob.trans hdata.1, hmin.trans hdata.2.1, hsizes.trans hdata.2.2⟩

theorem MixedData.ReachedFrom.getSequentialIosize_eq (h : data.ReachedFrom start filesize)
    (draw : UInt32) : getSequentialIosize data draw = getSequentialIosize start draw := by
  obtain ⟨hprob, hmin, hsizes⟩ := h.tables
  simp only [getSequentialIosize, getIosize, hprob, hmin, hsizes]

theorem MixedData.ReachedFrom.drawable (h : data.ReachedFrom start filesize)
    (hstart : mixedResetExact reqsize = some start) : data.Drawable := by
  obtain ⟨-, hmin, hsizes⟩ := h.tables
  obtain ⟨htail, hsmallest, hlargest⟩ := (mixedResetExact_spec hstart).1
  refine ⟨⟨hmin ▸ htail.minBlocksizeIdx_le, ?_⟩, ?_, ?_⟩
  · rw [hsizes, hmin, htail.blocksizes_eq]
  · rw [h.getSequentialIosize_eq, hsmallest, hmin]
  · rw [h.getSequentialIosize_eq, hlargest]

/-- A stream that does not move at first keeps its position in all runs. -/
theorem MixedData.ReachedFrom.position_eq (h : data.ReachedFrom start filesize) {stream : Stream}
    (hkept : ¬start.Moves filesize stream) : data.position stream = start.position stream := by
  refine (h.invariant (I := fun data : MixedData => data.ReachedFrom start filesize ∧
    data.position stream = start.position stream) ?_ ⟨.refl start filesize, rfl⟩).2
  rintro data seed data' seed' t ⟨hdata, hposition⟩ hfill
  refine ⟨hdata.fill hfill, ?_⟩
  obtain hsame | ⟨hstream, high, hnext⟩ := (fillRequest_kept hfill).2 stream
  · rw [hsame, hposition]
  · by_contra hne
    refine hkept (moves_iff_exists_high.mpr ⟨hstream, high, ?_⟩)
    rwa [← hdata.getSequentialIosize_eq, ← hposition, ← hnext, hposition]

end Run

/-- **The forward read is dead, and each other stream can move in every reachable state** unless
the largest block is the only size and the file has no other place for it. The states are those that
calls with any seeds lead to. The streams that can move after the reset are those that leave their
place in some run. -/
theorem streams_move_iff {reqsize : UInt64} {start : MixedData}
    (hstart : mixedResetExact reqsize = some start) (filesize : UInt64) (stream : Stream) :
    (∀ data : MixedData, data.ReachedFrom start filesize → (data.Moves filesize stream ↔
      stream ≠ .readForward ∧ ¬data.AtOnlyPlace filesize stream)) ∧
    ((∃ data : MixedData, data.ReachedFrom start filesize ∧ data.position stream ≠ 0) ↔
      stream ≠ .readForward ∧ ¬start.AtOnlyPlace filesize stream) := by
  have hmoves : ∀ data : MixedData, data.ReachedFrom start filesize →
      (data.Moves filesize stream ↔
        stream ≠ .readForward ∧ ¬data.AtOnlyPlace filesize stream) := fun data hreached => by
    rw [moves_iff_exists_high, (hreached.drawable hstart).exists_high_iff]
  have hzero : start.position stream = 0 := (mixedResetExact_spec hstart).2 stream
  refine ⟨hmoves, ?_⟩
  rw [← hmoves start (.refl start filesize)]
  constructor
  · rintro ⟨data, hreached, hne⟩
    by_contra hkept
    exact hne ((hreached.position_eq hkept).trans hzero)
  · rintro ⟨randomBase, seed, data, -, hfill, hmoved, -⟩
    rw [hzero] at hmoved
    exact ⟨data, (MixedData.ReachedFrom.refl start filesize).fill hfill, hmoved⟩

theorem exists_mixedResetExact_sector :
    ∃ start, mixedResetExact 512 = some start ∧ start.minBlocksizeIdx = 0 := by
  have hsearch : minBlocksizeLoop 512 13 0 = some 0 := by decide
  obtain ⟨table, htable, hmin, -⟩ := sizeTable_of_start hsearch
  exact ⟨table.mixedData, by rw [mixedResetExact, htable, Option.map_some], hmin⟩

/-- With sectors of 512 bytes and a file of 1 GiB the other three streams move after the reset, and
the forward write leaves its place. -/
theorem streams_move_sector : ∃ start, mixedResetExact 512 = some start ∧
    (∀ stream, start.Moves 1073741824 stream ↔ stream ≠ .readForward) ∧
    ∃ data : MixedData, data.ReachedFrom start 1073741824 ∧ data.position .writeForward ≠ 0 := by
  obtain ⟨start, hstart, hmin⟩ := exists_mixedResetExact_sector
  have hplace (stream : Stream) : ¬start.AtOnlyPlace 1073741824 stream := by
    rintro ⟨hlast, -⟩
    omega
  have hstreams := streams_move_iff hstart 1073741824
  refine ⟨start, hstart, fun stream => ?_, ?_⟩
  · rw [(hstreams stream).1 start (.refl start 1073741824)]
    exact and_iff_left (hplace stream)
  · exact (hstreams .writeForward).2.mpr ⟨Stream.noConfusion, hplace _⟩

/-- With sectors of 512 bytes and a file of 1 GiB no draw moves the forward read after the reset,
and its position is 0 in all runs. -/
theorem forward_read_dead : ∃ start, mixedResetExact 512 = some start ∧
    ¬start.Moves 1073741824 .readForward ∧
    ∀ data : MixedData, data.ReachedFrom start 1073741824 →
      data.position .readForward = 0 := by
  obtain ⟨start, hstart, -⟩ := exists_mixedResetExact_sector
  have hdead : ¬start.Moves 1073741824 .readForward :=
    fun hmoves => (moves_iff_exists_high.mp hmoves).1 rfl
  exact ⟨start, hstart, hdead, fun data hreached =>
    (hreached.position_eq hdead).trans ((mixedResetExact_spec hstart).2 _)⟩

/-- The tables of exact arithmetic are an instance of the reset. -/
theorem mixedReset_of_exact {reqsize : UInt64} {data : MixedData}
    (h : mixedResetExact reqsize = some data) :
    mixedReset data.randomBlocksizeProb data.sequentialBlocksizeProb reqsize = some data := by
  obtain ⟨table, htable, rfl⟩ := Option.map_eq_some_iff.mp h
  obtain ⟨start, hstart, -⟩ := Option.bind_eq_some_iff.mp htable
  obtain ⟨table', htable', rfl, hsizes, -⟩ := sizeTable_of_start hstart
  obtain rfl : table' = table := Option.some_inj.mp (htable'.symm.trans htable)
  rw [mixedReset, hstart, Option.map_some, ← hsizes]
  rfl

/-- A lookup in written entries is the lookup of the other model. -/
theorem iosizeLoop_of_lookup {prob : ℕ → Option UInt32} {draw : UInt32} {n i : ℕ} (hi : i + n ≤ 12)
    (h : ∀ j, i ≤ j → j < i + n → (prob j).isSome) :
    lookup prob (blocksizeTable[·]?) draw n i =
      some (iosizeLoop (fun j => (prob j).getD 0) draw n i) := by
  induction n generalizing i with
  | zero => exact blocksizeTable_getElem? hi
  | succ n ih =>
    obtain ⟨cmp, hcmp⟩ := Option.isSome_iff_exists.mp (h i (Nat.le_refl i) (by omega))
    rw [lookup, iosizeLoop, hcmp, Option.bind_some, Option.getD_some]
    split
    · exact blocksizeTable_getElem? (by omega)
    · exact ih (by omega) fun j hj hlt => h j (by omega) (by omega)

/-- The lookups that read written entries only are those of the tables with zeros. -/
theorem SizeTable.iosize_mixedData {table : SizeTable} {prob : ℕ → Option UInt32}
    (hmin : table.minBlocksizeIdx ≤ 12) (hsizes : table.blocksizes = 13 - table.minBlocksizeIdx)
    (h : CumulativeProb table.minBlocksizeIdx prob) (draw : UInt32) :
    table.iosize prob draw =
      some (getIosize (fun i => (prob i).getD 0) table.mixedData draw) :=
  iosizeLoop_of_lookup (by omega) fun j hj hlt => h.written j hj (by omega)

end DiskBench
