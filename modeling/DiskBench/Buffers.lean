import Mathlib.Algebra.Ring.Rat
import DiskBench.Slots
import DiskBench.TestRows

/-!
# The buffers of the queue entries

`run_tests` admits a request size, `generic_queue_create` divides the buffer of the worker among
the entries, and the loops of `generic_queue_write` and `read_complete` run to the end of a sector.
The three calculations agree: a request stays in the part of its entry.
-/

namespace DiskBench

/-- The part of the worker's buffer that belongs to a request ends here, in bytes. -/
def IoRequest.bufEnd (request : IoRequest) : ℕ := request.bufStart.toNat + request.bufsize.toNat

/-- The buffers of the entries lie in the buffer of the worker and do not overlap. Entry `i` has
`[i * b, (i + 1) * b)`, with the same size `b` for all of them. -/
structure SlotsDisjoint (queue : AsyncQueue) (bufsize : UInt64) : Prop where
  layout : ∃ b : UInt64, ∀ i < queue.total.toNat,
    (queue.ioaqes i).request.bufsize = b ∧
      (queue.ioaqes i).request.bufStart.toNat = i * b.toNat
  inside : ∀ i < queue.total.toNat, (queue.ioaqes i).request.bufEnd ≤ bufsize.toNat
  disjoint : ∀ i < queue.total.toNat, ∀ j < queue.total.toNat, i ≠ j →
    (queue.ioaqes i).request.bufEnd ≤ (queue.ioaqes j).request.bufStart.toNat ∨
      (queue.ioaqes j).request.bufEnd ≤ (queue.ioaqes i).request.bufStart.toNat

/-- The loops that fill and compare the buffer of a request do not leave its first `b` bytes. -/
structure StaysInside (writeRandom : Bool) (request : IoRequest) (b : ℕ) : Prop where
  sectors_le : 512 * request.sectors ≤ b
  fill_frame : ∀ seed a, b ≤ 8 * a →
    (fillBuffer writeRandom request seed).1.buf a = request.buf a
  check_congr : ∀ buf watermark, (∀ a, 8 * a < b → buf a = request.buf a) →
    checkBuffer writeRandom (request.setBuf buf) watermark =
      checkBuffer writeRandom request watermark

/-- The random comparison looks at `n` words. -/
theorem checkRandom_congr {u v : Memory} {n p : ℕ} {seed : UInt64}
    (h : ∀ a, p ≤ a → a < p + n → u a = v a) : checkRandom u n p seed = checkRandom v n p seed := by
  induction n generalizing p seed with
  | zero => rfl
  | succ n ih =>
    rw [checkRandom, checkRandom, h p (Nat.le_refl _) (by omega),
      ih fun a ha ha' => h a (by omega) (by omega)]

/-- The constant comparison looks at `n` words. -/
theorem checkConstant_congr {u v : Memory} {n p : ℕ} (h : ∀ a, p ≤ a → a < p + n → u a = v a) :
    checkConstant u n p = checkConstant v n p := by
  induction n generalizing p with
  | zero => rfl
  | succ n ih =>
    rw [checkConstant, checkConstant, h p (Nat.le_refl _) (by omega),
      ih fun a ha ha' => h a (by omega) (by omega)]

/-- The body of the comparing loop looks at the words of its sector. -/
theorem checkSector_congr {writeRandom : Bool} {request : IoRequest} {buf : Memory} {k : ℕ}
    {off : UInt64} (h : ∀ a, a < 64 * (k + 1) → buf a = request.buf a) :
    checkSector writeRandom (request.setBuf buf) (512 * k) off =
      checkSector writeRandom request (512 * k) off := by
  have hbuf : (request.setBuf buf).buf = buf := rfl
  have herror : ∀ printed, integrityError (request.setBuf buf) printed =
      integrityError request printed := fun _ => rfl
  simp only [checkSector, hbuf, herror]
  rw [h _ (by omega), h ((512 * k + 8) / 8) (by omega),
    checkRandom_congr fun a _ ha => h a (by omega),
    checkConstant_congr fun a _ ha => h a (by omega)]

/-- The comparing loop looks at the words of the sectors it may reach. -/
theorem checkLoop_congr {writeRandom : Bool} {request : IoRequest} {buf : Memory}
    {watermark off : UInt64} {n k : ℕ} (h : ∀ a, a < 64 * (k + n) → buf a = request.buf a) :
    checkLoop writeRandom (request.setBuf buf) watermark n (512 * k) off =
      checkLoop writeRandom request watermark n (512 * k) off := by
  have hsize : (request.setBuf buf).size = request.size := rfl
  have hoff : (request.setBuf buf).off = request.off := rfl
  have hnext : 512 * k + 512 = 512 * (k + 1) := by omega
  induction n generalizing k off with
  | zero => rfl
  | succ n ih =>
    rw [checkLoop, checkLoop, checkSector_congr fun a ha => h a (by omega), hsize, hoff, hnext,
      ih (fun a ha => h a (by omega)) (by omega)]

/-- A request whose sectors fit into `b` bytes stays inside them. -/
theorem staysInside_of_sectors_le {writeRandom : Bool} {request : IoRequest} {b : ℕ}
    (h : 512 * request.sectors ≤ b) : StaysInside writeRandom request b where
  sectors_le := h
  fill_frame seed a ha := by
    have hsectors := request.sectors_spec
    exact @fillLoop_frame writeRandom request.off request.size request.sectors 0 request.buf seed
      (by omega) a (Or.inr (by omega))
  check_congr buf watermark hbuf :=
    @checkLoop_congr writeRandom request buf watermark request.off request.sectors 0
      fun a ha => hbuf a (by omega)

/-- The sectors of a request fit into whole sectors when its size does. -/
theorem sectors_le_of_size_le {request : IoRequest} {b : ℕ} (hsector : 512 ∣ b)
    (hsize : request.size.toNat ≤ b) : 512 * request.sectors ≤ b := by
  unfold IoRequest.sectors
  omega

/-- What the test of `run_tests` says about an admitted depth: it is positive, and each entry gets
the whole pages of its share, which hold the largest request. -/
theorem admits_share {config : Config} {worker : IoWorker} {queueDepth : Int32}
    {maxIoSize : UInt64} (hpage : 512 ∣ config.pageSize.toNat) (hpos : 1 ≤ maxIoSize.toNat)
    (h : admits config worker queueDepth maxIoSize = true) :
    1 ≤ queueDepth ∧ queueDepth.toInt64.toUInt64.toNat = queueDepth.toUInt32.toNat ∧
      config.pageSize ≤ worker.bufsize / queueDepth.toInt64.toUInt64 ∧
      ∃ b : UInt64, b = worker.bufsize / queueDepth.toInt64.toUInt64 -
          worker.bufsize / queueDepth.toInt64.toUInt64 % config.pageSize ∧
        maxIoSize.toNat ≤ b.toNat ∧ 512 ∣ b.toNat ∧
        queueDepth.toUInt32.toNat * b.toNat ≤ worker.bufsize.toNat := by
  obtain ⟨depth, hdepth⟩ : ∃ depth, depth = queueDepth.toInt64.toUInt64 := ⟨_, rfl⟩
  have hshare : (worker.bufsize / depth).toNat = worker.bufsize.toNat / depth.toNat :=
    UInt64.toNat_div _ _
  have hb := toNat_sub_mod (worker.bufsize / depth) config.pageSize
  have hle := admits_iff.mp h
  rw [← hdepth, ← hshare] at hle
  have hpage_pos : 0 < config.pageSize.toNat := by
    by_contra hzero
    rw [Nat.eq_zero_of_not_pos hzero, Nat.mod_zero] at hle
    omega
  have hpage_le : config.pageSize.toNat ≤ (worker.bufsize / depth).toNat := by
    by_contra hlt
    rw [Nat.mod_eq_of_lt (Nat.lt_of_not_le hlt)] at hle
    omega
  have hwhole := Nat.div_add_mod (worker.bufsize / depth).toNat config.pageSize.toNat
  have hsector : 512 ≤ config.pageSize.toNat := Nat.le_of_dvd hpage_pos hpage
  -- A share of at least one sector means that the divisor is no negative number.
  have hmul : depth.toNat * (worker.bufsize / depth).toNat ≤ worker.bufsize.toNat := by
    rw [hshare]
    exact Nat.mul_div_le _ _
  have hsmall : depth.toNat * 512 ≤ worker.bufsize.toNat :=
    (Nat.mul_le_mul_left _ (hsector.trans hpage_le)).trans hmul
  have hne : depth.toNat ≠ 0 := by
    intro hzero
    rw [hshare, hzero, Nat.div_zero] at hpage_le
    omega
  have hsigned : queueDepth.toInt64.toInt = if 2 * depth.toNat < 2 ^ 64 then (depth.toNat : ℤ)
      else (depth.toNat : ℤ) - (2 ^ 64 : ℕ) := by
    rw [hdepth]
    exact BitVec.toInt_eq_toNat_cond queueDepth.toInt64.toBitVec
  have hlt := worker.bufsize.toNat_lt
  rw [Int32.toInt_toInt64, if_pos (by omega)] at hsigned
  have hpositive : 1 ≤ queueDepth := one_le_iff_toInt.mpr (by omega)
  have hword : depth.toNat = queueDepth.toUInt32.toNat := by
    rw [toNat_toUInt32_of_pos hpositive]
    omega
  refine ⟨hpositive, hdepth ▸ hword, ?_, _, rfl, ?_, ?_, ?_⟩
  · rw [← hdepth, UInt64.le_iff_toNat_le]
    exact hpage_le
  · rw [← hdepth, hb]
    exact hle
  · rw [← hdepth, hb]
    exact hpage.trans ⟨(worker.bufsize / depth).toNat / config.pageSize.toNat, by omega⟩
  · rw [← hdepth, hb, ← hword]
    exact (Nat.mul_le_mul_left _ (Nat.sub_le _ _)).trans hmul

/-- The queue of an admitted depth is created with disjoint parts of the worker's buffer. -/
theorem genericQueueCreate_of_admits {config : Config} {worker : IoWorker} {queueDepth : Int32}
    {maxIoSize : UInt64} (hpage : 512 ∣ config.pageSize.toNat) (hpos : 1 ≤ maxIoSize.toNat)
    (h : admits config worker queueDepth maxIoSize = true) (memory : ℕ → Memory) :
    ∃ queue, genericQueueCreate config worker queueDepth memory = .ok queue ∧
      SlotsDisjoint queue worker.bufsize ∧
      ∀ i, maxIoSize.toNat ≤ (queue.ioaqes i).request.bufsize.toNat ∧
        512 ∣ (queue.ioaqes i).request.bufsize.toNat := by
  obtain ⟨hdepth, hword, hassert, b, hb, hmax, hsector, hmul⟩ := admits_share hpage hpos h
  have hne : queueDepth.toInt64.toUInt64 ≠ 0 := by
    intro hzero
    have hpositive := toUInt32_pos hdepth
    rw [← hword, hzero] at hpositive
    exact absurd hpositive (by decide)
  have hcreate : genericQueueCreate config worker queueDepth memory = .ok {
      total := queueDepth.toUInt32
      free := queueDepth.toUInt32
      active := 0
      ready := List.range queueDepth.toInt.toNat
      ioaqes := fun i =>
        ⟨⟨0, 0, memory i, UInt64.ofNat i * b, b, 0, 0, 0, false⟩, .null⟩ } := by
    simp only [genericQueueCreate, hne, UInt64.not_lt.mpr hassert, and_false, if_false, hb]
  have hstart : ∀ i < queueDepth.toUInt32.toNat,
      (UInt64.ofNat i * b).toNat = i * b.toNat ∧
        i * b.toNat + b.toNat ≤ queueDepth.toUInt32.toNat * b.toNat := by
    intro i hi
    have hnext : (i + 1) * b.toNat ≤ queueDepth.toUInt32.toNat * b.toNat :=
      Nat.mul_le_mul_right _ hi
    rw [Nat.add_mul, Nat.one_mul] at hnext
    have hlt := worker.bufsize.toNat_lt
    have hlt' := queueDepth.toUInt32.toNat_lt
    refine ⟨?_, hnext⟩
    rw [UInt64.toNat_mul, UInt64.toNat_ofNat', Nat.mod_eq_of_lt (by omega : i < 2 ^ 64),
      Nat.mod_eq_of_lt (by omega)]
  refine ⟨_, hcreate, ⟨⟨b, fun i hi => ⟨rfl, (hstart i hi).1⟩⟩, fun i hi => ?_,
    fun i hi j hj hij => ?_⟩, fun i => ⟨hmax, hsector⟩⟩
  · obtain ⟨hi', hnext⟩ := hstart i hi
    simp only [IoRequest.bufEnd]
    omega
  · obtain ⟨hi', _⟩ := hstart i hi
    obtain ⟨hj', _⟩ := hstart j hj
    simp only [IoRequest.bufEnd, hi', hj']
    rcases Nat.lt_or_gt_of_ne hij with hlt | hlt
    · left
      calc i * b.toNat + b.toNat = (i + 1) * b.toNat := by rw [Nat.add_mul, Nat.one_mul]
        _ ≤ j * b.toNat := Nat.mul_le_mul_right _ hlt
    · right
      calc j * b.toNat + b.toNat = (j + 1) * b.toNat := by rw [Nat.add_mul, Nat.one_mul]
        _ ≤ i * b.toNat := Nat.mul_le_mul_right _ hlt

/-- A request that the generator of a thread produces after some calls. -/
def TestThread.Produces (thread : TestThread) (t : Target) : Prop :=
  ∃ seeds data seed data' seed',
    Transition.exec (workloads.fillStep thread.worker.filesize) thread.generator seeds =
      some data ∧
    workloads.fillRequest data thread.worker.filesize seed = some (data', seed', t)

/-- A reset for at least one byte leaves a generator whose largest request is not empty. -/
theorem Factory.maxIoSize_pos {factory : Factory} {filesize reqsize : UInt64}
    {data : GeneratorData} (hpos : 1 ≤ reqsize)
    (hreset : factory.reset filesize reqsize = some data) :
    1 ≤ (workloads.maxIoSize data).toNat := by
  rw [Factory.maxIoSize_of_reset hreset]
  cases factory with
  | sequential write => exact UInt64.le_iff_toNat_le.mp hpos
  | random write => exact UInt64.le_iff_toNat_le.mp hpos
  | mixed randomProb sequentialProb =>
    have htable : 1 ≤ mixedMaxIosize.toNat := by decide
    exact htable

/-- **Slot buffers.** In every test that `run_tests` starts, whatever is measured, the queue of
each thread is created with its assertion holding, the buffers of its entries are disjoint parts
of the worker's buffer, and filling and comparing any request of the thread's generator stays in
the buffer of its entry. -/
theorem slot_buffers {T : Type} [Zero T] [Add T] [Div T] [NatCast T] [LT T] [LE T]
    [DecidableLT T] [DecidableLE T] {config : Config} {options : TestOptions}
    {workers : List TestWorker} {measured : Measured T} {maxReqsize : Option UInt64} {fuel : ℕ}
    {test : Test} {thread : TestThread} (hpage : 512 ∣ config.pageSize.toNat)
    (hpos : ∀ w ∈ workers, ∀ workload, w.workload = some workload →
      ∀ reqsize ∈ workload.reqsizes, 1 ≤ reqsize)
    (htest : test ∈ (runTests config options workers measured maxReqsize fuel).state.tests)
    (hthread : thread ∈ test.threads) (memory : ℕ → Memory) :
    config.pageSize ≤ thread.worker.bufsize / thread.queueDepth.toInt64.toUInt64 ∧
      ∃ queue, genericQueueCreate config thread.worker thread.queueDepth memory = .ok queue ∧
        SlotsDisjoint queue thread.worker.bufsize ∧
        ∀ i t request, thread.Produces t → request.size = t.size →
          StaysInside config.writeRandom request (queue.ioaqes i).request.bufsize.toNat := by
  obtain ⟨w, hw, workload, depth, reqsize, hadmitted⟩ :=
    (runTests_started maxReqsize fuel test htest).1 thread hthread
  have hreset := hadmitted.reset_eq
  have hmax : 1 ≤ (workloads.maxIoSize thread.generator).toNat :=
    Factory.maxIoSize_pos (hpos w hw workload hadmitted.workload_eq reqsize
      (List.mem_of_getElem? hadmitted.reqsize_eq)) hreset
  obtain ⟨queue, hcreate, hdisjoint, hroom⟩ :=
    genericQueueCreate_of_admits hpage hmax hadmitted.admits_eq memory
  refine ⟨(admits_share hpage hmax hadmitted.admits_eq).2.2.1, queue, hcreate, hdisjoint, ?_⟩
  rintro i t request ⟨seeds, data, seed, data', seed', hexec, hfill⟩ hsize
  obtain ⟨hle, hsector⟩ := hroom i
  rw [hadmitted.worker_eq] at hexec hfill
  apply staysInside_of_sectors_le (sectors_le_of_size_le hsector _)
  rw [hsize]
  exact (request_size_le hreset hexec hfill).trans hle

/-- The test of sequential writes of 4096 bytes with depth 2 in a buffer of three pages. -/
def threePageTest : Test :=
  ⟨0, 0, false, [⟨createWorker 12288 65536 0, .sequential ⟨true, 0, 4096⟩, 2⟩]⟩

/-- Each of its two entries gets one of the pages. -/
theorem slot_buffers_three_pages :
    (4096 : UInt64) ≤ 12288 / 2 ∧
      ∃ queue, genericQueueCreate ⟨true, .linux, 4096, true⟩ (createWorker 12288 65536 0) 2
          (fun _ _ => 0) = .ok queue ∧
        SlotsDisjoint queue 12288 ∧
        ∀ i t request,
          (⟨createWorker 12288 65536 0, .sequential ⟨true, 0, 4096⟩, 2⟩ : TestThread).Produces t →
            request.size = t.size →
              StaysInside true request (queue.ioaqes i).request.bufsize.toNat :=
  @slot_buffers ℚ _ _ _ _ _ _ _ _ ⟨true, .linux, 4096, true⟩ ⟨false, false, none⟩
    (prepareWorkloads [createWorker 12288 65536 0] ⟨.sequential true, [4096], [2]⟩)
    ⟨fun _ _ => 0, fun _ => (0, 0)⟩ none 3 threePageTest _ (by decide)
    (by simp [prepareWorkloads, prepareWorkload]) List.mem_cons_self List.mem_cons_self fun _ _ => 0

end DiskBench
