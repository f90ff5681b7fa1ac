import DiskBench.Effects
import DiskBench.Steps
import DiskBench.Workloads.Workloads

/-!
# Integrity alarms

On a device that works, everything below the watermark carries the pattern: the file, the
writes in flight, and what the reads in flight have fetched so far. The last part is kept by
every step but one. A completing write can move the watermark over a sector that a read in
flight has fetched before it was written, and then `read_complete` raises a false alarm.
-/

namespace DiskBench

open Transition WordMemory

variable {γ : Type} {config : Config} {G : Generator γ}

/-- A request completes in full, after all its sectors have taken effect. -/
def CorrectDevice (s : IoState γ) : Action γ → Prop
  | .reap i transfer _ => transfer = .full ∧
      ∀ k, k < (s.queue.ioaqes i).request.sectors → s.device.served i k = true
  | _ => True

instance (s : IoState γ) : ∀ a, Decidable (CorrectDevice s a)
  | .reap _ _ _ => inferInstanceAs (Decidable (_ = _ ∧ ∀ k, k < _ → _ = true))
  | .launch _ | .iterate _ _ | .effect _ _ | .waitReturn _ | .finish _ => isTrue trivial

/-- The generator chooses offsets and sizes that are multiples of 512. -/
def AlignedRequests (G : Generator γ) (s : IoState γ) : Action γ → Prop
  | .iterate _ _ => ∀ data seed target,
      G.fillRequest s.generator s.worker.filesize s.worker.randomSeed = some (data, seed, target) →
      512 ∣ target.offset.toUInt64.toNat ∧ 512 ∣ target.size.toNat
  | _ => True

instance (G : Generator γ) (s : IoState γ) : ∀ a, Decidable (AlignedRequests G s a)
  | .iterate _ _ =>
    match hfill : G.fillRequest s.generator s.worker.filesize s.worker.randomSeed with
    | none => isTrue fun _ _ _ h => by cases hfill.symm.trans h
    | some (_, _, target) =>
      decidable_of_iff (512 ∣ target.offset.toUInt64.toNat ∧ 512 ∣ target.size.toNat)
        ⟨fun hdvd _ _ _ h => by cases hfill.symm.trans h; exact hdvd, fun h => h _ _ _ hfill⟩
  | .launch _ | .effect _ _ | .reap _ _ _ | .waitReturn _ | .finish _ => isTrue trivial

/-- No write completes that moves the watermark over a sector which a read in flight has
already fetched and which does not carry the pattern in the buffer of that read. -/
def NoStaleRead (config : Config) (s : IoState γ) : Action γ → Prop
  | .reap i _ _ => (s.queue.ioaqes i).request.write = true →
      ∀ j ∈ s.device.inflight, (s.queue.ioaqes j).request.write = false →
        ∀ k, k < (s.queue.ioaqes j).request.sectors → s.device.served j k = true →
          ¬(s.queue.ioaqes j).request.sectorOff k < s.worker.lastIntegrityWrittenOffset →
          (s.queue.ioaqes j).request.sectorOff k <
            (s.worker.advance (s.queue.ioaqes i).request).lastIntegrityWrittenOffset →
          CarriesPattern config.writeRandom ((s.queue.ioaqes j).request.sectorOff k)
            (block 64 (s.queue.ioaqes j).request.buf k)
  | _ => True

instance (config : Config) (s : IoState γ) : ∀ a, Decidable (NoStaleRead config s a)
  | .reap _ _ _ => inferInstanceAs (Decidable (_ = true → ∀ j ∈ s.device.inflight, _ = false →
      ∀ k, k < (s.queue.ioaqes j).request.sectors → _ = true → ¬_ < _ → _ < _ →
        CarriesPattern _ _ _))
  | .launch _ | .iterate _ _ | .effect _ _ | .waitReturn _ | .finish _ => isTrue trivial

/-- A request in flight agrees with the pattern: a write carries it and has left it in the file
wherever it has taken effect, a read has fetched it wherever it is below the watermark. -/
structure Sound (writeRandom : Bool) (disk : Memory) (watermark : UInt64) (r : IoRequest)
    (served : ℕ → Bool) : Prop where
  aligned : r.Aligned
  filled : r.write = true → ∀ k, k < r.sectors →
    CarriesPattern writeRandom (r.sectorOff k) (block 64 r.buf k)
  stored : r.write = true → ∀ k, k < r.sectors → served k = true →
    SectorCarries writeRandom disk (r.sectorAddr k)
  fetched : r.write = false → ∀ k, k < r.sectors → served k = true →
    r.sectorOff k < watermark → CarriesPattern writeRandom (r.sectorOff k) (block 64 r.buf k)

/-- The invariant of a worker on a correct device. -/
structure IntegrityInv (config : Config) (s : IoState γ) : Prop where
  distinct : (s.queue.ready ++ s.device.inflight).Nodup
  callback : ∀ i ∈ s.device.inflight, (s.queue.ioaqes i).callback =
    if (s.queue.ioaqes i).request.write then .writeComplete else .readComplete
  disk : ∀ n, 512 * n < s.worker.lastIntegrityWrittenOffset.toNat →
    SectorCarries config.writeRandom s.device.disk n
  sound : ∀ i ∈ s.device.inflight, Sound config.writeRandom s.device.disk
    s.worker.lastIntegrityWrittenOffset (s.queue.ioaqes i).request (s.device.served i)

/-- Storing a sector that carries the pattern keeps a request sound, also when the request
itself is the one that is stored. -/
theorem Sound.store {writeRandom : Bool} {disk : Memory} {watermark : UInt64} {r q : IoRequest}
    {served served' : ℕ → Bool} {k : ℕ} (h : Sound writeRandom disk watermark r served)
    (hq : q.Aligned) (hk : CarriesPattern writeRandom (q.sectorOff k) (block 64 q.buf k))
    (hserved : ∀ n, served' n = true → served n = true ∨
      r.write = true ∧ r.sectorAddr n = q.sectorAddr k) :
    Sound writeRandom (storeSector disk q k) watermark r served' where
  aligned := h.aligned
  filled := h.filled
  stored hwrite n hn hs := by
    apply SectorCarries.store hq hk
    rcases hserved n hs with hold | ⟨_, heq⟩
    · exact Or.inl (h.stored hwrite n hn hold)
    · exact Or.inr heq
  fetched hread n hn hs hbelow := by
    rcases hserved n hs with hold | ⟨hwrite, _⟩
    · exact h.fetched hread n hn hold hbelow
    · rw [hread] at hwrite
      cases hwrite

/-- Fetching a sector keeps a read sound, because the file carries the pattern below the
watermark. -/
theorem Sound.fetch {writeRandom : Bool} {disk : Memory} {watermark : UInt64} {r : IoRequest}
    {served served' : ℕ → Bool} {k : ℕ} (h : Sound writeRandom disk watermark r served)
    (hread : r.write = false)
    (hdisk : ∀ n, 512 * n < watermark.toNat → SectorCarries writeRandom disk n)
    (hserved : ∀ n, served' n = true → served n = true ∨ n = k) :
    Sound writeRandom disk watermark (fetchSector disk r k) served' where
  aligned := ⟨h.aligned.offset, h.aligned.size⟩
  filled hwrite := by
    have hfalse : r.write = true := hwrite
    rw [hread] at hfalse
    cases hfalse
  stored hwrite := by
    have hfalse : r.write = true := hwrite
    rw [hread] at hfalse
    cases hfalse
  fetched _ n hn hs hbelow := by
    have hoff : (fetchSector disk r k).sectorOff n = r.sectorOff n := rfl
    rw [hoff] at hbelow ⊢
    by_cases hnk : n = k
    · have heq := h.aligned.sectorOff_eq n
      have hcarries : SectorCarries writeRandom disk (r.sectorAddr n) := by
        apply hdisk
        have hdvd := h.aligned.sectorOff_dvd n
        rw [IoRequest.sectorAddr, Nat.mul_div_cancel' hdvd]
        exact UInt64.lt_iff_toNat_lt.mp hbelow
      rw [heq]
      apply CarriesPattern.congr hcarries
      intro w hw
      rw [hnk]
      exact block_copyBlock_self hw
    · have hold := h.fetched hread n hn ((hserved n hs).resolve_right hnk) hbelow
      apply hold.congr
      intro w hw
      exact block_copyBlock_of_ne hnk hw

/-- Moving the watermark keeps a request sound unless it passes over a stale sector. -/
theorem Sound.advance {writeRandom : Bool} {disk : Memory} {watermark watermark' : UInt64}
    {r : IoRequest} {served : ℕ → Bool} (h : Sound writeRandom disk watermark r served)
    (hstale : r.write = false → ∀ k, k < r.sectors → served k = true →
      ¬r.sectorOff k < watermark → r.sectorOff k < watermark' →
      CarriesPattern writeRandom (r.sectorOff k) (block 64 r.buf k)) :
    Sound writeRandom disk watermark' r served where
  aligned := h.aligned
  filled := h.filled
  stored := h.stored
  fetched hread k hk hs hbelow := by
    by_cases hold : r.sectorOff k < watermark
    · exact h.fetched hread k hk hs hold
    · exact hstale hread k hk hs hold hbelow

/-- After a completed write everything below the watermark carries the pattern, also when
the write has moved the watermark. -/
theorem Sound.disk_advance {writeRandom : Bool} {disk : Memory} {worker : IoWorker}
    {r : IoRequest} {served : ℕ → Bool}
    (h : Sound writeRandom disk worker.lastIntegrityWrittenOffset r served)
    (hwrite : r.write = true) (hserved : ∀ k, k < r.sectors → served k = true)
    (hdisk : ∀ n, 512 * n < worker.lastIntegrityWrittenOffset.toNat →
      SectorCarries writeRandom disk n) {n : ℕ}
    (hn : 512 * n < (worker.advance r).lastIntegrityWrittenOffset.toNat) :
    SectorCarries writeRandom disk n := by
  unfold IoWorker.advance at hn
  split at hn
  · rename_i hstart
    by_cases hold : 512 * n < worker.lastIntegrityWrittenOffset.toNat
    · exact hdisk n hold
    · rw [← hstart] at hold
      have hsize := r.size.toNat_lt
      have hend : 512 * n < r.off.toNat + r.size.toNat := by
        simp only [UInt64.toNat_add] at hn
        omega
      obtain ⟨m, hm⟩ := h.aligned.offset
      have hk : n - m < r.sectors := IoRequest.lt_sectors_iff.mpr (by omega)
      have haddr : r.sectorAddr (n - m) = n := by
        have hlt : r.off.toNat + 512 * (n - m) < 2 ^ 64 := by
          have := (r.off + r.size).toNat_lt
          simp only [UInt64.toNat_add] at hn
          omega
        simp only [IoRequest.sectorAddr, IoRequest.sectorOff, UInt64.toNat_add,
          UInt64.toNat_ofNat']
        omega
      rw [← haddr]
      exact h.stored hwrite (n - m) hk (hserved _ hk)
  · exact hdisk n hn

/-- Before the first workload nothing is in flight and the watermark is 0. -/
theorem IntegrityInv.initial {worker : IoWorker} {generator : γ} {disk : Memory}
    (hzero : worker.lastIntegrityWrittenOffset = 0) :
    IntegrityInv config (IoState.initial worker generator disk) where
  distinct := List.nodup_nil
  callback _ hi := by cases hi
  disk n hn := by
    have hlt : 512 * n < worker.lastIntegrityWrittenOffset.toNat := hn
    rw [hzero] at hlt
    exact absurd hlt (Nat.not_lt_zero _)
  sound _ hi := by cases hi

theorem IntegrityInv.start {s : IoState γ} {l : Launch γ} {queue : AsyncQueue}
    (h : IntegrityInv config s)
    (hcreate : genericQueueCreate config s.worker l.queueDepth l.memory = .ok queue) :
    IntegrityInv config (s.start l queue) where
  distinct := by
    obtain ⟨bufsize, rfl⟩ := genericQueueCreate_ok hcreate
    exact (List.append_nil _).symm ▸ List.nodup_range
  callback _ hi := by cases hi
  disk := h.disk
  sound _ hi := by cases hi

theorem IntegrityInv.stop {s : IoState γ} {i : ℕ} {rest : List ℕ} (h : IntegrityInv config s)
    (hready : s.queue.ready = i :: rest) : IntegrityInv config (s.stop i rest) :=
  { h with
    distinct := by
      have hperm : (rest ++ [i]).Perm s.queue.ready := by
        rw [hready]
        exact List.perm_append_singleton i rest
      exact (hperm.append_right s.device.inflight).nodup_iff.mpr h.distinct }

/-- A new request is sound: a write has just been filled, and nothing has taken effect yet. -/
theorem Sound.submit {worker : IoWorker} {entry : AsyncQueueEntry} {seed : UInt64}
    {target : Target} {clock : Clock} {disk : Memory} {watermark : UInt64}
    (hoffset : 512 ∣ target.offset.toUInt64.toNat) (hsize : 512 ∣ target.size.toNat) :
    Sound config.writeRandom disk watermark
      { (prepareEntry config worker entry seed target clock.preSubmission).1.request with
        postSubmission := clock.postSubmission } fun _ => false where
  aligned := by
    constructor
    · simpa [IoRequest.off] using hoffset
    · simpa using hsize
  filled hwrite k hk := by
    have htarget : target.write = true := by simpa using hwrite
    exact prepareEntry_carries config worker entry seed target clock.preSubmission k htarget hk
  stored _ _ _ hs := by cases hs
  fetched _ _ _ hs := by cases hs

theorem IntegrityInv.submit {s : IoState γ} {i : ℕ} {rest : List ℕ} {data : γ} {seed : UInt64}
    {target : Target} {clock : Clock} {accepted : Bool} (h : IntegrityInv config s)
    (hready : s.queue.ready = i :: rest) (hoffset : 512 ∣ target.offset.toUInt64.toNat)
    (hsize : 512 ∣ target.size.toNat) :
    IntegrityInv config (s.submit config i rest data seed target clock accepted) := by
  have hdistinct := h.distinct
  rw [hready, List.cons_append, List.nodup_cons] at hdistinct
  have hother : ∀ j ∈ s.device.inflight,
      (s.submit config i rest data seed target clock accepted).queue.ioaqes j =
        s.queue.ioaqes j := by
    intro j hj
    have hne : j ≠ i := fun heq => hdistinct.1 (List.mem_append_right _ (heq ▸ hj))
    exact AsyncQueue.setEntry_of_ne _ _ _ hne
  have hself : (s.submit config i rest data seed target clock accepted).queue.ioaqes i =
      { (prepareEntry config s.worker (s.queue.ioaqes i) seed target clock.preSubmission).1 with
        request := { (prepareEntry config s.worker (s.queue.ioaqes i) seed target
          clock.preSubmission).1.request with postSubmission := clock.postSubmission } } :=
    AsyncQueue.setEntry_self _ _ _
  have hwatermark :
      (s.submit config i rest data seed target clock accepted).worker.lastIntegrityWrittenOffset =
        s.worker.lastIntegrityWrittenOffset := by
    obtain ⟨seed', heq⟩ :=
      prepareEntry_worker config s.worker (s.queue.ioaqes i) seed target clock.preSubmission
    exact (congrArg IoWorker.lastIntegrityWrittenOffset heq).trans rfl
  cases accepted with
  | false =>
    refine ⟨hdistinct.2, fun j hj => ?_, ?_, fun j hj => ?_⟩
    · rw [hother j hj]
      exact h.callback j hj
    · rw [hwatermark]
      exact h.disk
    · rw [hother j hj, hwatermark]
      exact h.sound j hj
  | true =>
    have hmem : ∀ j, j ∈ (s.submit config i rest data seed target clock true).device.inflight →
        j ∈ s.device.inflight ∨ j = i := by
      intro j hj
      simpa using (List.mem_append.mp hj)
    refine ⟨?_, fun j hj => ?_, ?_, fun j hj => ?_⟩
    · have hperm : (rest ++ (s.device.inflight ++ [i])).Perm
          (i :: (rest ++ s.device.inflight)) := by
        rw [← List.append_assoc]
        exact List.perm_append_singleton i _
      exact hperm.nodup_iff.mpr (List.nodup_cons.mpr hdistinct)
    · rcases hmem j hj with hj | rfl
      · rw [hother j hj]
        exact h.callback j hj
      · rw [hself]
        simp
    · rw [hwatermark]
      exact h.disk
    · have hne : j ∈ s.device.inflight → j ≠ i :=
        fun hj heq => hdistinct.1 (List.mem_append_right _ (heq ▸ hj))
      rcases hmem j hj with hj | rfl
      · have hserved : (s.submit config i rest data seed target clock true).device.served j =
            s.device.served j := Function.update_of_ne (hne hj) _ _
        rw [hother j hj, hwatermark, hserved]
        exact h.sound j hj
      · have hserved : (s.submit config j rest data seed target clock true).device.served j =
            fun _ => false := Function.update_self _ _ _
        rw [hself, hserved]
        exact Sound.submit hoffset hsize

theorem IntegrityInv.effect {s : IoState γ} {i k : ℕ} (h : IntegrityInv config s)
    (hi : i ∈ s.device.inflight) (hk : k < (s.queue.ioaqes i).request.sectors) :
    IntegrityInv config (s.effect i k) := by
  have hsound := h.sound i hi
  cases hdir : (s.queue.ioaqes i).request.write with
  | true =>
    have hfilled := hsound.filled hdir k hk
    rw [effect_of_write _ _ _ hdir]
    refine ⟨h.distinct, h.callback, fun n hn => ?_, fun j hj => ?_⟩
    · exact SectorCarries.store hsound.aligned hfilled (Or.inl (h.disk n hn))
    · apply (h.sound j hj).store hsound.aligned hfilled
      intro n hn
      rcases (Device.serve_eq_true_iff i k).mp hn with hold | ⟨rfl, rfl⟩
      · exact Or.inl hold
      · exact Or.inr ⟨hdir, rfl⟩
  | false =>
    rw [effect_of_read _ _ _ hdir]
    refine ⟨h.distinct, fun j hj => ?_, h.disk, fun j hj => ?_⟩
    · by_cases hji : j = i
      · subst hji
        rw [AsyncQueue.setRequest_self]
        exact h.callback j hi
      · rw [AsyncQueue.setRequest_of_ne _ _ _ hji]
        exact h.callback j hj
    · by_cases hji : j = i
      · subst hji
        rw [AsyncQueue.setRequest_self]
        apply hsound.fetch hdir h.disk
        intro n hn
        exact ((Device.serve_eq_true_iff j k).mp hn).imp_right And.right
      · rw [AsyncQueue.setRequest_of_ne _ _ _ hji]
        have hserved : (s.device.serve i k).served j = s.device.served j :=
          Function.update_of_ne hji _ _
        show Sound config.writeRandom s.device.disk s.worker.lastIntegrityWrittenOffset
          (s.queue.ioaqes j).request ((s.device.serve i k).served j)
        rw [hserved]
        exact h.sound j hj

theorem IntegrityInv.notify {s : IoState γ} {i : ℕ} {transfer : Transfer} {now : AprTime}
    {caller : Caller} {events received : ℕ} {oldActive : UInt32} {worker : IoWorker}
    {workload : IoWorkload} {queue : AsyncQueue} (h : IntegrityInv config s)
    (hi : i ∈ s.device.inflight)
    (hserved : ∀ k, k < (s.queue.ioaqes i).request.sectors → s.device.served i k = true)
    (hstale : NoStaleRead config s (.reap i transfer now))
    (hnotify : genericQueueNotify config s.worker s.workload s.queue i now =
      .ok (worker, workload, queue)) :
    IntegrityInv config { s with
      worker := worker
      workload := workload
      queue := queue
      pc := afterNotify config queue s.pc caller events received oldActive
      device := s.device.complete i (s.queue.ioaqes i).request transfer } := by
  obtain ⟨hqueue, hcase⟩ := genericQueueNotify_ok hnotify
  have hnodup : s.device.inflight.Nodup := (List.nodup_append.mp h.distinct).2.1
  have hothers : ∀ j ∈ s.device.inflight.erase i,
      j ∈ s.device.inflight ∧ queue.ioaqes j = s.queue.ioaqes j := by
    intro j hj
    obtain ⟨hji, hmem⟩ := hnodup.mem_erase_iff.mp hj
    refine ⟨hmem, ?_⟩
    rw [hqueue, AsyncQueue.release_ioaqes, AsyncQueue.setRequest_of_ne _ _ _ hji]
  have hcallback := h.callback i hi
  -- The watermark moves for a write only, and then over sectors of that write.
  have hworker : (∀ n, 512 * n < worker.lastIntegrityWrittenOffset.toNat →
        SectorCarries config.writeRandom s.device.disk n) ∧
      ∀ j ∈ s.device.inflight, Sound config.writeRandom s.device.disk
        worker.lastIntegrityWrittenOffset (s.queue.ioaqes j).request (s.device.served j) := by
    rcases hcase with ⟨_, _, rfl, _⟩ | ⟨hwriteComplete, rfl, _⟩
    · exact ⟨h.disk, h.sound⟩
    · have hwrite : (s.queue.ioaqes i).request.write = true := by
        rw [hwriteComplete] at hcallback
        by_contra hread
        rw [if_neg hread] at hcallback
        cases hcallback
      refine ⟨fun n hn => (h.sound i hi).disk_advance hwrite hserved h.disk hn, fun j hj => ?_⟩
      exact (h.sound j hj).advance (hstale hwrite j hj)
  refine ⟨?_, fun j hj => ?_, hworker.1, fun j hj => ?_⟩
  · have hperm : (queue.ready ++ s.device.inflight.erase i).Perm
        (s.queue.ready ++ s.device.inflight) := by
      rw [hqueue, AsyncQueue.release_ready, AsyncQueue.setRequest_ready, List.append_assoc]
      exact (List.perm_cons_erase hi).symm.append_left s.queue.ready
    exact hperm.nodup_iff.mpr h.distinct
  · obtain ⟨hmem, heq⟩ := hothers j hj
    show (queue.ioaqes j).callback = _
    rw [heq]
    exact h.callback j hmem
  · obtain ⟨hmem, heq⟩ := hothers j hj
    show Sound config.writeRandom s.device.disk worker.lastIntegrityWrittenOffset
      (queue.ioaqes j).request (s.device.served j)
    rw [heq]
    exact hworker.2 j hmem

/-- A request whose sectors have all taken effect raises no alarm. -/
theorem IntegrityInv.notifies {s : IoState γ} {i : ℕ} {now : AprTime} {reason : Halt}
    (h : IntegrityInv config s) (hi : i ∈ s.device.inflight)
    (hserved : ∀ k, k < (s.queue.ioaqes i).request.sectors → s.device.served i k = true) :
    genericQueueNotify config s.worker s.workload s.queue i now ≠ .error reason := by
  intro hnotify
  have hcallback := h.callback i hi
  rcases genericQueueNotify_error hnotify with ⟨hnull, _⟩ | ⟨hread, output, _, hcomplete⟩
  · rw [hnull] at hcallback
    split at hcallback <;> cases hcallback
  · have hdir : (s.queue.ioaqes i).request.write = false := by
      rw [hread] at hcallback
      by_contra hwrite
      rw [if_pos (by simpa using hwrite)] at hcallback
      cases hcallback
    obtain ⟨k, hk, hreach, hnot⟩ := readComplete_error_iff.mp ⟨output, hcomplete⟩
    exact hnot ((h.sound i hi).fetched hdir k hk (hserved k hk) (hreach k (Nat.le_refl k)))

/-- Every step on a correct device that completes no write over a stale read keeps the
invariant. -/
theorem IntegrityInv.of_step {s t : IoState γ} {a : Action γ} (h : IntegrityInv config s)
    (hdevice : CorrectDevice s a) (haligned : AlignedRequests G s a)
    (hstale : NoStaleRead config s a) (hstep : step config G s a = some t) :
    IntegrityInv config t := by
  cases step_next hstep with
  | start l queue hpc hcreate => exact h.start hcreate
  | startFails l reason hreason => exact { h with }
  | timeout clock accepted hpc htime => exact { h with }
  | sentinel clock accepted hpc hready => exact { h with }
  | stop clock accepted i rest hpc hready hlimit => exact h.stop hready
  | submitFails clock accepted reason hpc hreason => exact { h with }
  | submit clock accepted i rest data seed target hpc htime hready hlimit hfill hassert =>
    obtain ⟨hoffset, hsize⟩ := haligned data seed target hfill
    exact h.submit hready hoffset hsize
  | effect i k hi hk => exact h.effect hi hk
  | notify i transfer now caller events received oldActive block worker workload queue hpc hi
      hnotifies hnotify => exact h.notify hi hdevice.2 hstale hnotify
  | notifyFails i transfer now reason hi hnotify =>
    exact absurd hnotify (h.notifies hi hdevice.2)
  | drop i transfer now caller events received oldActive block hpc hi hnotifies =>
    obtain rfl : transfer = .full := hdevice.1
    cases hplatform : config.platform <;> rw [hplatform] at hnotifies <;> cases hnotifies
  | waitReturn ok caller events received oldActive block hpc hok => exact { h with }
  | finish now hpc => exact { h with }

/-- **No false alarm.** Any sequence of workloads on one worker, from a file of any content, on
a correct device and with aligned requests, raises no integrity error as long as no write that
moves the watermark completes while a read in flight holds stale sectors below the new watermark. -/
theorem no_false_alarm {worker : IoWorker} {generator : γ} {disk : Memory}
    {as : List (Action γ)} {t : IoState γ} (hzero : worker.lastIntegrityWrittenOffset = 0)
    (hrun : exec (step config G) (IoState.initial worker generator disk) as = some t)
    (hdevice : Along (step config G) CorrectDevice (IoState.initial worker generator disk) as)
    (haligned : Along (step config G) (AlignedRequests G)
      (IoState.initial worker generator disk) as)
    (hstale : Along (step config G) (NoStaleRead config)
      (IoState.initial worker generator disk) as) (output : String) :
    t.pc ≠ .halted (.integrityError output) := by
  have hinv : IntegrityInv config t ∧ t.pc ≠ .halted (.integrityError output) := by
    apply exec_invariant
      (I := fun s => IntegrityInv config s ∧ s.pc ≠ .halted (.integrityError output)) _ hrun
      (along_and.mpr ⟨hdevice, along_and.mpr ⟨haligned, hstale⟩⟩)
    · exact ⟨IntegrityInv.initial hzero, fun hpc => by cases hpc⟩
    · intro s a t hs hP hstep
      refine ⟨hs.1.of_step hP.1 hP.2.1 hP.2.2 hstep, fun ht => ?_⟩
      obtain ⟨i, transfer, now, rfl, hi, hnotify⟩ := step_alarm hs.2 hstep ht
      exact hs.1.notifies hi hP.1.2 hnotify
  exact hinv.2

/-- A file of one sector is written and then read. -/
def writeThenRead : List (Action GeneratorData) :=
  [.launch ⟨.sequential ⟨true, 0, 512⟩, 1, 512, 512, 10, fun _ _ => 0, true, 0⟩,
    .iterate ⟨1, 1, 1⟩ true, .effect 0 0, .reap 0 .full 2, .waitReturn true,
    .iterate ⟨3, 3, 3⟩ true, .finish 4,
    .launch ⟨.sequential ⟨false, 0, 512⟩, 1, 512, 512, 10, fun _ _ => 0, true, 5⟩,
    .iterate ⟨6, 6, 6⟩ true, .effect 0 0, .reap 0 .full 7]

/-- The sector that has been written is accepted when it is read. -/
theorem no_false_alarm_write_then_read : ∃ t, exec (step ⟨false, .linux, 4096, true⟩ workloads)
    (IoState.initial ⟨0, 8192, 0, 0, 0, 88172645463325252, true⟩ (.sequential ⟨true, 0, 512⟩)
      fun _ => 0) writeThenRead = some t ∧ t.pc ≠ .halted (.integrityError "") := by
  have hrun : exec (step ⟨false, .linux, 4096, true⟩ workloads)
    (IoState.initial ⟨0, 8192, 0, 0, 0, 88172645463325252, true⟩ (.sequential ⟨true, 0, 512⟩)
      fun _ => 0) writeThenRead = some _ := rfl
  exact ⟨_, hrun, no_false_alarm rfl hrun (by decide) (by decide) (by decide) ""⟩

/-- The condition is needed: a read in flight that holds a stale sector, with everything up to
that sector below the watermark, ends the process when it is notified. -/
theorem stale_read_raises_alarm {s : IoState γ} {i k : ℕ} {transfer : Transfer} {now : AprTime}
    {caller : Caller} {events received : ℕ} {oldActive : UInt32} {blocking : Bool}
    (hpc : s.pc = .wait caller events received oldActive blocking) (hi : i ∈ s.device.inflight)
    (hnotifies : config.platform.notifies transfer = true)
    (hcallback : (s.queue.ioaqes i).callback = .readComplete)
    (hk : k < (s.queue.ioaqes i).request.sectors)
    (hbelow : ∀ j, j ≤ k →
      (s.queue.ioaqes i).request.sectorOff j < s.worker.lastIntegrityWrittenOffset)
    (hstale : ¬CarriesPattern config.writeRandom ((s.queue.ioaqes i).request.sectorOff k)
      (block 64 (s.queue.ioaqes i).request.buf k)) :
    ∃ output, step config G s (.reap i transfer now) =
      some (s.halt (.integrityError output)) := by
  obtain ⟨output, hread⟩ : ∃ output, readComplete config.writeRandom s.worker s.workload
      (s.queue.ioaqes i).request now = .error output :=
    readComplete_error_iff.mpr ⟨k, hk, hbelow, hstale⟩
  exact ⟨output, step_reap_error hpc hi hnotifies (genericQueueNotify_of_error hcallback hread)⟩

/-- The cumulative table of the mixed workload when 2 MiB is the only block size. -/
def staleProb : ℕ → UInt32 := fun i => if i = 12 then 4294967295 else 0

/-- The mixed workload reset for requests of 2 MiB. -/
def staleGenerator : GeneratorData := .mixed ⟨staleProb, staleProb, 12, 1, 0, 0, 0, 0⟩

/-- Linux without random writing. -/
def staleConfig : Config := ⟨false, .linux, 4096, true⟩

/-- A worker on an existing file of 2 MiB with a buffer for two requests of that size. -/
def staleInitial : IoState GeneratorData :=
  IoState.initial ⟨2097152, 4194304, 18446744073709551615, 18446744073709551615, 0,
    88172645463325252, false⟩ staleGenerator fun _ => 0

/-- The mixed workload on that worker with two parallel requests. -/
def staleLaunch : Launch GeneratorData :=
  ⟨staleGenerator, 2, 2097152, 18446744073709551615, 10, fun _ _ => 0, true, 0⟩

/-- The actions up to the point where a write and a read are in flight. -/
def staleStart : List (Action GeneratorData) :=
  [.launch staleLaunch, .iterate ⟨1, 1, 1⟩ true, .waitReturn true, .iterate ⟨2, 2, 2⟩ true]

/-- The device serves `n` sectors of the read, then `n` sectors of the write. -/
def staleEffects (n : ℕ) : List (Action GeneratorData) :=
  (List.range n).map (.effect 1) ++ (List.range n).map (.effect 0)

/-- The write completes before the read does. -/
def staleRun (n : ℕ) : List (Action GeneratorData) :=
  staleStart ++ (staleEffects n ++ [.reap 0 .full 3, .reap 1 .full 4])

/-- The first draw of the mixed workload is a write of the whole file. -/
theorem staleGenerator_write : workloads.fillRequest staleGenerator 2097152 88172645463325252 =
    some (staleGenerator, 8748534153485358512, ⟨0, 2097152, true⟩) := by
  have hseed : randomUint64T 88172645463325252 = 8748534153485358512 := by decide
  simp only [workloads, staleGenerator, mixedFillRequest, hseed]
  rfl

/-- The second draw is a read of the whole file. -/
theorem staleGenerator_read : workloads.fillRequest staleGenerator 2097152 8748534153485358512 =
    some (staleGenerator, 3040900993826735515, ⟨0, 2097152, false⟩) := by
  have hseed : randomUint64T 8748534153485358512 = 3040900993826735515 := by decide
  simp only [workloads, staleGenerator, mixedFillRequest, hseed]
  rfl

/-- The write is in flight. -/
def staleWrite : IoState GeneratorData :=
  (staleInitial.launch staleConfig staleLaunch).submit staleConfig 0 [1] staleGenerator
    8748534153485358512 ⟨0, 2097152, true⟩ ⟨1, 1, 1⟩ true

/-- The write and the read are in flight. -/
def staleBoth : IoState GeneratorData :=
  ({ staleWrite with pc := .head }).submit staleConfig 1 [] staleGenerator
    3040900993826735515 ⟨0, 2097152, false⟩ ⟨2, 2, 2⟩ true

theorem staleWrite_fill : workloads.fillRequest staleGenerator 2097152
    staleWrite.worker.randomSeed =
      some (staleGenerator, 3040900993826735515, ⟨0, 2097152, false⟩) := by
  have hseed : staleWrite.worker.randomSeed = 8748534153485358512 :=
    prepareEntry_seed _ _ _ _ _ _ rfl
  rw [hseed]
  exact staleGenerator_read

/-- Both requests are submitted, and they are aligned. -/
theorem staleBoth_reached : exec (step staleConfig workloads) staleInitial staleStart =
      some staleBoth ∧
    Along (step staleConfig workloads) (AlignedRequests workloads) staleInitial staleStart := by
  have hwrite : step staleConfig workloads (staleInitial.launch staleConfig staleLaunch)
      (.iterate ⟨1, 1, 1⟩ true) = some staleWrite :=
    step_submit rfl (by decide) rfl (by decide) staleGenerator_write fun _ => rfl
  have hread : step staleConfig workloads { staleWrite with pc := .head }
      (.iterate ⟨2, 2, 2⟩ true) = some staleBoth :=
    step_submit rfl (by decide) rfl (by decide) staleWrite_fill fun _ => rfl
  constructor
  · exact exec_cons_eq_some.mpr ⟨_, rfl, exec_cons_eq_some.mpr ⟨_, hwrite,
      exec_cons_eq_some.mpr ⟨_, rfl, exec_cons_eq_some.mpr ⟨_, hread, rfl⟩⟩⟩⟩
  · refine (along_cons rfl).mpr ⟨trivial, (along_cons hwrite).mpr ⟨?_, (along_cons rfl).mpr
      ⟨trivial, (along_cons hread).mpr ⟨?_, trivial⟩⟩⟩⟩
    · intro data seed target hfill
      cases staleGenerator_write.symm.trans hfill
      exact ⟨by decide, by decide⟩
    · intro data seed target hfill
      cases staleWrite_fill.symm.trans hfill
      exact ⟨by decide, by decide⟩

/-- The state after the effects: the read has fetched the old content of the file. -/
def staleServed (n : ℕ) : IoState GeneratorData := (staleBoth.effects 1 n).effects 0 n

theorem staleServed_eq (n : ℕ) : staleServed n = { staleBoth with
    queue := staleBoth.queue.setRequest 1
      (fetchSectors staleBoth.device.disk (staleBoth.queue.ioaqes 1).request n)
    device := ({ staleBoth.device.serveFirst 1 n with
      disk := storeSectors staleBoth.device.disk (staleBoth.queue.ioaqes 0).request n
        }).serveFirst 0 n } := by
  have hread := effects_of_read (s := staleBoth) (i := 1) n rfl
  have hentry : (staleBoth.effects 1 n).queue.ioaqes 0 = staleBoth.queue.ioaqes 0 := by
    rw [hread]
    exact AsyncQueue.setRequest_of_ne _ _ _ (by decide)
  have hwrite : ((staleBoth.effects 1 n).queue.ioaqes 0).request.write = true := by
    rw [hentry]
    rfl
  rw [staleServed, effects_of_write n hwrite, hentry, hread]
  rfl

theorem staleServed_reached {n : ℕ} (hn : n ≤ 4096) :
    exec (step staleConfig workloads) staleBoth (staleEffects n) = some (staleServed n) := by
  have hsectors : ∀ i, i = 0 ∨ i = 1 → (staleBoth.queue.ioaqes i).request.sectors = 4096 := by
    rintro i (rfl | rfl) <;> decide
  have hread := effects_of_read (s := staleBoth) (i := 1) n rfl
  refine exec_append.mpr ⟨staleBoth.effects 1 n, ?_, ?_⟩
  · refine exec_effects (by decide) ?_ fun k => rfl
    rw [hsectors 1 (Or.inr rfl)]
    exact hn
  · apply exec_effects
    · rw [hread]
      exact List.mem_cons_self
    · rw [hread]
      show n ≤ (staleBoth.queue.ioaqes 0).request.sectors
      rw [hsectors 0 (Or.inl rfl)]
      exact hn
    · intro k
      rw [hread]
      rfl

/-- After the effects everything has been served. -/
theorem staleServed_served {n i k : ℕ} (hi : i = 0 ∨ i = 1) (hk : k < n) :
    (staleServed n).device.served i k = true := by
  rw [staleServed_eq]
  rcases hi with rfl | rfl <;> simp [Device.serveFirst, hk]

/-- The read in flight after the effects. -/
theorem staleServed_read (n : ℕ) : ∃ buf, (staleServed n).queue.ioaqes 1 =
    ⟨(staleBoth.queue.ioaqes 1).request.setBuf buf, .readComplete⟩ ∧
    ∀ k, k < n → ∀ w, w < 64 → block 64 buf k w = 0 := by
  obtain ⟨buf, hfetch, hblock⟩ :=
    fetchSectors_spec staleBoth.device.disk (staleBoth.queue.ioaqes 1).request n
  refine ⟨buf, ?_, fun k hk w hw => hblock k hk w hw⟩
  rw [staleServed_eq, hfetch]
  rfl

/-- The completion of the write moves the watermark over the sectors of the read. -/
theorem staleWritten_reached (n : ℕ) :
    ∃ u, step staleConfig workloads (staleServed n) (.reap 0 .full 3) = some u ∧
      u.pc = .wait .ioworker 0 0 2 true ∧ u.device.inflight = [1] ∧
      u.worker.lastIntegrityWrittenOffset = 2097152 ∧
      u.queue.ioaqes 1 = (staleServed n).queue.ioaqes 1 ∧
      u.device.served = (staleServed n).device.served := by
  rw [staleServed_eq]
  refine ⟨_, step_reap rfl List.mem_cons_self rfl (genericQueueNotify_of_write rfl), rfl, rfl, ?_,
    rfl, rfl⟩
  show (staleBoth.worker.advance (staleBoth.queue.ioaqes 0).request).lastIntegrityWrittenOffset = _
  decide

/-- **A false alarm.** On Linux without random writing, the mixed workload on a file of 2 MiB writes
the file and reads it at the same time. The read is served before the write, the write completes
first, and the read raises an integrity error although the device has made no mistake. -/
theorem false_alarm_stale_read :
    (Factory.mixed staleProb staleProb).reset 2097152 2097152 = some staleGenerator ∧
    ∃ t output, exec (step staleConfig workloads) staleInitial (staleRun 4096) = some t ∧
      Along (step staleConfig workloads) CorrectDevice staleInitial (staleRun 4096) ∧
      Along (step staleConfig workloads) (AlignedRequests workloads) staleInitial
        (staleRun 4096) ∧
      t.pc = .halted (.integrityError output) := by
  refine ⟨rfl, ?_⟩
  obtain ⟨n, hn⟩ : ∃ n, n = 4096 := ⟨_, rfl⟩
  rw [← hn]
  obtain ⟨u, hstep, hpc, hinflight, hwatermark, hentry, hserved⟩ := staleWritten_reached n
  obtain ⟨buf, hread, hzero⟩ := staleServed_read n
  have hsectors : ((staleServed n).queue.ioaqes 1).request.sectors = n := by
    rw [hread, hn]
    show (staleBoth.queue.ioaqes 1).request.sectors = 4096
    decide
  obtain ⟨output, hhalt⟩ : ∃ output, step staleConfig workloads u (.reap 1 .full 4) =
      some (u.halt (.integrityError output)) := by
    apply stale_read_raises_alarm hpc (k := 0) (by rw [hinflight]; exact List.mem_cons_self) rfl
    · rw [hentry, hread]
    · rw [hentry, hsectors]
      omega
    · intro j hj
      obtain rfl : j = 0 := by omega
      rw [hentry, hread, hwatermark]
      show (staleBoth.queue.ioaqes 1).request.sectorOff 0 < 2097152
      decide
    · intro hcarries
      rw [hentry, hread] at hcarries
      have hword : block 64 buf 0 1 = nonrandomConstant :=
        hcarries.constant rfl 1 (by decide) (by decide)
      rw [hzero 0 (by omega) 1 (by decide)] at hword
      exact absurd hword (by decide)
  have heffects : ∀ a ∈ staleEffects n, ∃ i k, a = .effect i k := by
    intro a ha
    simp only [staleEffects, List.mem_append, List.mem_map] at ha
    rcases ha with ⟨k, _, rfl⟩ | ⟨k, _, rfl⟩
    · exact ⟨1, k, rfl⟩
    · exact ⟨0, k, rfl⟩
  have hreached := staleServed_reached (Nat.le_of_eq hn)
  refine ⟨u.halt (.integrityError output), output, ?_, ?_, ?_, rfl⟩
  · exact exec_append.mpr ⟨staleBoth, staleBoth_reached.1, exec_append.mpr ⟨staleServed n,
      hreached, exec_cons_eq_some.mpr ⟨u, hstep, exec_cons_eq_some.mpr ⟨_, hhalt, rfl⟩⟩⟩⟩
  · rw [staleRun, along_append staleBoth_reached.1, along_append hreached]
    refine ⟨⟨trivial, fun _ _ => ⟨trivial, fun _ _ => ⟨trivial, fun _ _ =>
      ⟨trivial, fun _ _ => trivial⟩⟩⟩⟩, along_of_forall fun a ha s => ?_, ?_⟩
    · obtain ⟨i, k, rfl⟩ := heffects a ha
      trivial
    · refine (along_cons hstep).mpr ⟨⟨rfl, fun k hk => ?_⟩, (along_cons hhalt).mpr
        ⟨⟨rfl, fun k hk => ?_⟩, trivial⟩⟩
      · have hwrite : ((staleServed n).queue.ioaqes 0).request.sectors = 4096 := by
          rw [staleServed_eq]
          show (staleBoth.queue.ioaqes 0).request.sectors = 4096
          decide
        exact staleServed_served (Or.inl rfl) (by omega)
      · rw [hentry, hsectors] at hk
        rw [hserved]
        exact staleServed_served (Or.inr rfl) hk
  · rw [staleRun, along_append staleBoth_reached.1, along_append hreached]
    refine ⟨staleBoth_reached.2, along_of_forall fun a ha s => ?_,
      ⟨trivial, fun _ _ => ⟨trivial, fun _ _ => trivial⟩⟩⟩
    obtain ⟨i, k, rfl⟩ := heffects a ha
    trivial

end DiskBench
