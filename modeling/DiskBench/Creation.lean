import DiskBench.Preparation

/-!
# File creation

A file that has been truncated at open is written by a sequential workload of depth 2 whose limit
is the size of the file, and then it gets the size that the byte counter says. The limit test does
not look at the sizes of the first two requests, so this is right exactly for files that hold two
requests.
-/

namespace DiskBench

open Transition Coverage Acknowledgement

variable {config : Config}

/-- After a write workload every byte submitted has been counted as written. -/
theorem write_bytes_eq {s : IoState GeneratorData} (hslots : SlotInv s) (honeWay : OneWay true s)
    (hpc : s.pc = .done) : s.workload.write.bytes = s.workload.submittedBytes := by
  have hbytes := hslots.bytes
  rw [IoState.pendingBytes, hslots.inflight_nil (Or.inr hpc), honeWay.counted rfl] at hbytes
  simpa using hbytes

/-- A file has been created as it should be: it is not larger than the size chosen at open, and
every byte of it has been written. -/
structure Created (size : UInt64) (s : IoState GeneratorData) : Prop where
  size_le : (finishPreparation s.worker s.workload).filesize ≤ size
  covered : ∀ b, b < (finishPreparation s.worker s.workload).filesize.toNat →
    Covers (s.device.transferred true) b

/-- The size of a created file is what the byte counter says. -/
theorem finishPreparation_filesize {s t : IoState GeneratorData}
    (hsettings : s.worker.SameSettings t.worker) (htruncate : s.worker.truncateFile = true) :
    (finishPreparation t.worker t.workload).filesize = t.workload.write.bytes := by
  unfold finishPreparation
  rw [hsettings.truncateFile, htruncate, if_pos rfl]

/-- A workload with room for two requests creates the file as it should be. -/
theorem created_of_two_mul_le {s t : IoState GeneratorData} {l : Launch GeneratorData}
    {queue : AsyncQueue} {size reqsize : UInt64} {as : List (Action GeneratorData)}
    (htruncate : s.worker.truncateFile = true)
    (hunwritten : s.worker.lastIntegrityWrittenOffset = 0)
    (hcreate : genericQueueCreate config s.worker l.queueDepth l.memory = .ok queue)
    (hgenerator : l.generator = .sequential (sequentialReset (sequentialFactory true) reqsize))
    (hdepth : l.queueDepth = 2) (hfilesize : l.filesize = size) (hiolimit : l.iolimit = size)
    (hnowrap : size.toNat + reqsize.toNat < 2 ^ 64) (hroom : 2 * reqsize.toNat ≤ size.toNat)
    (hrun : exec (step config workloads) (s.start l queue) as = some t)
    (hsuccess : Along (step config workloads) (SuccessfulWorkload config) (s.start l queue) as)
    (hpc : t.pc = .done) : Created size t := by
  have hduring := hsuccess.mono fun _ _ h => h.1
  have hsettings := IoWorker.SameSettings.of_exec hrun hduring
  have hpos : 1 ≤ l.queueDepth := by rw [hdepth]; decide
  have htwo : l.queueDepth.toInt.toNat = 2 := by rw [hdepth]; decide
  have hroom' : ∀ m ≤ l.queueDepth.toInt.toNat, UInt64.ofNat m * reqsize ≤ l.iolimit := by
    rw [htwo, hiolimit, forall_ofNat_mul_le_iff (by omega)]
    exact hroom
  have hslots : SlotInv t :=
    (SlotInv.start hpos hcreate).of_exec hrun (hduring.mono fun _ _ h => h.1)
  have hsizes := (OneSize.start ⟨_, hgenerator, rfl⟩ hroom' hcreate).of_exec
    (sequential_produces reqsize).draws hrun hduring
  have hnowrap' : t.device.submissions.length * reqsize.toNat < 2 ^ 64 := by
    apply hsizes.nowrap
    rw [hsettings.iolimit]
    show l.iolimit.toNat + _ < _
    rw [hiolimit]
    exact hnowrap
  have hle : t.device.submissions.length * reqsize.toNat ≤ size.toNat := by
    have hwithin := UInt64.le_iff_toNat_le.mp hsizes.within
    rw [hsizes.submitted, toNat_ofNat_mul hnowrap', hsettings.iolimit] at hwithin
    exact hiolimit ▸ hwithin
  have hunwrapped : Unwrapped reqsize t := by
    rw [Unwrapped, hsettings.filesize]
    show _ ≤ l.filesize.toNat
    rw [hfilesize]
    exact hle
  obtain ⟨ops, w, num, _, hw, _⟩ :=
    (Tracks.start hpos hcreate hgenerator hunwritten).of_exec hrun hsuccess hunwrapped
  have hsize : (finishPreparation t.worker t.workload).filesize.toNat =
      w.issued * reqsize.toNat := by
    rw [finishPreparation_filesize hsettings htruncate, write_bytes_eq hslots hw.oneWay hpc,
      hsizes.submitted, toNat_ofNat_mul hnowrap', hw.issued]
  constructor
  · rw [UInt64.le_iff_toNat_le, hsize, ← hw.issued]
    exact hle
  · intro b hb
    rw [hsize] at hb
    have hr : 0 < reqsize.toNat := by
      by_contra hzero
      rw [Nat.eq_zero_of_not_pos hzero, Nat.mul_zero] at hb
      exact Nat.not_lt_zero b hb
    rw [hw.covers_iff hr (Or.inr hpc), hw.issued]
    exact (Nat.div_lt_iff_lt_mul hr).mpr hb

/-- Without that room, some run writes more bytes than the file should have. -/
theorem exists_not_created {s : IoState GeneratorData} {l : Launch GeneratorData}
    {queue : AsyncQueue} {size reqsize : UInt64} (htruncate : s.worker.truncateFile = true)
    (hcreate : genericQueueCreate config s.worker l.queueDepth l.memory = .ok queue)
    (hgenerator : l.generator = .sequential (sequentialReset (sequentialFactory true) reqsize))
    (hdepth : l.queueDepth = 2) (hiolimit : l.iolimit = size)
    (hnowrap : size.toNat + reqsize.toNat < 2 ^ 64) (hroom : size.toNat < 2 * reqsize.toNat) :
    ∃ t, Reaches (step config workloads) (SuccessfulWorkload config) (s.start l queue) t ∧
      t.pc = .done ∧ ¬Created size t := by
  have hpos : 1 ≤ l.queueDepth := by rw [hdepth]; decide
  have htwo : l.queueDepth.toInt.toNat = 2 := by rw [hdepth]; decide
  obtain ⟨m, hm⟩ : ∃ m, m = size.toNat / reqsize.toNat := ⟨_, rfl⟩
  have hr : 0 < reqsize.toNat := by omega
  have hle : m * reqsize.toNat ≤ size.toNat := hm ▸ Nat.div_mul_le_self _ _
  have hgt : size.toNat < (m + 1) * reqsize.toNat := by
    rw [hm, Nat.mul_comm]
    exact Nat.lt_mul_div_succ _ hr
  have hmd : m < 2 := by
    rw [hm]
    exact (Nat.div_lt_iff_lt_mul hr).mpr hroom
  have hnext : (m + 1) * reqsize.toNat < 2 ^ 64 := by
    rw [Nat.succ_mul]
    omega
  -- The requests up to the one that exceeds the size are all submitted from fresh entries.
  have hstarted := Started.start (r := reqsize) (P := fun data => ∃ d : SequentialData,
    data = .sequential d ∧ d.reqSize = reqsize) ⟨_, hgenerator, rfl⟩ hpos hcreate
  rw [htwo] at hstarted
  have hroom' : ∀ n ≤ m, UInt64.ofNat n * reqsize ≤ (s.start l queue).worker.iolimit := by
    show ∀ n ≤ m, _ ≤ l.iolimit
    rw [hiolimit, forall_ofNat_mul_le_iff (Nat.lt_of_le_of_lt hle size.toNat_lt)]
    exact hle
  obtain ⟨u, hu, hustarted, _, hwithin⟩ :=
    hstarted.exec (sequential_produces reqsize) m hmd hroom'
  obtain ⟨v, hstep, hwait, _, hvsubmitted, _⟩ :=
    hustarted.next (sequential_produces reqsize) hmd hwithin
  have hv : Reaches (step config workloads) (SuccessfulWorkload config) (s.start l queue) v :=
    (hu.trans (.single hstep Submits.iterate)).mono fun s a h =>
      ⟨h.1, fun i transfer now ha => absurd ha (h.2 i transfer now)⟩
  -- Then the requests in flight complete, and the workload ends.
  have hvslots : SlotInv v :=
    hv.invariant (fun _ _ _ h hP hstep => h.of_step hP.1.1 hstep) (SlotInv.start hpos hcreate)
  have hvoneWay : OneWay true v :=
    hv.invariant (fun _ _ _ h hP hstep => h.of_step hP.1 hstep)
      (OneWay.start hgenerator rfl fun hread => by cases hread)
  obtain ⟨x, hx, hhead, _⟩ := reaches_resume OneWay.completable hvslots hvoneWay
    (WaitsFor.of_waitLoop hvslots hwait)
  obtain ⟨hxslots, hxoneWay⟩ := OneWay.completable.of_reaches hvslots hvoneWay hx
  obtain ⟨t, ht, hpc, hkept⟩ := reaches_done OneWay.completable hxslots hxoneWay hhead
  have hreaches : Reaches (step config workloads) (SuccessfulWorkload config) (s.start l queue) t :=
    hv.trans ((hx.mono fun _ _ h => h.1.successful).trans (ht.mono fun _ _ h => h.successful))
  have hslots : SlotInv t :=
    ht.invariant (fun _ _ _ h hP hstep => h.of_step hP.1.1 hstep) hxslots
  have honeWay : OneWay true t :=
    ht.invariant (fun _ _ _ h hP hstep => h.of_step hP.1 hstep) hxoneWay
  refine ⟨t, hreaches, hpc, fun hcreated => ?_⟩
  obtain ⟨as, hrun, halong⟩ := hreaches
  have hsettings := IoWorker.SameSettings.of_exec hrun (halong.mono fun _ _ h => h.1)
  have hsize := UInt64.le_iff_toNat_le.mp hcreated.size_le
  rw [finishPreparation_filesize hsettings htruncate, write_bytes_eq hslots honeWay hpc,
    hkept.submitted, (Kept.of_reaches hx).submitted, hvsubmitted, toNat_ofNat_mul hnext] at hsize
  exact absurd hsize (Nat.not_le.mpr hgt)

/-- **File creation.** For a file size that a file offset can address and an admitted request size,
every creation run leaves a file that is not larger than the size chosen at open and that has been
written everywhere, if and only if the file has room for two requests. -/
theorem file_creation_iff {validateExisting : Bool} {bufsize filesize iolimit size reqsize : UInt64}
    {time : AprTime} {memory : ℕ → Memory} {now : AprTime} {l : Launch GeneratorData}
    {disk : Memory} (hsize : size.toNat < 2 ^ 63)
    (hlaunch : preparation config validateExisting
      (openWorker (createWorker bufsize filesize iolimit) size true) reqsize time memory now =
        some l) :
    (∀ t, Reaches (step config workloads) (SuccessfulWorkload config) (preparing config
        (openWorker (createWorker bufsize filesize iolimit) size true) disk l) t →
      t.pc = .done → Created size t) ↔
    2 * reqsize.toNat ≤ size.toNat := by
  obtain ⟨hgenerator, hdepth, hfilesize, hiolimit, _, hadmits⟩ := preparation_spec hlaunch
  have htwo := admits_two_mul hadmits
  have hnowrap : size.toNat + reqsize.toNat < 2 ^ 64 := by omega
  obtain ⟨s, hs, hcase⟩ := @preparation_launch _ _ _ _ _ _ _ _ disk hlaunch
  have htruncate : s.worker.truncateFile = true := by rw [hs]; rfl
  have hunwritten : s.worker.lastIntegrityWrittenOffset = 0 := by rw [hs]; rfl
  obtain ⟨queue, hcreate, heq⟩ | ⟨rfl, reason, heq⟩ := hcase
  · rw [heq]
    constructor
    · intro hcreated
      by_contra hroom
      obtain ⟨t, ht, hpc, hnot⟩ := exists_not_created htruncate hcreate hgenerator hdepth hiolimit
        hnowrap (Nat.not_le.mp hroom)
      exact hnot (hcreated t ht hpc)
    · rintro hroom t ⟨as, hrun, hsuccess⟩ hpc
      exact created_of_two_mul_le htruncate hunwritten hcreate hgenerator hdepth hfilesize hiolimit
        hnowrap hroom hrun hsuccess hpc
  · have hinflight : s.device.inflight = [] := by rw [hs]; rfl
    rw [heq]
    refine ⟨fun _ => Nat.zero_le _, fun _ t ht hpc => ?_⟩
    rw [eq_of_reaches_halted (s := s.halt reason) rfl hinflight ht] at hpc
    cases hpc

/-- A default configuration on Linux. -/
def creationConfig : Config := ⟨true, .linux, 4096, true⟩

/-- The worker of a new file of the given size, with a buffer of two pages. -/
def creationWorker (size : UInt64) : IoWorker :=
  openWorker (createWorker 8192 size 18446744073709551615) size true

/-- The thread of that worker is started for requests of 4096 bytes. -/
def creationLaunch (size : UInt64) : Launch GeneratorData :=
  ⟨.sequential ⟨true, 0, 4096⟩, 2, size, size, 300000000, fun _ _ => 0, true, 0⟩

/-- Two requests are submitted and completed. -/
def creationRun : List (Action GeneratorData) :=
  [.iterate ⟨1, 1, 1⟩ true, .waitReturn true, .iterate ⟨2, 2, 2⟩ true, .reap 0 .full 3,
    .reap 1 .full 4, .waitReturn true, .iterate ⟨5, 5, 5⟩ true, .finish 6]

theorem creationRun_successful {size : UInt64} (h : size = 4096 ∨ size = 8192) :
    Along (step creationConfig workloads) (SuccessfulWorkload creationConfig)
      (preparing creationConfig (creationWorker size) (fun _ => 0) (creationLaunch size))
      creationRun := by
  rcases h with rfl | rfl <;> decide

/-- A file of one request is created with the size of two, and its second half is never
written. -/
theorem file_created_too_large : preparation creationConfig false (creationWorker 4096) 4096
      300000000 (fun _ _ => 0) 0 = some (creationLaunch 4096) ∧
    ∃ t, exec (step creationConfig workloads)
        (preparing creationConfig (creationWorker 4096) (fun _ => 0) (creationLaunch 4096))
        creationRun = some t ∧
      Along (step creationConfig workloads) (SuccessfulWorkload creationConfig)
        (preparing creationConfig (creationWorker 4096) (fun _ => 0) (creationLaunch 4096))
        creationRun ∧
      t.pc = .done ∧ (finishPreparation t.worker t.workload).filesize = 8192 ∧
      ¬Covers (t.device.transferred true) 4096 ∧ ¬Created 4096 t := by
  have hrun : exec (step creationConfig workloads)
      (preparing creationConfig (creationWorker 4096) (fun _ => 0) (creationLaunch 4096))
      creationRun = some _ := rfl
  have hsize : ¬(8192 : UInt64) ≤ 4096 := by decide
  refine ⟨rfl, _, hrun, creationRun_successful (Or.inl rfl), rfl, rfl, ?_, fun h => hsize h.size_le⟩
  rintro ⟨range, hrange, hle, hlt⟩
  -- Both requests were written to the start of the file.
  have hzero : ∀ range ∈ [((0 : ℕ), 4096), (0, 4096)], range.1 + range.2 ≤ 4096 := by decide
  exact absurd (hzero range hrange) (Nat.not_le.mpr hlt)

/-- A file of two requests is created as it should be. -/
theorem file_created_two_requests : ∃ t, exec (step creationConfig workloads)
      (preparing creationConfig (creationWorker 8192) (fun _ => 0) (creationLaunch 8192))
      creationRun = some t ∧ Created 8192 t := by
  have hrun : exec (step creationConfig workloads)
      (preparing creationConfig (creationWorker 8192) (fun _ => 0) (creationLaunch 8192))
      creationRun = some _ := rfl
  have hlaunch : preparation creationConfig false (creationWorker 8192) 4096 300000000
      (fun _ _ => 0) 0 = some (creationLaunch 8192) := rfl
  refine ⟨_, hrun, (file_creation_iff (by decide) hlaunch).mpr (by decide) _
    ⟨creationRun, hrun, creationRun_successful (Or.inr rfl)⟩ rfl⟩

end DiskBench
