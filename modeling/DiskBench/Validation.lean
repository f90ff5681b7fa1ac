import DiskBench.Preparation

/-!
# Validation of existing files

With `-v` the preparation reads the existing files. It runs before anything has been written, when
the watermark is still 0, so no sector that it reads is ever compared with the pattern.
-/

namespace DiskBench

open Transition Coverage Acknowledgement

variable {config : Config}

/-- What a sequential workload has in flight or has transferred lies inside the file. -/
structure InBounds (write : Bool) (size : UInt64) (s : IoState GeneratorData) : Prop where
  generator : ∃ data, s.generator = .sequential data ∧ data.InFile size
  filesize : s.worker.filesize = size
  inflight : ∀ i ∈ s.device.inflight,
    (s.queue.ioaqes i).request.range.1 + (s.queue.ioaqes i).request.range.2 ≤ size.toNat
  transferred : ∀ range ∈ s.device.transferred write, range.1 + range.2 ≤ size.toNat

/-- A completion adds at most the range of its request. -/
theorem Device.mem_transferred_complete {device : Device} {i : ℕ} {request : IoRequest}
    {transfer : Transfer} {write : Bool} {range : ℕ × ℕ}
    (h : range ∈ (device.complete i request transfer).transferred write) :
    range ∈ device.transferred write ∨ range = request.range := by
  simp only [Device.transferred, Device.complete, List.filter_append, List.map_append,
    List.mem_append, List.mem_map, List.mem_filter, List.mem_singleton] at h ⊢
  rcases h with h | ⟨c, ⟨rfl, _⟩, rfl⟩
  · exact Or.inl h
  · exact Or.inr rfl

theorem InBounds.start {write : Bool} {size : UInt64} {s : IoState GeneratorData}
    {l : Launch GeneratorData} {queue : AsyncQueue} {data : SequentialData}
    (hgenerator : l.generator = .sequential data) (hdata : data.InFile size)
    (hfilesize : l.filesize = size) : InBounds write size (s.start l queue) :=
  ⟨⟨data, hgenerator, hdata⟩, hfilesize, fun _ hi => absurd hi List.not_mem_nil,
    fun _ hrange => absurd hrange List.not_mem_nil⟩

/-- Every step of a workload stays inside the file. -/
theorem InBounds.of_step {write : Bool} {size : UInt64} {s t : IoState GeneratorData}
    {a : Action GeneratorData} (hsize : size.toNat < 2 ^ 63) (h : InBounds write size s)
    (hduring : DuringWorkload config s a) (hstep : step config workloads s a = some t) :
    InBounds write size t := by
  have hfilesize := (step_keeps hduring.2 hstep).1.filesize.trans h.filesize
  cases step_next hstep with
  | start l queue hpc hcreate => exact absurd rfl (hduring.2 l)
  | startFails l reason hreason => exact absurd rfl (hduring.2 l)
  | timeout clock accepted hpc htime => exact { h with }
  | sentinel clock accepted hpc hready => exact { h with }
  | stop clock accepted i rest hpc hready hlimit => exact { h with }
  | submitFails clock accepted reason hpc hreason => exact { h with }
  | submit clock accepted i rest data seed target hpc htime hready hlimit hfill hassert =>
    obtain rfl : accepted = true := hduring.1
    obtain ⟨d, hgenerator, hd⟩ := h.generator
    rw [hgenerator, workloads_sequential, h.filesize, Option.some.injEq, Prod.mk.injEq,
      Prod.mk.injEq] at hfill
    obtain ⟨rfl, rfl, rfl⟩ := hfill
    obtain ⟨hdata, hinside⟩ := hd.fill hsize
    refine ⟨⟨_, rfl, hdata⟩, hfilesize, fun j hj => ?_, h.transferred⟩
    by_cases hji : j = i
    · rw [hji, IoRequest.range, IoRequest.off, submit_entry_self.2.1, submit_entry_self.2.2.1]
      exact hinside.range_le
    · have hmem : j ∈ s.device.inflight ++ [i] := hj
      rw [List.mem_append, List.mem_singleton] at hmem
      rw [submit_entry_of_ne hji]
      exact h.inflight j (hmem.resolve_right hji)
  | effect i k hi hk =>
    refine ⟨?_, hfilesize, fun j hj => ?_, ?_⟩
    · rw [effect_generator]
      exact h.generator
    · rw [effect_inflight] at hj
      obtain ⟨buf, hentry⟩ := effect_entry s i k j
      rw [hentry]
      exact h.inflight j hj
    · rw [Device.transferred, effect_completions]
      exact h.transferred
  | notify i transfer now caller events received oldActive block worker workload queue hpc hi
      hnotifies hnotify =>
    obtain ⟨rfl, _⟩ := genericQueueNotify_ok hnotify
    refine ⟨h.generator, hfilesize, fun j hj => ?_, fun range hrange => ?_⟩
    · obtain ⟨now', hentry⟩ := notified_entry s.queue i now j
      dsimp only
      rw [hentry]
      exact h.inflight j (List.mem_of_mem_erase hj)
    · rcases Device.mem_transferred_complete hrange with hold | rfl
      · exact h.transferred range hold
      · exact h.inflight i hi
  | notifyFails i transfer now reason hi hnotify => exact { h with }
  | drop i transfer now caller events received oldActive block hpc hi hnotifies =>
    exact { h with inflight := fun j hj => h.inflight j (List.mem_of_mem_erase hj) }
  | waitReturn ok caller events received oldActive block hpc hok => exact { h with }
  | finish now hpc => exact { h with }

/-- A sequential workload in one direction raises no alarm. -/
theorem OneWay.no_alarm {write : Bool} {s t : IoState GeneratorData} {output : String}
    (h : OneWay write s) (hpc : s.pc ≠ .halted (.integrityError output))
    (ht : Reaches (step config workloads) (FaultFree config) s t) :
    t.pc ≠ .halted (.integrityError output) := by
  have hinv : OneWay write t ∧ t.pc ≠ .halted (.integrityError output) := by
    apply ht.invariant
      (I := fun s => OneWay write s ∧ s.pc ≠ .halted (.integrityError output)) _ ⟨h, hpc⟩
    intro s a t hs hP hstep
    refine ⟨hs.1.of_step hP.1 hstep, fun halarm => ?_⟩
    obtain ⟨i, transfer, now, rfl, hi, hnotify⟩ := step_alarm hs.2 hstep halarm
    obtain ⟨worker, workload, queue, hok⟩ := @OneWay.notify_ok config _ _ _ hs.1 hi now
    rw [hok] at hnotify
    cases hnotify
  exact hinv.2

/-- Every sector of an existing file is read in some run of its validation that comes to an end. -/
theorem exists_read {s : IoState GeneratorData} {l : Launch GeneratorData} {queue : AsyncQueue}
    {size reqsize : UInt64} {b : ℕ} (hunwritten : s.worker.lastIntegrityWrittenOffset = 0)
    (hcreate : genericQueueCreate config s.worker l.queueDepth l.memory = .ok queue)
    (hgenerator : l.generator = .sequential (sequentialReset (sequentialFactory false) reqsize))
    (hdepth : l.queueDepth = 2) (hfilesize : l.filesize = size) (hiolimit : l.iolimit = size)
    (hwhole : reqsize.toNat ∣ size.toNat) (hb : b < size.toNat) :
    ∃ t, Reaches (step config workloads) (FaultFree config) (s.start l queue) t ∧ t.pc = .done ∧
      Covers (t.device.transferred false) b := by
  have hpos : 1 ≤ l.queueDepth := by rw [hdepth]; decide
  have hr : 0 < reqsize.toNat :=
    Nat.pos_of_dvd_of_pos hwhole (Nat.lt_of_le_of_lt (Nat.zero_le b) hb)
  obtain ⟨m, hm⟩ : ∃ m, m = b / reqsize.toNat + 1 := ⟨_, rfl⟩
  -- The requests up to the one that reads byte `b` fit into the file.
  have hroom : m * reqsize.toNat ≤ size.toNat := by
    obtain ⟨n, hn⟩ := hwhole
    have hlt : b / reqsize.toNat < n := by
      rw [Nat.div_lt_iff_lt_mul hr, Nat.mul_comm, ← hn]
      exact hb
    calc m * reqsize.toNat ≤ n * reqsize.toNat := Nat.mul_le_mul_right _ (by omega)
      _ = size.toNat := by rw [hn, Nat.mul_comm]
  have honeWay : OneWay false (s.start l queue) := OneWay.start hgenerator rfl fun _ => hunwritten
  have hlimit : m * reqsize.toNat ≤ (s.start l queue).worker.iolimit.toNat := by
    show _ ≤ l.iolimit.toNat
    rw [hiolimit]
    exact hroom
  obtain ⟨u, hu, hresting, _⟩ := (Resting.start hpos hcreate honeWay ⟨_, hgenerator, rfl⟩).exec
    OneWay.completable m (fun _ _ => sequential_produces reqsize) hlimit
  obtain ⟨t, ht, hpc, hkept⟩ :=
    reaches_done OneWay.completable hresting.slots hresting.inv hresting.pc
  have hreaches : Reaches (step config workloads) (FaultFree config) (s.start l queue) t :=
    hu.trans ht
  obtain ⟨as, hrun, halong⟩ := hreaches
  have hsettings := IoWorker.SameSettings.of_exec hrun (halong.mono fun _ _ h => h.1)
  have hlength : t.device.submissions.length = m := by rw [hkept.submissions, hresting.submissions]
  have hunwrapped : Unwrapped reqsize t := by
    rw [Unwrapped, hsettings.filesize, hlength]
    show _ ≤ l.filesize.toNat
    rw [hfilesize]
    exact hroom
  obtain ⟨ops, w, num, _, hw, _⟩ := (Tracks.start hpos hcreate hgenerator hunwritten).of_exec hrun
    (halong.mono fun _ _ h => h.successful) hunwrapped
  refine ⟨t, ⟨as, hrun, halong⟩, hpc, ?_⟩
  rw [hw.covers_iff hr (Or.inr hpc), hlength]
  omega

/-- **Validation of existing files.** For an existing file of whole requests, no run of the
preparation with `-v` reports an integrity error. So a run that comes to an end has read nothing
but sectors that carry the pattern, whichever run it is, if and only if all sectors of the file
carry it already. -/
theorem validation_iff {bufsize filesize iolimit size reqsize : UInt64} {time : AprTime}
    {memory : ℕ → Memory} {now : AprTime} {l : Launch GeneratorData} {disk : Memory}
    (hsize : size.toNat < 2 ^ 63) (hpos : 0 < size.toNat) (hwhole : reqsize.toNat ∣ size.toNat)
    (hlaunch : preparation config true
      (openWorker (createWorker bufsize filesize iolimit) size false) reqsize time memory now =
        some l) :
    (∀ t output, Reaches (step config workloads) (FaultFree config) (preparing config
        (openWorker (createWorker bufsize filesize iolimit) size false) disk l) t →
      t.pc ≠ .halted (.integrityError output)) ∧
    ((∀ t, Reaches (step config workloads) (FaultFree config) (preparing config
        (openWorker (createWorker bufsize filesize iolimit) size false) disk l) t →
      t.pc = .done → ∀ n, Covers (t.device.transferred false) (512 * n) →
        SectorCarries config.writeRandom disk n) ↔
      ∀ n, 512 * n < size.toNat → SectorCarries config.writeRandom disk n) := by
  obtain ⟨hgenerator, hdepth, hfilesize, hiolimit, _, _⟩ := preparation_spec hlaunch
  obtain ⟨s, hs, hcase⟩ := @preparation_launch _ _ _ _ _ _ _ _ disk hlaunch
  have hunwritten : s.worker.lastIntegrityWrittenOffset = 0 := by rw [hs]; rfl
  obtain ⟨queue, hcreate, heq⟩ | ⟨rfl, _⟩ := hcase
  · rw [heq]
    have honeWay : OneWay false (s.start l queue) := OneWay.start hgenerator rfl fun _ => hunwritten
    refine ⟨fun t output ht => honeWay.no_alarm (fun hpc => by cases hpc) ht, ?_, ?_⟩
    · intro hvalid n hn
      obtain ⟨t, ht, hpc, hread⟩ :=
        exists_read hunwritten hcreate hgenerator hdepth hfilesize hiolimit hwhole hn
      exact hvalid t ht hpc n hread
    · intro hcarries t ht _ n hread
      have hreqsize : 1 ≤ reqsize.toNat := Nat.pos_of_dvd_of_pos hwhole hpos
      have hbounds : InBounds false size t :=
        ht.invariant (fun _ _ _ h hP hstep => h.of_step hsize hP.1 hstep)
          (InBounds.start hgenerator (sequentialReset_inFile hreqsize (Nat.le_of_dvd hpos hwhole))
            hfilesize)
      obtain ⟨range, hrange, _, hlt⟩ := hread
      exact hcarries n (Nat.lt_of_lt_of_le hlt (hbounds.transferred range hrange))
  · have hzero : size.toNat = 0 := Nat.eq_zero_of_zero_dvd hwhole
    omega

/-- A default configuration on Linux. -/
def validationConfig : Config := ⟨true, .linux, 4096, true⟩

/-- The worker of an existing file of 4096 bytes, with a buffer of two pages. -/
def validationWorker : IoWorker :=
  openWorker (createWorker 8192 4096 18446744073709551615) 4096 false

/-- The thread of that worker is started for requests of 4096 bytes. -/
def validationLaunch : Launch GeneratorData :=
  ⟨.sequential ⟨false, 0, 4096⟩, 2, 4096, 4096, 300000000, fun _ _ => 0, true, 0⟩

/-- The first word of the file, like all others, is 1. -/
def validationDisk : Memory := fun _ => 1

/-- The file is read by one request, and then the time is over. -/
def validationRun : List (Action GeneratorData) :=
  .iterate ⟨1, 1, 1⟩ true :: (List.range 8).map (.effect 0) ++
    [.reap 0 .full 2, .waitReturn true, .iterate ⟨300000001, 0, 0⟩ true, .finish 300000002]

theorem validationRun_faultFree : Along (step validationConfig workloads)
    (FaultFree validationConfig)
    (preparing validationConfig validationWorker validationDisk validationLaunch)
    validationRun := by
  decide

/-- A file that does not carry the pattern in its first sector passes the validation. -/
theorem bad_file_passes : preparation validationConfig true validationWorker 4096 300000000
      (fun _ _ => 0) 0 = some validationLaunch ∧
    ¬SectorCarries true validationDisk 0 ∧
    ∃ t, exec (step validationConfig workloads)
        (preparing validationConfig validationWorker validationDisk validationLaunch)
        validationRun = some t ∧
      Along (step validationConfig workloads) (FaultFree validationConfig)
        (preparing validationConfig validationWorker validationDisk validationLaunch)
        validationRun ∧
      t.pc = .done ∧ Covers (t.device.transferred false) (512 * 0) := by
  have hrun : exec (step validationConfig workloads)
      (preparing validationConfig validationWorker validationDisk validationLaunch)
      validationRun = some _ := rfl
  refine ⟨rfl, ?_, _, hrun, validationRun_faultFree, rfl, ?_⟩
  · intro hcarries
    exact absurd hcarries.first (by decide)
  · exact ⟨(0, 4096), List.mem_cons_self, by decide, by decide⟩

/-- The validation of that file reports nothing. -/
theorem validation_silent : ∃ t, exec (step validationConfig workloads)
      (preparing validationConfig validationWorker validationDisk validationLaunch)
      validationRun = some t ∧ ∀ output, t.pc ≠ .halted (.integrityError output) := by
  have hrun : exec (step validationConfig workloads)
      (preparing validationConfig validationWorker validationDisk validationLaunch)
      validationRun = some _ := rfl
  have hlaunch : preparation validationConfig true validationWorker 4096 300000000
      (fun _ _ => 0) 0 = some validationLaunch := rfl
  exact ⟨_, hrun, fun output => (validation_iff (by decide) (by decide) (by decide) hlaunch).1 _
    output ⟨validationRun, hrun, validationRun_faultFree⟩⟩

end DiskBench
