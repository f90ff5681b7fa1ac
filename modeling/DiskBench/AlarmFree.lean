import DiskBench.Alignment
import DiskBench.Integrity
import DiskBench.Slots

/-!
# Tests without false alarms

A false alarm needs a read in flight beside a write. The sequential and the random workloads make
requests in one direction only, and a queue of depth 1 has one request in flight at most. So these
tests raise no alarm on a correct device, in whatever order their requests take effect and complete.
-/

namespace DiskBench

open Transition

variable {config : Config}

/-- All requests of the generator are in this direction. -/
def GeneratorData.Directed (write : Bool) (data : GeneratorData) : Prop :=
  match data with
  | .sequential data => data.write = write
  | .random data => data.write = write
  | .mixed _ => False

/-- A workload of a test that never has a read in flight beside a write: what `reset` prepares for
whole sectors, with a depth of 1 if the workload is the mixed one. -/
def SeparateLaunch (l : Launch GeneratorData) : Prop :=
  ∃ factory : Factory, ∃ reqsize : UInt64, factory.reset l.filesize reqsize = some l.generator ∧
    512 ∣ reqsize.toNat ∧
    (factory.IsMixed → 512 ∣ l.filesize.toNat ∧ l.queueDepth = 1)

/-- Whatever is launched keeps reads and writes apart. -/
def Separate (_ : IoState GeneratorData) : Action GeneratorData → Prop
  | .launch l => SeparateLaunch l
  | _ => True

/-- A call of `fill_request` keeps the direction, and the request has it. -/
theorem GeneratorData.Directed.fill {write : Bool} {data data' : GeneratorData}
    {filesize seed seed' : UInt64} {t : Target} (h : data.Directed write)
    (hfill : workloads.fillRequest data filesize seed = some (data', seed', t)) :
    data'.Directed write ∧ t.write = write := by
  cases data with
  | sequential data =>
    rw [workloads_sequential, sequentialFillRequest] at hfill
    dsimp only at hfill
    split at hfill <;> cases hfill <;> exact ⟨h, h⟩
  | random data =>
    simp only [workloads, randomFillRequest, Option.map_eq_some_iff] at hfill
    obtain ⟨⟨seed'', t'⟩, hrandom, heq⟩ := hfill
    cases heq
    split at hrandom
    · cases hrandom
    · cases hrandom
      exact ⟨h, h⟩
  | mixed data => exact h.elim

/-- A reset of a workload that is not mixed has a direction. -/
theorem Factory.reset_directed {factory : Factory} {filesize reqsize : UInt64}
    {data : GeneratorData} (hmixed : ¬factory.IsMixed)
    (hreset : factory.reset filesize reqsize = some data) : ∃ write, data.Directed write := by
  cases factory with
  | sequential write =>
    cases hreset
    exact ⟨write, rfl⟩
  | random write =>
    simp only [Factory.reset, randomReset, Option.map_eq_some_iff] at hreset
    obtain ⟨data, hdata, rfl⟩ := hreset
    split at hdata
    · cases hdata
    · cases hdata
      exact ⟨write, rfl⟩
  | mixed randomProb sequentialProb => exact absurd trivial hmixed

/-- After a reset for whole sectors all that the generator adds up is whole sectors. -/
theorem Factory.reset_sectors {factory : Factory} {filesize reqsize : UInt64}
    {data : GeneratorData} (hreqsize : 512 ∣ reqsize.toNat)
    (hfile : factory.IsMixed → 512 ∣ filesize.toNat)
    (hreset : factory.reset filesize reqsize = some data) : data.MultipleOf 512 filesize := by
  cases factory with
  | sequential write =>
    cases hreset
    exact ⟨Nat.dvd_zero _, hreqsize⟩
  | random write =>
    simp only [Factory.reset, randomReset, Option.map_eq_some_iff] at hreset
    obtain ⟨data, hdata, rfl⟩ := hreset
    split at hdata
    · cases hdata
    · cases hdata
      exact hreqsize
  | mixed randomProb sequentialProb =>
    simp only [Factory.reset, mixedReset, Option.map_eq_some_iff] at hreset
    obtain ⟨data, ⟨i, hmin, rfl⟩, rfl⟩ := hreset
    have hle := minBlocksizeLoop_le hmin
    refine ⟨⟨⟨by dsimp only; omega, rfl⟩, fun k _ hk => ?_, Nat.dvd_zero _, Nat.dvd_zero _,
      Nat.dvd_zero _, Nat.dvd_zero _⟩, hfile trivial⟩
    rw [blocksize_eq_pow hk]
    exact Nat.pow_dvd_pow 2 (Nat.le_add_right 9 k)

/-- A workload of which no read is in flight beside a write: it has a direction, or its queue has
one entry. -/
def IoState.KeepsApart (s : IoState GeneratorData) : Prop :=
  (∃ write, s.generator.Directed write ∧
      ∀ i ∈ s.device.inflight, (s.queue.ioaqes i).request.write = write) ∨
    s.queue.total.toNat = 1

/-- The invariant of a worker whose tests keep reads and writes apart. -/
structure AlarmFree (config : Config) (s : IoState GeneratorData) : Prop where
  slots : SlotInv s
  integrity : IntegrityInv config s
  running : s.pc = .idle ∨ (∃ reason, s.pc = .halted reason) ∨
    s.generator.MultipleOf 512 s.worker.filesize ∧ s.KeepsApart

/-- A write that completes has no read beside it. -/
theorem AlarmFree.noReadBeside {s : IoState GeneratorData} (h : AlarmFree config s)
    (hapart : s.KeepsApart) {i : ℕ} (hi : i ∈ s.device.inflight) (transfer : Transfer)
    (now : AprTime) : NoStaleRead config s (.reap i transfer now) := by
  intro hwrite j hj hread
  exfalso
  rcases hapart with ⟨write, _, hsame⟩ | htotal
  · rw [hsame i hi] at hwrite
    rw [hsame j hj, hwrite] at hread
    cases hread
  · have hadd := h.slots.conserved.add
    have hlength := h.slots.conserved.active_eq
    obtain ⟨k, hk⟩ := List.length_eq_one_iff.mp
      (by have := List.length_pos_of_mem hi; omega : s.device.inflight.length = 1)
    rw [hk, List.mem_singleton] at hi hj
    rw [hi, ← hj, hread] at hwrite
    cases hwrite

/-- A state whose generator goes on as before, with no new request in flight. -/
theorem IoState.KeepsApart.congr {s t : IoState GeneratorData} (h : s.KeepsApart)
    (hgenerator : t.generator = s.generator) (htotal : t.queue.total = s.queue.total)
    (hinflight : ∀ i ∈ t.device.inflight, i ∈ s.device.inflight ∧
      (t.queue.ioaqes i).request.write = (s.queue.ioaqes i).request.write) : t.KeepsApart := by
  rcases h with ⟨write, hdirected, hsame⟩ | hone
  · refine Or.inl ⟨write, hgenerator ▸ hdirected, fun i hi => ?_⟩
    obtain ⟨hmem, heq⟩ := hinflight i hi
    exact heq.trans (hsame i hmem)
  · exact Or.inr (htotal ▸ hone)

/-- What is launched keeps reads and writes apart. -/
theorem SeparateLaunch.start {s : IoState GeneratorData} {l : Launch GeneratorData}
    {queue : AsyncQueue} (h : SeparateLaunch l)
    (hcreate : genericQueueCreate config s.worker l.queueDepth l.memory = .ok queue) :
    (s.start l queue).generator.MultipleOf 512 (s.start l queue).worker.filesize ∧
      (s.start l queue).KeepsApart := by
  obtain ⟨factory, reqsize, hreset, hreqsize, hmixed⟩ := h
  refine ⟨Factory.reset_sectors hreqsize (fun hm => (hmixed hm).1) hreset, ?_⟩
  by_cases hm : factory.IsMixed
  · obtain ⟨bufsize, rfl⟩ := genericQueueCreate_ok hcreate
    refine Or.inr ?_
    show l.queueDepth.toUInt32.toNat = 1
    rw [(hmixed hm).2]
    rfl
  · obtain ⟨write, hdirected⟩ := Factory.reset_directed hm hreset
    exact Or.inl ⟨write, hdirected, fun i hi => absurd hi List.not_mem_nil⟩

/-- A submission has the direction of those before it. -/
theorem IoState.KeepsApart.submit {s : IoState GeneratorData} {i : ℕ} {rest : List ℕ}
    {data : GeneratorData} {seed : UInt64} {target : Target} {clock : Clock} {accepted : Bool}
    (h : s.KeepsApart) (hfill : workloads.fillRequest s.generator s.worker.filesize
      s.worker.randomSeed = some (data, seed, target)) (hnot : i ∉ s.device.inflight) :
    (s.submit config i rest data seed target clock accepted).KeepsApart := by
  rcases h with ⟨write, hdirected, hsame⟩ | hone
  · obtain ⟨hdata, htarget⟩ := hdirected.fill hfill
    refine Or.inl ⟨write, hdata, fun j hj => ?_⟩
    by_cases hji : j = i
    · subst hji
      rw [submit_entry_self.2.2.2, htarget]
    · rw [submit_entry_of_ne hji]
      cases accepted with
      | true =>
        have hmem : j ∈ s.device.inflight ++ [i] := hj
        exact hsame j (by simpa [hji] using hmem)
      | false => exact hsame j hj
  · exact Or.inr hone

theorem AlarmFree.initial {worker : IoWorker} {generator : GeneratorData} {disk : Memory}
    (hzero : worker.lastIntegrityWrittenOffset = 0) :
    AlarmFree config (IoState.initial worker generator disk) where
  slots := SlotInv.initial
  integrity := IntegrityInv.initial hzero
  running := Or.inl rfl

/-- A thread that goes on has been launched and has not ended with an error. -/
theorem AlarmFree.prepared {s : IoState GeneratorData} (h : AlarmFree config s)
    (hidle : s.pc ≠ .idle) (hhalted : ∀ reason, s.pc ≠ .halted reason) :
    s.generator.MultipleOf 512 s.worker.filesize ∧ s.KeepsApart := by
  obtain hpc | ⟨reason, hpc⟩ | hprepared := h.running
  · exact absurd hpc hidle
  · exact absurd hpc (hhalted reason)
  · exact hprepared

/-- A thread that goes on asks for whole sectors of the file. -/
theorem AlarmFree.alignedRequests {s t : IoState GeneratorData} {a : Action GeneratorData}
    (h : AlarmFree config s) (hstep : step config workloads s a = some t) :
    AlignedRequests workloads s a := by
  cases a with
  | iterate clock accepted =>
    intro data seed target hfill
    have hpc : s.pc = .head := by
      by_contra hnot
      simp [step, hnot] at hstep
    have htarget := ((h.prepared (by simp [hpc]) (by simp [hpc])).1.fill (by decide) hfill).2
    exact ⟨htarget.offset, htarget.size⟩
  | _ => trivial

/-- No read in flight can become stale. -/
theorem AlarmFree.noStaleRead {s t : IoState GeneratorData} {a : Action GeneratorData}
    (h : AlarmFree config s) (hstep : step config workloads s a = some t) :
    NoStaleRead config s a := by
  cases a with
  | reap i transfer now =>
    simp only [step] at hstep
    split at hstep
    · rename_i hpc
      simp only [Option.ite_none_right_eq_some] at hstep
      exact h.noReadBeside (h.prepared (by simp [hpc]) (by simp [hpc])).2 hstep.1 transfer now
    · cases hstep
  | _ => trivial

/-- Every step of a test that keeps reads and writes apart keeps the invariant. -/
theorem AlarmFree.of_step {s t : IoState GeneratorData} {a : Action GeneratorData}
    (h : AlarmFree config s) (hco : Cooperative config s a) (hdevice : CorrectDevice s a)
    (hseparate : Separate s a) (hstep : step config workloads s a = some t) :
    AlarmFree config t := by
  refine ⟨h.slots.of_step hco hstep, h.integrity.of_step hdevice (h.alignedRequests hstep)
    (h.noStaleRead hstep) hstep, ?_⟩
  cases step_next hstep with
  | start l queue hpc hcreate => exact Or.inr (Or.inr (SeparateLaunch.start hseparate hcreate))
  | startFails l reason hreason => exact Or.inr (Or.inl ⟨reason, rfl⟩)
  | timeout clock accepted hpc htime =>
    exact Or.inr (Or.inr (h.prepared (by simp [hpc]) (by simp [hpc])))
  | sentinel clock accepted hpc hready => exact Or.inr (Or.inl ⟨.sentinel, rfl⟩)
  | stop clock accepted i rest hpc hready hlimit =>
    exact Or.inr (Or.inr (h.prepared (by simp [hpc]) (by simp [hpc])))
  | submitFails clock accepted reason hpc hreason => exact Or.inr (Or.inl ⟨reason, rfl⟩)
  | submit clock accepted i rest data seed target hpc htime hready hlimit hfill hassert =>
    obtain ⟨hmultiple, hapart⟩ := h.prepared (by simp [hpc]) (by simp [hpc])
    have hnot := first_notMem_inflight h.slots.conserved.nodup hready
    refine Or.inr (Or.inr ⟨?_, hapart.submit hfill hnot⟩)
    rw [submit_filesize]
    exact (hmultiple.fill (by decide) hfill).1
  | effect i k hi hk =>
    rw [effect_pc, effect_generator, effect_worker]
    refine h.running.imp_right (Or.imp_right fun hprepared => ⟨hprepared.1, ?_⟩)
    obtain ⟨buf, hqueue⟩ := effect_queue s i k
    refine hprepared.2.congr (effect_generator s i k) ?_ fun j hj => ⟨?_, ?_⟩
    · rw [hqueue, AsyncQueue.setRequest_total]
    · rwa [effect_inflight] at hj
    · obtain ⟨buf', hentry⟩ := effect_entry s i k j
      rw [hentry]
      rfl
  | notify i transfer now caller events received oldActive block worker workload queue hpc hi
      hnotifies hnotify =>
    obtain ⟨hmultiple, hapart⟩ := h.prepared (by simp [hpc]) (by simp [hpc])
    obtain ⟨hqueue, hworker⟩ := genericQueueNotify_ok hnotify
    have hfilesize : worker.filesize = s.worker.filesize := by
      obtain ⟨_, _, rfl, _⟩ | ⟨_, rfl, _⟩ := hworker
      · rfl
      · exact (IoWorker.advance_sameSettings _ _).filesize
    refine Or.inr (Or.inr ⟨by rw [hfilesize]; exact hmultiple, hapart.congr rfl ?_ ?_⟩)
    · rw [hqueue]
      rfl
    · intro j hj
      obtain ⟨now', hentry⟩ := notified_entry s.queue i now j
      refine ⟨List.mem_of_mem_erase hj, ?_⟩
      rw [hqueue, hentry]
      rfl
  | notifyFails i transfer now reason hi hnotify => exact Or.inr (Or.inl ⟨reason, rfl⟩)
  | drop i transfer now caller events received oldActive block hpc hi hnotifies =>
    obtain ⟨hmultiple, hapart⟩ := h.prepared (by simp [hpc]) (by simp [hpc])
    exact Or.inr (Or.inr ⟨hmultiple, hapart.congr rfl rfl fun j hj =>
      ⟨List.mem_of_mem_erase hj, rfl⟩⟩)
  | waitReturn ok caller events received oldActive block hpc hok =>
    exact Or.inr (Or.inr (h.prepared (by simp [hpc]) (by simp [hpc])))
  | finish now hpc => exact Or.inr (Or.inr (h.prepared (by simp [hpc]) (by simp [hpc])))

/-- **Tests without false alarms.** Let every test be a sequential or a random workload for whole
sectors, or the mixed workload with a depth of 1 on a file of whole sectors, and let the watermark
be 0 before the first of them. Then on a cooperative platform with a correct device no sequence of
such tests raises an integrity error, in whatever order the sectors take effect and the requests
complete, and the file always carries the pattern below the watermark. -/
theorem separate_tests_alarm_free {worker : IoWorker} {generator : GeneratorData} {disk : Memory}
    {as : List (Action GeneratorData)} {t : IoState GeneratorData}
    (hzero : worker.lastIntegrityWrittenOffset = 0)
    (hrun : exec (step config workloads) (IoState.initial worker generator disk) as = some t)
    (hco : Along (step config workloads) (Cooperative config)
      (IoState.initial worker generator disk) as)
    (hdevice : Along (step config workloads) CorrectDevice
      (IoState.initial worker generator disk) as)
    (hseparate : Along (step config workloads) Separate
      (IoState.initial worker generator disk) as) :
    (∀ output, t.pc ≠ .halted (.integrityError output)) ∧
      ∀ n, 512 * n < t.worker.lastIntegrityWrittenOffset.toNat →
        SectorCarries config.writeRandom t.device.disk n := by
  have hinv : AlarmFree config t ∧ ∀ output, t.pc ≠ .halted (.integrityError output) := by
    apply exec_invariant (I := fun s => AlarmFree config s ∧
      ∀ output, s.pc ≠ .halted (.integrityError output)) _ hrun
      (along_and.mpr ⟨hco, along_and.mpr ⟨hdevice, hseparate⟩⟩)
    · exact ⟨AlarmFree.initial hzero, fun output hpc => by cases hpc⟩
    · intro s a t hs hP hstep
      refine ⟨hs.1.of_step hP.1 hP.2.1 hP.2.2 hstep, fun output ht => ?_⟩
      obtain ⟨i, transfer, now, rfl, hi, hnotify⟩ := step_alarm (hs.2 output) hstep ht
      exact hs.1.integrity.notifies hi hP.2.1.2 hnotify
  exact ⟨hinv.2, hinv.1.integrity.disk⟩

/-- A test that writes a file of one sector and a test that reads it. -/
theorem separate_tests_alarm_free_write_then_read : ∃ t,
    exec (step ⟨false, .linux, 4096, true⟩ workloads)
      (IoState.initial ⟨0, 8192, 0, 0, 0, 88172645463325252, true⟩ (.sequential ⟨true, 0, 512⟩)
        fun _ => 0) writeThenRead = some t ∧
    ∀ output, t.pc ≠ .halted (.integrityError output) := by
  have hrun : exec (step ⟨false, .linux, 4096, true⟩ workloads)
    (IoState.initial ⟨0, 8192, 0, 0, 0, 88172645463325252, true⟩ (.sequential ⟨true, 0, 512⟩)
      fun _ => 0) writeThenRead = some _ := rfl
  refine ⟨_, hrun, (separate_tests_alarm_free rfl hrun (by decide) (by decide) ?_).1⟩
  apply along_of_forall
  intro a ha s
  simp only [writeThenRead, List.mem_cons, List.not_mem_nil, or_false] at ha
  rcases ha with rfl | rfl | rfl | rfl | rfl | rfl | rfl | rfl | rfl | rfl | rfl
  case inl => exact ⟨.sequential true, 512, rfl, by decide, fun h => absurd h id⟩
  case inr.inr.inr.inr.inr.inr.inr.inl =>
    exact ⟨.sequential false, 512, rfl, by decide, fun h => absurd h id⟩
  all_goals trivial

end DiskBench
