import DiskBench.AlarmFree
import DiskBench.Foundations.Sharing
import DiskBench.Reproducible

/-!
# The threads of a test

`run_tests` starts a thread for each worker, and the threads run in any order. Each of them has a
queue, a generator and a watermark of its own, but two workers can have the same file open: then a
thread reads what the other one writes, above and below its own watermark.
-/

namespace DiskBench

open Sharing Transition

variable {γ ι φ : Type} [DecidableEq ι] [DecidableEq φ] {config : Config} {G : Generator γ}

/-- The file of a worker with another content. -/
def IoState.withDisk (s : IoState γ) (disk : Memory) : IoState γ :=
  { s with device := { s.device with disk := disk } }

/-- One step of one of the threads. Worker `i` has the file `file i` open. -/
def threadsStep (config : Config) (G : Generator γ) (file : ι → φ) :
    (ι → IoState γ) → ι × Action γ → Option (ι → IoState γ) :=
  together (step config G) (fun s => s.device.disk) IoState.withDisk file

/-- The workers before the first test. -/
def threadsInitial (file : ι → φ) (worker : ι → IoWorker) (generator : ι → γ) (disk : φ → Memory) :
    ι → IoState γ :=
  fun i => IoState.initial (worker i) (generator i) (disk (file i))

/-- A file that has more content with the pattern. -/
def MoreCarries (writeRandom : Bool) (disk disk' : Memory) : Prop :=
  ∀ n, SectorCarries writeRandom disk n → SectorCarries writeRandom disk' n

/-- What a thread writes carries the pattern, so it takes the pattern away from no sector. -/
theorem moreCarries_of_step {s t : IoState γ} {a : Action γ} (h : IntegrityInv config s)
    (hstep : step config G s a = some t) :
    MoreCarries config.writeRandom s.device.disk t.device.disk := by
  cases step_next hstep with
  | submit clock accepted i rest data seed target hpc htime hready hlimit hfill hassert =>
    cases accepted <;> exact fun n hn => hn
  | effect i k hi hk =>
    intro n hn
    have hsound := h.sound i hi
    cases hdirection : (s.queue.ioaqes i).request.write with
    | true =>
      rw [effect_of_write _ _ _ hdirection]
      exact SectorCarries.store hsound.aligned (hsound.filled hdirection k hk) (Or.inl hn)
    | false =>
      rw [effect_of_read _ _ _ hdirection]
      exact hn
  | _ => exact fun n hn => hn

/-- What other threads write is no harm to the integrity of a worker. -/
theorem IntegrityInv.withDisk {s : IoState γ} {disk : Memory} (h : IntegrityInv config s)
    (hmore : MoreCarries config.writeRandom s.device.disk disk) :
    IntegrityInv config (s.withDisk disk) where
  distinct := h.distinct
  callback := h.callback
  disk n hn := hmore n (h.disk n hn)
  sound i hi :=
    { h.sound i hi with
      stored := fun hwrite k hk hserved =>
        hmore _ ((h.sound i hi).stored hwrite k hk hserved) }

theorem AlarmFree.withDisk {s : IoState GeneratorData} {disk : Memory} (h : AlarmFree config s)
    (hmore : MoreCarries config.writeRandom s.device.disk disk) :
    AlarmFree config (s.withDisk disk) where
  slots := { h.slots with }
  integrity := h.integrity.withDisk hmore
  running := h.running

/-- **Threads on shared files.** Any number of threads run sequential and random tests for whole
sectors, and mixed ones with a depth of 1 on files of whole sectors, in any interleaving, and any of
them may have the same file open. All watermarks are 0 at the start. On a cooperative platform with
correct devices none of them raises an alarm, the queue entries of each are conserved, and each file
carries the pattern below the watermarks of all workers that have it open. -/
theorem shared_files_alarm_free {file : ι → φ} {worker : ι → IoWorker}
    {generator : ι → GeneratorData} {disk : φ → Memory} {as : List (ι × Action GeneratorData)}
    {threads : ι → IoState GeneratorData} (hzero : ∀ i, (worker i).lastIntegrityWrittenOffset = 0)
    (hrun : exec (threadsStep config workloads file) (threadsInitial file worker generator disk)
      as = some threads)
    (hco : Along (threadsStep config workloads file) (Acting (Cooperative config))
      (threadsInitial file worker generator disk) as)
    (hdevice : Along (threadsStep config workloads file) (Acting CorrectDevice)
      (threadsInitial file worker generator disk) as)
    (hseparate : Along (threadsStep config workloads file) (Acting Separate)
      (threadsInitial file worker generator disk) as) (i : ι) :
    (∀ output, (threads i).pc ≠ .halted (.integrityError output)) ∧ SlotInv (threads i) ∧
      ∀ j, file j = file i → ∀ n, 512 * n < (threads j).worker.lastIntegrityWrittenOffset.toNat →
        SectorCarries config.writeRandom (threads i).device.disk n := by
  have hown : ∀ (s : IoState GeneratorData) a t,
      AlarmFree config s ∧ (∀ output, s.pc ≠ .halted (.integrityError output)) →
      Cooperative config s a ∧ CorrectDevice s a ∧ Separate s a →
      step config workloads s a = some t →
      (AlarmFree config t ∧ ∀ output, t.pc ≠ .halted (.integrityError output)) ∧
        MoreCarries config.writeRandom s.device.disk t.device.disk := by
    intro s a t hs hP hstep
    refine ⟨⟨hs.1.of_step hP.1 hP.2.1 hP.2.2 hstep, fun output ht => ?_⟩,
      moreCarries_of_step hs.1.integrity hstep⟩
    obtain ⟨k, transfer, now, rfl, hk, hnotify⟩ := step_alarm (hs.2 output) hstep ht
    exact hs.1.integrity.notifies hk hP.2.1.2 hnotify
  have hothers : ∀ (s : IoState GeneratorData) disk,
      AlarmFree config s ∧ (∀ output, s.pc ≠ .halted (.integrityError output)) →
      MoreCarries config.writeRandom s.device.disk disk →
      AlarmFree config (s.withDisk disk) ∧
        ∀ output, (s.withDisk disk).pc ≠ .halted (.integrityError output) :=
    fun s disk hs hmore => ⟨hs.1.withDisk hmore, hs.2⟩
  obtain ⟨hinv, hshare⟩ := rely_guarantee (fun _ _ => rfl) hown hothers
    (fun i => ⟨AlarmFree.initial (hzero i), fun output hpc => by cases hpc⟩)
    (fun i j hij => congrArg disk hij) hrun
    (along_and.mpr ⟨hco, along_and.mpr ⟨hdevice, hseparate⟩⟩)
  refine ⟨(hinv i).2, (hinv i).1.slots, fun j hij n hn => ?_⟩
  have hcarries := (hinv j).1.integrity.disk n hn
  rwa [hshare j i hij] at hcarries

/-- One thread writes a file of one sector while another one reads it. -/
def writerAndReader : List (Bool × Action GeneratorData) :=
  [(true, .launch ⟨.sequential ⟨true, 0, 512⟩, 1, 512, 512, 10, fun _ _ => 0, true, 0⟩),
    (false, .launch ⟨.sequential ⟨false, 0, 512⟩, 1, 512, 512, 10, fun _ _ => 0, true, 0⟩),
    (true, .iterate ⟨1, 1, 1⟩ true), (false, .iterate ⟨1, 1, 1⟩ true), (true, .effect 0 0),
    (false, .effect 0 0), (true, .reap 0 .full 2), (false, .reap 0 .full 3)]

/-- The reader of the shared file raises no alarm. -/
theorem shared_files_alarm_free_writer_and_reader : ∃ threads,
    exec (threadsStep ⟨false, .linux, 4096, true⟩ workloads fun _ : Bool => ())
      (threadsInitial (fun _ : Bool => ()) (fun _ => ⟨0, 8192, 0, 0, 0, 88172645463325252, true⟩)
        (fun write => .sequential ⟨write, 0, 512⟩) fun _ _ => 0) writerAndReader = some threads ∧
    ∀ output, (threads false).pc ≠ .halted (.integrityError output) := by
  have hrun : exec (threadsStep ⟨false, .linux, 4096, true⟩ workloads fun _ : Bool => ())
      (threadsInitial (fun _ : Bool => ()) (fun _ => ⟨0, 8192, 0, 0, 0, 88172645463325252, true⟩)
        (fun write => .sequential ⟨write, 0, 512⟩) fun _ _ => 0) writerAndReader = some _ := rfl
  refine ⟨_, hrun, (shared_files_alarm_free (fun _ => rfl) hrun (by decide) (by decide) ?_ false).1⟩
  apply along_of_forall
  intro act hact threads
  simp only [writerAndReader, List.mem_cons, List.not_mem_nil, or_false] at hact
  rcases hact with rfl | rfl | rfl | rfl | rfl | rfl | rfl | rfl
  case inl => exact ⟨.sequential true, 512, rfl, by decide, fun h => absurd h id⟩
  case inr.inl => exact ⟨.sequential false, 512, rfl, by decide, fun h => absurd h id⟩
  all_goals trivial

/-- **The requests of a thread.** In every interleaving with any other threads, on whatever files,
the requests that a thread hands over are those of its generator and of its random seed, in their
order: the scheduling, the completions and the other threads have no influence on them. -/
theorem thread_requests_determined {file : ι → φ} {threads : ι → IoState γ} {i : ι}
    {s : IoState γ} {l : Launch γ} {queue : AsyncQueue} {as : List (ι × Action γ)} {k : ℕ}
    {r : IoRequest} (hstart : threads i = s.start l queue) (hone : ∀ l, (i, .launch l) ∉ as)
    (hr : (observe (threadsStep config G file) (seeThread (IoState.handsOver config G) i)
      threads as)[k]? = some r) :
    ∃ r', supply (nextRequest config G l.filesize) (l.generator, s.worker.randomSeed) k = some r' ∧
      r.SamePayload r' := by
  have hput : ∀ (s : IoState γ) (disk : Memory) (source : γ × UInt64),
      AtSource l.filesize s source → AtSource l.filesize (s.withDisk disk) source :=
    fun _ _ _ hs => hs
  have halong : Along (threadsStep config G file) (TakesFrom (threadsStep config G file)
      (seeThread (IoState.handsOver config G) i) (nextRequest config G l.filesize)
      IoRequest.SamePayload fun threads => AtSource l.filesize (threads i)) threads as := by
    refine along_of_forall fun act hact threads => ?_
    refine takesFrom_together hput fun hi => ?_
    exact step_takesFrom fun l hl => hone l (hi ▸ hl ▸ hact)
  refine observe_supply halong ?_ hr
  rw [hstart]
  exact Or.inr ⟨rfl, rfl, rfl⟩

/-- The two writes of one thread while another one does the same to the same file. -/
theorem thread_requests_determined_pair : ∃ r r',
    (observe (threadsStep ⟨false, .linux, 4096, true⟩ workloads fun _ : Bool => ())
      (seeThread (IoState.handsOver ⟨false, .linux, 4096, true⟩ workloads) true)
      (fun _ => pairStart) ((pairRun 0 1).flatMap fun a => [(true, a), (false, a)]))[1]? = some r ∧
    supply (nextRequest ⟨false, .linux, 4096, true⟩ workloads pairLaunch.filesize)
      (pairLaunch.generator, pairInitial.worker.randomSeed) 1 = some r' ∧ r.SamePayload r' := by
  obtain ⟨r', hsupply, hlike⟩ := @thread_requests_determined _ _ _ _ _ ⟨false, .linux, 4096, true⟩
    workloads (fun _ : Bool => ()) (fun _ => pairStart) true pairInitial pairLaunch pairQueue
    ((pairRun 0 1).flatMap fun a => [(true, a), (false, a)]) 1 _ rfl (by simp [pairRun]) rfl
  exact ⟨_, r', rfl, hsupply, hlike⟩

end DiskBench
