import DiskBench.Foundations.Transition
import DiskBench.Queue
import DiskBench.Workloads.Generator

/-!
# The worker thread

`ioworker` of `diskBench.c` with the waiting loop of `queue.c` and the two versions of
`queue_wait`, as a state machine. One action is one pass through the loop of `ioworker`,
one completion that `queue_wait` handles, the return of `queue_wait`, or one sector of a
request in flight that takes effect on the device. What the clock says, which requests
complete and in which order is part of the actions, so a run is any interleaving.
-/

namespace DiskBench

variable {γ : Type}

/-- The two callers of `generic_queue_wait`. -/
inductive Caller where
  | ioworker
  | barrier
  deriving DecidableEq

/-- Where the worker thread is. -/
inductive Pc where
  /-- No workload has been started. -/
  | idle
  /-- At the head of the loop of `ioworker`. -/
  | head
  /-- Inside `queue_wait`, called from the loop of `generic_queue_wait`. -/
  | wait (caller : Caller) (events received : ℕ) (oldActive : UInt32) (block : Bool)
  /-- `generic_queue_barrier` has returned. -/
  | drained
  /-- The thread has ended. -/
  | done
  /-- The process has ended. -/
  | halted (reason : Halt)
  deriving DecidableEq

/-- The state of a worker, its workload and its device. -/
structure IoState (γ : Type) where
  worker : IoWorker
  workload : IoWorkload
  generator : γ
  queue : AsyncQueue
  /-- The local variable `terminate_at`. -/
  terminateAt : AprTime
  pc : Pc
  device : Device

/-- What `main` and `run_tests` prepare before they start the thread: the reset generator,
the queue depth, the file size and limits of the worker, and the content of its buffer. -/
structure Launch (γ : Type) where
  generator : γ
  queueDepth : Int32
  filesize : UInt64
  iolimit : UInt64
  maxExecutionTime : AprTime
  memory : ℕ → Memory
  /-- Whether the platform's `queue_create` succeeds. -/
  created : Bool
  now : AprTime

/-- The results of `apr_time_now` in one pass through the loop of `ioworker`. -/
structure Clock where
  now : AprTime
  preSubmission : AprTime
  postSubmission : AprTime

/-- The actions of the system. -/
inductive Action (γ : Type) where
  /-- A new thread runs `ioworker` up to its loop. -/
  | launch (l : Launch γ)
  /-- One pass through the loop up to the call of `queue_wait`. -/
  | iterate (clock : Clock) (accepted : Bool)
  /-- Sector `k` of the request of entry `i` takes effect. -/
  | effect (i k : ℕ)
  /-- `queue_wait` handles the completion of entry `i`. -/
  | reap (i : ℕ) (transfer : Transfer) (now : AprTime)
  /-- `queue_wait` returns; `ok` says whether with `APR_SUCCESS`. -/
  | waitReturn (ok : Bool)
  /-- The thread ends. -/
  | finish (now : AprTime)

/-- Where the caller of `generic_queue_wait` goes on. -/
def Caller.resume : Caller → Pc
  | .ioworker => .head
  | .barrier => .drained

/-- The head of the loop of `generic_queue_wait`: the next call of `queue_wait`, or the
return to the caller. -/
def waitLoop (queue : AsyncQueue) (caller : Caller) (events received : ℕ) : Pc :=
  if queue.active > 0 then
    .wait caller events received queue.active (received < events || queue.free = 0)
  else caller.resume

/-- The rest of the loop of `generic_queue_wait` after the return of `queue_wait`. -/
def waitReturned (config : Config) (queue : AsyncQueue) (caller : Caller) (events received : ℕ)
    (oldActive : UInt32) (ok : Bool) : Pc :=
  if config.assertions ∧ ¬ok then .halted .assertion
  else if oldActive - queue.active = 0 then caller.resume
  else waitLoop queue caller events (received + (oldActive - queue.active).toNat)

/-- Where the thread goes on after a notification at `pc`: the Linux version of `queue_wait`
handles the next completion, the Windows version returns. -/
def afterNotify (config : Config) (queue : AsyncQueue) (pc : Pc) (caller : Caller)
    (events received : ℕ) (oldActive : UInt32) : Pc :=
  match config.platform with
  | .linux => pc
  | .win32 => waitReturned config queue caller events received oldActive true

/-- `generic_queue_barrier`. -/
def genericQueueBarrier (queue : AsyncQueue) : Pc :=
  waitLoop queue .barrier queue.active.toNat 0

/-- Whether `queue_wait` hands a completion to `generic_queue_notify`. The Linux version
never looks at `ioe->res`; the Windows version wants `GetQueuedCompletionStatus` to succeed
and does not look at the number of bytes. -/
def Platform.notifies : Platform → Transfer → Bool
  | .linux, _ => true
  | .win32, .full => true
  | .win32, .short _ => true
  | .win32, .failed _ => false

/-- The entry and the worker after `fill_request` has chosen `target` and the request has
been prepared for submission. -/
def prepareEntry (config : Config) (worker : IoWorker) (entry : AsyncQueueEntry)
    (seed : UInt64) (target : Target) (preSubmission : AprTime) : AsyncQueueEntry × IoWorker :=
  let request := { entry.request with
    offset := target.offset, size := target.size, write := target.write
    preSubmission := preSubmission }
  let entry := { entry with request := request }
  let worker := { worker with randomSeed := seed }
  if target.write then genericQueueWrite config worker entry
  else (genericQueueRead entry, worker)

/-- The device after it has accepted the request of entry `i`. -/
def Device.submit (device : Device) (i : ℕ) (request : IoRequest) : Device :=
  { device with
    inflight := device.inflight ++ [i]
    served := Function.update device.served i fun _ => false
    submissions := device.submissions ++ [request] }

/-- The device after it has delivered the completion of entry `i`. -/
def Device.deliver (device : Device) (i : ℕ) : Device :=
  { device with inflight := device.inflight.erase i }

/-- The device after a completion that the program has taken note of. -/
def Device.complete (device : Device) (i : ℕ) (request : IoRequest) (transfer : Transfer) :
    Device :=
  { device.deliver i with completions := device.completions ++ [(request, transfer)] }

/-- The device after sector `k` of the request of entry `i` has taken effect. -/
def Device.serve (device : Device) (i k : ℕ) : Device :=
  { device with
    served := Function.update device.served i (Function.update (device.served i) k true) }

/-- A new queue has nothing in flight, and its logs are empty. -/
def Device.open (device : Device) : Device :=
  ⟨device.disk, [], fun _ _ => false, [], []⟩

/-- The process ends. -/
def IoState.halt (s : IoState γ) (reason : Halt) : IoState γ := { s with pc := .halted reason }

/-- `ioworker` at its loop, with a new queue. -/
def IoState.start (s : IoState γ) (l : Launch γ) (queue : AsyncQueue) : IoState γ where
  worker := { s.worker with filesize := l.filesize, iolimit := l.iolimit }
  workload := { s.workload with
    submittedBytes := 0, maxActive := 0, read := .zero, write := .zero
    startTime := l.now, queueDepth := l.queueDepth }
  generator := l.generator
  queue := queue
  terminateAt := l.now + l.maxExecutionTime
  pc := .head
  device := s.device.open

/-- `ioworker` up to its loop. -/
def IoState.launch (config : Config) (s : IoState γ) (l : Launch γ) : IoState γ :=
  match genericQueueCreate config s.worker l.queueDepth l.memory with
  | .error reason => s.halt reason
  | .ok queue =>
    if config.assertions ∧ ¬l.created then s.halt .assertion else s.start l queue

/-- The limit test fails: the entry goes back to the ring and the loop ends. -/
def IoState.stop (s : IoState γ) (i : ℕ) (rest : List ℕ) : IoState γ :=
  let queue := ({ s.queue with ready := rest }).insertTail i
  { s with queue := queue, pc := genericQueueBarrier queue }

/-- The rest of the loop of `ioworker` after `fill_request` has chosen `target`. -/
def IoState.submit (config : Config) (s : IoState γ) (i : ℕ) (rest : List ℕ) (data : γ)
    (seed : UInt64) (target : Target) (clock : Clock) (accepted : Bool) : IoState γ :=
  let prepared := prepareEntry config s.worker (s.queue.ioaqes i) seed target clock.preSubmission
  let entry := prepared.1
  let submitted := { entry with
    request := { entry.request with postSubmission := clock.postSubmission } }
  let queue := (({ s.queue with ready := rest }).activate).setEntry i submitted
  { s with
    worker := prepared.2
    workload := { s.workload with
      submittedBytes := s.workload.submittedBytes + entry.request.size
      maxActive := if queue.active > s.workload.maxActive.toUInt32 then queue.active.toInt32
        else s.workload.maxActive }
    generator := data
    queue := queue
    pc := waitLoop queue .ioworker 0 0
    device := if accepted then s.device.submit i submitted.request else s.device }

/-- One pass through the loop of `ioworker`. -/
def IoState.iterate (config : Config) (G : Generator γ) (s : IoState γ) (clock : Clock)
    (accepted : Bool) : IoState γ :=
  if clock.now ≤ s.terminateAt then
    match s.queue.ready with
    | [] => s.halt .sentinel
    | i :: rest =>
      let entry := s.queue.ioaqes i
      if s.workload.submittedBytes + entry.request.size > s.worker.iolimit then s.stop i rest
      else
        match G.fillRequest s.generator s.worker.filesize s.worker.randomSeed with
        | none => s.halt .trap
        | some (data, seed, target) =>
          if config.assertions ∧ ¬accepted then s.halt .assertion
          else s.submit config i rest data seed target clock accepted
  else { s with pc := genericQueueBarrier s.queue }

/-- Sector `k` of the request of entry `i` takes effect. -/
def IoState.effect (s : IoState γ) (i k : ℕ) : IoState γ :=
  let request := (s.queue.ioaqes i).request
  if request.write then
    { s with device :=
        ({ s.device with disk := storeSector s.device.disk request k }).serve i k }
  else
    { s with
      queue := s.queue.setRequest i (fetchSector s.device.disk request k)
      device := s.device.serve i k }

/-- `queue_wait` handles the completion of entry `i`. -/
def IoState.reap (config : Config) (s : IoState γ) (caller : Caller) (events received : ℕ)
    (oldActive : UInt32) (i : ℕ) (transfer : Transfer) (now : AprTime) : IoState γ :=
  if config.platform.notifies transfer then
    match genericQueueNotify config s.worker s.workload s.queue i now with
    | .error reason => s.halt reason
    | .ok (worker, workload, queue) =>
      { s with
        worker := worker
        workload := workload
        queue := queue
        pc := afterNotify config queue s.pc caller events received oldActive
        device := s.device.complete i (s.queue.ioaqes i).request transfer }
  else
    { s with
      pc := waitReturned config s.queue caller events received oldActive false
      device := s.device.deliver i }

/-- One action of the system. An action that is not possible in the state has no result.
`queue_wait` fails only when it has handled no completion. -/
def step (config : Config) (G : Generator γ) (s : IoState γ) : Action γ → Option (IoState γ)
  | .launch l => if s.pc = .idle ∨ s.pc = .done then some (s.launch config l) else none
  | .iterate clock accepted =>
    if s.pc = .head then some (s.iterate config G clock accepted) else none
  | .effect i k =>
    if i ∈ s.device.inflight ∧ k < (s.queue.ioaqes i).request.sectors ∧ ¬s.device.served i k then
      some (s.effect i k)
    else none
  | .reap i transfer now =>
    match s.pc with
    | .wait caller events received oldActive _ =>
      if i ∈ s.device.inflight then
        some (s.reap config caller events received oldActive i transfer now)
      else none
    | _ => none
  | .waitReturn ok =>
    match s.pc with
    | .wait caller events received oldActive _ =>
      if ok ∨ oldActive = s.queue.active then
        some { s with pc := waitReturned config s.queue caller events received oldActive ok }
      else none
    | _ => none
  | .finish now =>
    if s.pc = .drained then
      some { s with workload := { s.workload with endTime := now }, pc := .done }
    else none

section Fields

variable (config : Config) (worker : IoWorker) (entry : AsyncQueueEntry) (seed : UInt64)
  (target : Target) (now : AprTime) (s : IoState γ) (i k : ℕ)

@[simp] theorem prepareEntry_offset :
    (prepareEntry config worker entry seed target now).1.request.offset = target.offset := by
  unfold prepareEntry
  split <;> rfl

@[simp] theorem prepareEntry_size :
    (prepareEntry config worker entry seed target now).1.request.size = target.size := by
  unfold prepareEntry
  split <;> rfl

@[simp] theorem prepareEntry_write :
    (prepareEntry config worker entry seed target now).1.request.write = target.write := by
  unfold prepareEntry
  split <;> rfl

@[simp] theorem prepareEntry_callback :
    (prepareEntry config worker entry seed target now).1.callback =
      if target.write then .writeComplete else .readComplete := by
  unfold prepareEntry
  split <;> rfl

/-- The preparation of a request changes nothing of the worker but its seed. -/
theorem prepareEntry_worker :
    ∃ seed', (prepareEntry config worker entry seed target now).2 = worker.setSeed seed' := by
  unfold prepareEntry
  split
  · exact ⟨_, rfl⟩
  · exact ⟨seed, rfl⟩

/-- Without random writing the seed is the one that `fill_request` has left. -/
theorem prepareEntry_seed (hconstant : config.writeRandom = false) :
    (prepareEntry config worker entry seed target now).2.randomSeed = seed := by
  unfold prepareEntry
  split
  · unfold genericQueueWrite fillBuffer
    rw [hconstant]
    exact fillLoop_constant_seed
  · rfl

/-- A prepared write carries the pattern in each of its sectors. -/
theorem prepareEntry_carries (hwrite : target.write = true)
    (hk : k < (prepareEntry config worker entry seed target now).1.request.sectors) :
    CarriesPattern config.writeRandom
      ((prepareEntry config worker entry seed target now).1.request.sectorOff k)
      (WordMemory.block 64 (prepareEntry config worker entry seed target now).1.request.buf k) := by
  unfold prepareEntry at hk ⊢
  simp only [hwrite, if_true] at hk ⊢
  exact genericQueueWrite_carries hk

/-- The sectors that have taken effect after one more has. -/
theorem Device.serve_eq_true_iff {device : Device} {j n : ℕ} :
    (device.serve i k).served j n = true ↔ device.served j n = true ∨ j = i ∧ n = k := by
  unfold Device.serve
  by_cases hj : j = i
  · subst hj
    by_cases hn : n = k
    · simp [hn]
    · simp [hn]
  · simp [hj]

/-- The effect of a sector of a write. -/
theorem effect_of_write (hwrite : (s.queue.ioaqes i).request.write = true) :
    s.effect i k = { s with device :=
      ({ s.device with
        disk := storeSector s.device.disk (s.queue.ioaqes i).request k }).serve i k } :=
  if_pos hwrite

/-- The effect of a sector of a read. -/
theorem effect_of_read (hread : (s.queue.ioaqes i).request.write = false) :
    s.effect i k = { s with
      queue := s.queue.setRequest i (fetchSector s.device.disk (s.queue.ioaqes i).request k)
      device := s.device.serve i k } := by
  unfold IoState.effect
  simp only [hread, Bool.false_eq_true, if_false]

@[simp] theorem effect_worker : (s.effect i k).worker = s.worker := by
  unfold IoState.effect
  dsimp only
  split <;> rfl

@[simp] theorem effect_workload : (s.effect i k).workload = s.workload := by
  unfold IoState.effect
  dsimp only
  split <;> rfl

@[simp] theorem effect_generator : (s.effect i k).generator = s.generator := by
  unfold IoState.effect
  dsimp only
  split <;> rfl

@[simp] theorem effect_pc : (s.effect i k).pc = s.pc := by
  unfold IoState.effect
  dsimp only
  split <;> rfl

@[simp] theorem effect_inflight : (s.effect i k).device.inflight = s.device.inflight := by
  unfold IoState.effect
  dsimp only
  split <;> rfl

@[simp] theorem effect_submissions : (s.effect i k).device.submissions = s.device.submissions := by
  unfold IoState.effect
  dsimp only
  split <;> rfl

@[simp] theorem effect_completions : (s.effect i k).device.completions = s.device.completions := by
  unfold IoState.effect
  dsimp only
  split <;> rfl

theorem effect_served : (s.effect i k).device.served = (s.device.serve i k).served := by
  unfold IoState.effect
  dsimp only
  split <;> rfl

/-- An effect changes nothing of the queue but the content of a buffer. -/
theorem effect_queue :
    ∃ buf, (s.effect i k).queue =
      s.queue.setRequest i ((s.queue.ioaqes i).request.setBuf buf) := by
  unfold IoState.effect
  dsimp only
  split
  · refine ⟨(s.queue.ioaqes i).request.buf, ?_⟩
    simp [AsyncQueue.setRequest, AsyncQueue.setEntry, IoRequest.setBuf]
  · exact ⟨_, rfl⟩

/-- An effect changes nothing of an entry but the content of its buffer. -/
theorem effect_entry (j : ℕ) :
    ∃ buf, (s.effect i k).queue.ioaqes j =
      ⟨(s.queue.ioaqes j).request.setBuf buf, (s.queue.ioaqes j).callback⟩ := by
  obtain ⟨buf, hqueue⟩ := effect_queue s i k
  by_cases hj : j = i
  · subst hj
    exact ⟨buf, by rw [hqueue, AsyncQueue.setRequest_self]⟩
  · refine ⟨(s.queue.ioaqes j).request.buf, ?_⟩
    rw [hqueue, AsyncQueue.setRequest_of_ne _ _ _ hj]
    rfl

end Fields

section Submit

variable {config : Config} {s : IoState γ} {i : ℕ} {rest : List ℕ} {data : γ} {seed : UInt64}
  {target : Target} {clock : Clock} {accepted : Bool}

/-- The submission of a request changes no other entry. -/
theorem submit_entry_of_ne {j : ℕ} (hj : j ≠ i) :
    (s.submit config i rest data seed target clock accepted).queue.ioaqes j = s.queue.ioaqes j :=
  AsyncQueue.setEntry_of_ne _ _ _ hj

/-- The entry whose request has been submitted. -/
theorem submit_entry_self :
    ((s.submit config i rest data seed target clock accepted).queue.ioaqes i).callback =
        (if target.write then .writeComplete else .readComplete) ∧
      ((s.submit config i rest data seed target clock accepted).queue.ioaqes i).request.offset =
        target.offset ∧
      ((s.submit config i rest data seed target clock accepted).queue.ioaqes i).request.size =
        target.size ∧
      ((s.submit config i rest data seed target clock accepted).queue.ioaqes i).request.write =
        target.write := by
  simp [IoState.submit]

/-- The submission of a request changes nothing of the worker but its seed. -/
theorem submit_worker : ∃ seed', (s.submit config i rest data seed target clock accepted).worker =
    s.worker.setSeed seed' := by
  obtain ⟨seed', hworker⟩ :=
    prepareEntry_worker config s.worker (s.queue.ioaqes i) seed target clock.preSubmission
  exact ⟨seed', hworker⟩

@[simp] theorem submit_filesize :
    (s.submit config i rest data seed target clock accepted).worker.filesize =
      s.worker.filesize := by
  obtain ⟨seed', hworker⟩ := @submit_worker γ config s i rest data seed target clock accepted
  rw [hworker]
  rfl

@[simp] theorem submit_iolimit :
    (s.submit config i rest data seed target clock accepted).worker.iolimit =
      s.worker.iolimit := by
  obtain ⟨seed', hworker⟩ := @submit_worker γ config s i rest data seed target clock accepted
  rw [hworker]
  rfl

@[simp] theorem submit_watermark :
    (s.submit config i rest data seed target clock accepted).worker.lastIntegrityWrittenOffset =
      s.worker.lastIntegrityWrittenOffset := by
  obtain ⟨seed', hworker⟩ := @submit_worker γ config s i rest data seed target clock accepted
  rw [hworker]
  rfl

@[simp] theorem submit_submittedBytes :
    (s.submit config i rest data seed target clock accepted).workload.submittedBytes =
      s.workload.submittedBytes + target.size := by
  simp [IoState.submit]

end Submit

/-- A worker, a generator and a device before the first workload. -/
def IoState.initial (worker : IoWorker) (generator : γ) (disk : Memory) : IoState γ where
  worker := worker
  workload := ⟨0, .zero, .zero, 0, 0, 0, 0⟩
  generator := generator
  queue := ⟨0, 0, 0, [], fun _ => ⟨⟨0, 0, fun _ => 0, 0, 0, 0, 0, 0, false⟩, .null⟩⟩
  terminateAt := 0
  pc := .idle
  device := ⟨disk, [], fun _ _ => false, [], []⟩

end DiskBench
