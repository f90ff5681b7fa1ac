import Mathlib.Data.List.Nodup
import DiskBench.Completion
import DiskBench.Device

/-!
# The queue of asynchronous requests

`queue.c` without the waiting loop: the creation of a queue, the preparation of
reads and writes and `generic_queue_notify`, which runs the callback of a completed
entry and returns the entry to the ring of ready entries.
-/

namespace DiskBench

/-- The platforms with their `platform_ops`. -/
inductive Platform where
  | linux
  | win32
  deriving DecidableEq

/-- What stays the same while the program runs. -/
structure Config where
  /-- `options->write_random`. -/
  writeRandom : Bool
  platform : Platform
  /-- `platform_ops->get_page_size()`. -/
  pageSize : UInt64
  /-- Whether `assert` is compiled in; a release build defines `NDEBUG`. -/
  assertions : Bool

/-- The ways in which the process stops before the end of a workload. -/
inductive Halt where
  /-- An assertion fails. -/
  | assertion
  /-- `integrity_error` prints its message and exits with status 1. -/
  | integrityError (output : String)
  /-- A division by zero or the call of a null callback. -/
  | trap
  /-- The sentinel of an empty ring is taken for an entry. -/
  | sentinel
  deriving DecidableEq

/-- Replace the record of entry `i`. -/
def AsyncQueue.setEntry (queue : AsyncQueue) (i : ℕ) (entry : AsyncQueueEntry) : AsyncQueue :=
  { queue with ioaqes := Function.update queue.ioaqes i entry }

/-- Replace the request of entry `i`. -/
def AsyncQueue.setRequest (queue : AsyncQueue) (i : ℕ) (request : IoRequest) : AsyncQueue :=
  queue.setEntry i { queue.ioaqes i with request := request }

/-- `APR_RING_INSERT_TAIL` for entry `i`. -/
def AsyncQueue.insertTail (queue : AsyncQueue) (i : ℕ) : AsyncQueue :=
  { queue with ready := queue.ready ++ [i] }

/-- The counters after a ready entry has become active. -/
def AsyncQueue.activate (queue : AsyncQueue) : AsyncQueue :=
  { queue with free := queue.free - 1, active := queue.active + 1 }

/-- The ring and the counters after entry `i` has become ready again. -/
def AsyncQueue.release (queue : AsyncQueue) (i : ℕ) : AsyncQueue :=
  { queue.insertTail i with free := queue.free + 1, active := queue.active - 1 }

section Fields

variable (queue : AsyncQueue) (i : ℕ) (entry : AsyncQueueEntry) (request : IoRequest)

@[simp] theorem AsyncQueue.setEntry_active : (queue.setEntry i entry).active = queue.active := rfl

@[simp] theorem AsyncQueue.setEntry_free : (queue.setEntry i entry).free = queue.free := rfl

@[simp] theorem AsyncQueue.setEntry_ready : (queue.setEntry i entry).ready = queue.ready := rfl

@[simp] theorem AsyncQueue.setRequest_total :
    (queue.setRequest i request).total = queue.total := rfl

@[simp] theorem AsyncQueue.setRequest_active :
    (queue.setRequest i request).active = queue.active := rfl

@[simp] theorem AsyncQueue.setRequest_free : (queue.setRequest i request).free = queue.free := rfl

@[simp] theorem AsyncQueue.setRequest_ready :
    (queue.setRequest i request).ready = queue.ready := rfl

@[simp] theorem AsyncQueue.insertTail_free : (queue.insertTail i).free = queue.free := rfl

@[simp] theorem AsyncQueue.insertTail_ready :
    (queue.insertTail i).ready = queue.ready ++ [i] := rfl

@[simp] theorem AsyncQueue.activate_active : queue.activate.active = queue.active + 1 := rfl

@[simp] theorem AsyncQueue.activate_free : queue.activate.free = queue.free - 1 := rfl

@[simp] theorem AsyncQueue.activate_ready : queue.activate.ready = queue.ready := rfl

@[simp] theorem AsyncQueue.release_active : (queue.release i).active = queue.active - 1 := rfl

@[simp] theorem AsyncQueue.release_free : (queue.release i).free = queue.free + 1 := rfl

@[simp] theorem AsyncQueue.release_ready : (queue.release i).ready = queue.ready ++ [i] := rfl

@[simp] theorem AsyncQueue.release_ioaqes : (queue.release i).ioaqes = queue.ioaqes := rfl

/-- The entry that has been replaced. -/
@[simp] theorem AsyncQueue.setEntry_self : (queue.setEntry i entry).ioaqes i = entry :=
  Function.update_self ..

/-- The other entries stay as they are. -/
theorem AsyncQueue.setEntry_of_ne {j : ℕ} (h : j ≠ i) :
    (queue.setEntry i entry).ioaqes j = queue.ioaqes j :=
  Function.update_of_ne h ..

/-- The entry whose request has been replaced. -/
@[simp] theorem AsyncQueue.setRequest_self :
    (queue.setRequest i request).ioaqes i = { queue.ioaqes i with request := request } :=
  Function.update_self ..

/-- The other entries keep their requests. -/
theorem AsyncQueue.setRequest_of_ne {j : ℕ} (h : j ≠ i) :
    (queue.setRequest i request).ioaqes j = queue.ioaqes j :=
  Function.update_of_ne h ..

end Fields

/-- `generic_queue_create`. The buffer of entry `i` starts at `i * bufsize` in the worker's buffer,
and `memory` says what is there before the first request. The result of the platform's
`queue_create` is left to the caller. -/
def genericQueueCreate (config : Config) (worker : IoWorker) (queueDepth : Int32)
    (memory : ℕ → Memory) : Except Halt AsyncQueue :=
  let depth := queueDepth.toInt64.toUInt64
  if depth = 0 then .error .trap
  else
    let bufsize := worker.bufsize / depth
    if config.assertions ∧ bufsize < config.pageSize then .error .assertion
    else
      let bufsize := bufsize - bufsize % config.pageSize
      .ok {
        total := queueDepth.toUInt32
        free := queueDepth.toUInt32
        active := 0
        ready := List.range queueDepth.toInt.toNat
        ioaqes := fun i =>
          ⟨⟨0, 0, memory i, UInt64.ofNat i * bufsize, bufsize, 0, 0, 0, false⟩, .null⟩ }

/-- `generic_queue_write` up to the call of the platform: the entry with its buffer
filled, and the worker with its new seed. -/
def genericQueueWrite (config : Config) (worker : IoWorker) (entry : AsyncQueueEntry) :
    AsyncQueueEntry × IoWorker :=
  let filled := fillBuffer config.writeRandom entry.request worker.randomSeed
  ({ request := filled.1, callback := .writeComplete }, { worker with randomSeed := filled.2 })

/-- `generic_queue_read` up to the call of the platform. -/
def genericQueueRead (entry : AsyncQueueEntry) : AsyncQueueEntry :=
  { entry with callback := .readComplete }

/-- `generic_queue_notify` for entry `i`. -/
def genericQueueNotify (config : Config) (worker : IoWorker) (workload : IoWorkload)
    (queue : AsyncQueue) (i : ℕ) (now : AprTime) :
    Except Halt (IoWorker × IoWorkload × AsyncQueue) :=
  let entry := queue.ioaqes i
  match entry.callback with
  | .null => .error .trap
  | .readComplete =>
    match readComplete config.writeRandom worker workload entry.request now with
    | .error output => .error (.integrityError output)
    | .ok (request, workload) => .ok (worker, workload, (queue.setRequest i request).release i)
  | .writeComplete =>
    let (request, workload, worker) := writeComplete worker workload entry.request now
    .ok (worker, workload, (queue.setRequest i request).release i)

/-- A write that has been prepared carries the pattern in each of its sectors. -/
theorem genericQueueWrite_carries {config : Config} {worker : IoWorker} {entry : AsyncQueueEntry}
    {k : ℕ} (hk : k < (genericQueueWrite config worker entry).1.request.sectors) :
    CarriesPattern config.writeRandom
      ((genericQueueWrite config worker entry).1.request.sectorOff k)
      (WordMemory.block 64 (genericQueueWrite config worker entry).1.request.buf k) :=
  @fillBuffer_carries config.writeRandom entry.request worker.randomSeed k hk

/-- A queue that has been created has all its entries ready, none of them used before. -/
theorem genericQueueCreate_ok {config : Config} {worker : IoWorker} {queueDepth : Int32}
    {memory : ℕ → Memory} {queue : AsyncQueue}
    (h : genericQueueCreate config worker queueDepth memory = .ok queue) :
    ∃ bufsize, queue = ⟨queueDepth.toUInt32, 0, queueDepth.toUInt32,
      List.range queueDepth.toInt.toNat,
      fun i => ⟨⟨0, 0, memory i, UInt64.ofNat i * bufsize, bufsize, 0, 0, 0, false⟩, .null⟩⟩ := by
  simp only [genericQueueCreate] at h
  split at h
  · cases h
  · split at h
    · cases h
    · cases h
      exact ⟨_, rfl⟩

/-- What `generic_queue_notify` has done when it returns: the entry is ready again, and either
its read has been checked and counted or its write has been counted and offered to the
watermark. -/
theorem genericQueueNotify_ok {config : Config} {worker worker' : IoWorker}
    {workload workload' : IoWorkload} {queue queue' : AsyncQueue} {i : ℕ} {now : AprTime}
    (h : genericQueueNotify config worker workload queue i now = .ok (worker', workload', queue')) :
    queue' = (queue.setRequest i ((queue.ioaqes i).request.setCompleted now)).release i ∧
      ((queue.ioaqes i).callback = .readComplete ∧
        (∃ n, checkBuffer config.writeRandom (queue.ioaqes i).request
          worker.lastIntegrityWrittenOffset = .ok n) ∧
        worker' = worker ∧
        workload' = { workload with
          read := workload.read.record (now - (queue.ioaqes i).request.preSubmission)
            (queue.ioaqes i).request.size } ∨
      (queue.ioaqes i).callback = .writeComplete ∧
        worker' = worker.advance (queue.ioaqes i).request ∧
        workload' = { workload with
          write := workload.write.record (now - (queue.ioaqes i).request.preSubmission)
            (queue.ioaqes i).request.size }) := by
  simp only [genericQueueNotify] at h
  split at h
  · cases h
  · rename_i hcallback
    split at h
    · cases h
    · rename_i hread
      obtain ⟨hcheck, hresult⟩ := readComplete_ok_iff.mp hread
      cases hresult
      cases h
      exact ⟨rfl, Or.inl ⟨hcallback, hcheck, rfl, rfl⟩⟩
  · rename_i hcallback
    cases h
    exact ⟨rfl, Or.inr ⟨hcallback, rfl, rfl⟩⟩

/-- A completion changes nothing of an entry but the time of its completion. -/
theorem notified_entry (queue : AsyncQueue) (i : ℕ) (now : AprTime) (j : ℕ) :
    ∃ now', ((queue.setRequest i ((queue.ioaqes i).request.setCompleted now)).release i).ioaqes j =
      ⟨(queue.ioaqes j).request.setCompleted now', (queue.ioaqes j).callback⟩ := by
  rw [AsyncQueue.release_ioaqes]
  by_cases hj : j = i
  · subst hj
    exact ⟨now, by rw [AsyncQueue.setRequest_self]⟩
  · exact ⟨(queue.ioaqes j).request.completed, by rw [AsyncQueue.setRequest_of_ne _ _ _ hj]; rfl⟩

/-- `generic_queue_notify` for a write. -/
theorem genericQueueNotify_of_write {config : Config} {worker : IoWorker} {workload : IoWorkload}
    {queue : AsyncQueue} {i : ℕ} {now : AprTime}
    (hcallback : (queue.ioaqes i).callback = .writeComplete) :
    genericQueueNotify config worker workload queue i now =
      .ok (worker.advance (queue.ioaqes i).request,
        { workload with
          write := workload.write.record (now - (queue.ioaqes i).request.preSubmission)
            (queue.ioaqes i).request.size },
        (queue.setRequest i ((queue.ioaqes i).request.setCompleted now)).release i) := by
  simp only [genericQueueNotify, hcallback]
  rfl

/-- `generic_queue_notify` for a read that `read_complete` accepts. -/
theorem genericQueueNotify_of_read {config : Config} {worker : IoWorker} {workload : IoWorkload}
    {queue : AsyncQueue} {i : ℕ} {now : AprTime} {request : IoRequest} {workload' : IoWorkload}
    (hcallback : (queue.ioaqes i).callback = .readComplete)
    (hread : readComplete config.writeRandom worker workload (queue.ioaqes i).request now =
      .ok (request, workload')) :
    genericQueueNotify config worker workload queue i now =
      .ok (worker, workload', (queue.setRequest i request).release i) := by
  simp only [genericQueueNotify, hcallback, hread]

/-- `generic_queue_notify` ends the process when `read_complete` does. -/
theorem genericQueueNotify_of_error {config : Config} {worker : IoWorker} {workload : IoWorkload}
    {queue : AsyncQueue} {i : ℕ} {now : AprTime} {output : String}
    (hcallback : (queue.ioaqes i).callback = .readComplete)
    (hread : readComplete config.writeRandom worker workload (queue.ioaqes i).request now =
      .error output) :
    genericQueueNotify config worker workload queue i now = .error (.integrityError output) := by
  simp only [genericQueueNotify, hcallback, hread]

/-- `generic_queue_notify` does not return when the callback is null, or when `read_complete`
finds a sector without the pattern. -/
theorem genericQueueNotify_error {config : Config} {worker : IoWorker} {workload : IoWorkload}
    {queue : AsyncQueue} {i : ℕ} {now : AprTime} {reason : Halt}
    (h : genericQueueNotify config worker workload queue i now = .error reason) :
    (queue.ioaqes i).callback = .null ∧ reason = .trap ∨
      (queue.ioaqes i).callback = .readComplete ∧ ∃ output, reason = .integrityError output ∧
        readComplete config.writeRandom worker workload (queue.ioaqes i).request now =
          .error output := by
  simp only [genericQueueNotify] at h
  split at h
  · rename_i hcallback
    cases h
    exact Or.inl ⟨hcallback, rfl⟩
  · rename_i hcallback
    split at h
    · rename_i output hread
      cases h
      exact Or.inr ⟨hcallback, output, rfl, hread⟩
    · cases h
  · cases h

theorem genericQueueNotify_error_ne_sentinel {config : Config} {worker : IoWorker}
    {workload : IoWorkload} {queue : AsyncQueue} {i : ℕ} {now : AprTime} {reason : Halt}
    (h : genericQueueNotify config worker workload queue i now = .error reason) :
    reason ≠ .sentinel := by
  rcases genericQueueNotify_error h with ⟨_, rfl⟩ | ⟨_, output, rfl, _⟩
  · decide
  · exact fun heq => by cases heq

/-- `generic_queue_notify` returns unless the callback is null or `read_complete` reaches a sector
without the pattern. -/
theorem genericQueueNotify_error_iff {config : Config} {worker : IoWorker} {workload : IoWorkload}
    {queue : AsyncQueue} {i : ℕ} {now : AprTime} :
    (∃ reason, genericQueueNotify config worker workload queue i now = .error reason) ↔
      (queue.ioaqes i).callback = .null ∨
        (queue.ioaqes i).callback = .readComplete ∧ ∃ k, k < (queue.ioaqes i).request.sectors ∧
          (∀ j, j ≤ k → (queue.ioaqes i).request.sectorOff j < worker.lastIntegrityWrittenOffset) ∧
          ¬CarriesPattern config.writeRandom ((queue.ioaqes i).request.sectorOff k)
            (WordMemory.block 64 (queue.ioaqes i).request.buf k) := by
  constructor
  · rintro ⟨reason, h⟩
    obtain ⟨hcallback, _⟩ | ⟨hcallback, output, _, hread⟩ := genericQueueNotify_error h
    · exact Or.inl hcallback
    · exact Or.inr ⟨hcallback, readComplete_error_iff.mp ⟨output, hread⟩⟩
  · rintro (hcallback | ⟨hcallback, hsector⟩)
    · exact ⟨.trap, by simp only [genericQueueNotify, hcallback]⟩
    · obtain ⟨output, hread⟩ := (@readComplete_error_iff config.writeRandom worker workload
        (queue.ioaqes i).request now).mpr hsector
      exact ⟨_, genericQueueNotify_of_error hcallback hread⟩

end DiskBench
