import DiskBench.IoLimit
import DiskBench.Progress

/-!
# The preparation of the files

The first phase of `main` with `create_worker`, `open_worker` and the admission test of
`run_tests`, for one worker. A file that has been truncated at open is written from its start, an
existing file is read when `-v` asks for its validation.
-/

namespace DiskBench

open Transition Coverage Acknowledgement

variable {config : Config}

/-- `create_worker`; the fields that are not set are cleared. -/
def createWorker (bufsize filesize iolimit : UInt64) : IoWorker where
  filesize := filesize
  bufsize := bufsize
  iolimit := iolimit
  configuredIolimit := iolimit
  lastIntegrityWrittenOffset := 0
  randomSeed := 88172645463325252
  truncateFile := false

/-- `open_worker` with the results of the platform's `file_open`: the size of the file and
whether the file has been truncated to it. -/
def openWorker (worker : IoWorker) (length : UInt64) (truncated : Bool) : IoWorker :=
  { worker with filesize := length, truncateFile := truncated }

/-- The choice of `main` for a worker: its limit and the generator of the workload that prepares
its file, if there is one. -/
def prepareWorker (validateExisting : Bool) (worker : IoWorker) :
    IoWorker × Option SequentialData :=
  if worker.truncateFile then
    ({ worker with iolimit := worker.filesize }, some (sequentialFactory true))
  else if validateExisting then
    ({ worker with iolimit := worker.filesize }, some (sequentialFactory false))
  else (worker, none)

/-- The queue depth that `main` puts into `queue_depth_array_create`. -/
def creationDepth : Int32 := 2

/-- The test of `run_tests` that every part of the buffer holds a request of the largest size. -/
def admits (config : Config) (worker : IoWorker) (depth : Int32) (maxIoSize : UInt64) : Bool :=
  let bufsize := worker.bufsize / depth.toInt64.toUInt64
  let bufsize := bufsize - bufsize % config.pageSize
  !(maxIoSize > bufsize)

/-- What `run_tests` starts the thread of the worker with, when it starts it at all. The queue is
created without an error of the platform. -/
def preparation (config : Config) (validateExisting : Bool) (worker : IoWorker) (reqsize : UInt64)
    (maxPreparationTime : AprTime) (memory : ℕ → Memory) (now : AprTime) :
    Option (Launch GeneratorData) :=
  let prepared := prepareWorker validateExisting worker
  match prepared.2 with
  | none => none
  | some template =>
    let data := GeneratorData.sequential (sequentialReset template reqsize)
    if admits config prepared.1 creationDepth (workloads.maxIoSize data) then
      some {
        generator := data
        queueDepth := creationDepth
        filesize := prepared.1.filesize
        iolimit := prepared.1.iolimit
        maxExecutionTime := maxPreparationTime
        memory := memory
        created := true
        now := now }
    else none

/-- The worker at the start of its thread, with the given content of its file. -/
def preparing (config : Config) (worker : IoWorker) (disk : Memory) (l : Launch GeneratorData) :
    IoState GeneratorData :=
  (IoState.initial worker l.generator disk).launch config l

/-- The end of the preparation in `main`: a file that has been created gets the size that the
bytes written say. -/
def finishPreparation (worker : IoWorker) (workload : IoWorkload) : IoWorker :=
  if worker.truncateFile then
    { worker with filesize := workload.write.bytes, iolimit := worker.configuredIolimit }
  else worker

@[simp] theorem prepareWorker_truncateFile (validateExisting : Bool) (worker : IoWorker) :
    (prepareWorker validateExisting worker).1.truncateFile = worker.truncateFile := by
  unfold prepareWorker
  split
  · rfl
  · split <;> rfl

@[simp] theorem finishPreparation_truncateFile (worker : IoWorker) (workload : IoWorkload) :
    (finishPreparation worker workload).truncateFile = worker.truncateFile := by
  unfold finishPreparation
  split <;> rfl

/-- A preparation goes over the file once in one direction, with a limit of the size of the file,
and its requests fit into half of the buffer. -/
theorem preparation_spec {validateExisting : Bool} {worker : IoWorker} {reqsize : UInt64}
    {time : AprTime} {memory : ℕ → Memory} {now : AprTime} {l : Launch GeneratorData}
    (h : preparation config validateExisting worker reqsize time memory now = some l) :
    l.generator = .sequential (sequentialReset (sequentialFactory worker.truncateFile) reqsize) ∧
      l.queueDepth = 2 ∧ l.filesize = worker.filesize ∧ l.iolimit = worker.filesize ∧
      l.created = true ∧ admits config worker 2 reqsize = true := by
  unfold preparation prepareWorker at h
  cases htruncate : worker.truncateFile with
  | true =>
    simp only [htruncate, if_true, Option.ite_none_right_eq_some, Option.some.injEq] at h
    obtain ⟨hadmits, rfl⟩ := h
    exact ⟨rfl, rfl, rfl, rfl, rfl, hadmits⟩
  | false =>
    cases validateExisting with
    | true =>
      simp only [htruncate, Bool.false_eq_true, if_false, if_true, Option.ite_none_right_eq_some,
        Option.some.injEq] at h
      obtain ⟨hadmits, rfl⟩ := h
      exact ⟨rfl, rfl, rfl, rfl, rfl, hadmits⟩
    | false =>
      simp only [htruncate, Bool.false_eq_true, if_false] at h
      cases h

/-- Rounding down to whole pages does not wrap. -/
theorem toNat_sub_mod (size pageSize : UInt64) :
    (size - size % pageSize).toNat = size.toNat - size.toNat % pageSize.toNat := by
  have hmod : size % pageSize ≤ size := by
    rw [UInt64.le_iff_toNat_le, UInt64.toNat_mod]
    exact Nat.mod_le _ _
  rw [UInt64.toNat_sub_of_le _ _ hmod, UInt64.toNat_mod]

/-- The test in exact integers. -/
theorem admits_iff {worker : IoWorker} {depth : Int32} {maxIoSize : UInt64} :
    admits config worker depth maxIoSize = true ↔
      maxIoSize.toNat ≤ worker.bufsize.toNat / depth.toInt64.toUInt64.toNat -
        worker.bufsize.toNat / depth.toInt64.toUInt64.toNat % config.pageSize.toNat := by
  rw [← UInt64.toNat_div, ← toNat_sub_mod, ← UInt64.le_iff_toNat_le]
  simp [admits]

/-- An admitted request fits into the whole pages of half of the buffer. -/
theorem admits_le {worker : IoWorker} {reqsize : UInt64}
    (h : admits config worker 2 reqsize = true) :
    reqsize.toNat + (worker.bufsize / 2 % config.pageSize).toNat ≤ (worker.bufsize / 2).toNat := by
  have hdepth : (2 : Int32).toInt64.toUInt64.toNat = 2 := by decide
  have hhalf : (worker.bufsize / 2).toNat = worker.bufsize.toNat / 2 := UInt64.toNat_div _ _
  rw [admits_iff, hdepth] at h
  rw [UInt64.toNat_mod, hhalf]
  have := Nat.mod_le (worker.bufsize.toNat / 2) config.pageSize.toNat
  omega

/-- Two admitted requests fit into the buffer. -/
theorem admits_two_mul {worker : IoWorker} {reqsize : UInt64}
    (h : admits config worker 2 reqsize = true) : 2 * reqsize.toNat < 2 ^ 64 := by
  have hle := admits_le h
  have hlt := worker.bufsize.toNat_lt
  have hhalf : (worker.bufsize / 2).toNat = worker.bufsize.toNat / 2 := UInt64.toNat_div _ _
  omega

/-- When a request of at least one byte is admitted, half of the buffer holds a page, so the
creation of the queue succeeds. -/
theorem admits_create {worker : IoWorker} {reqsize : UInt64} {memory : ℕ → Memory}
    (h : admits config worker 2 reqsize = true) (hpos : 0 < reqsize.toNat) :
    ∃ queue, genericQueueCreate config worker 2 memory = .ok queue := by
  have hdepth : (2 : Int64).toUInt64 = 2 := by decide
  have hle := admits_le h
  have hpage : ¬worker.bufsize / 2 < config.pageSize := by
    intro hlt
    rw [UInt64.toNat_mod, Nat.mod_eq_of_lt (UInt64.lt_iff_toNat_lt.mp hlt)] at hle
    omega
  simp [genericQueueCreate, hdepth, hpage]

/-- The thread of an admitted preparation comes to its loop, unless its requests are empty. -/
theorem preparation_launch {validateExisting : Bool} {worker : IoWorker} {reqsize : UInt64}
    {time : AprTime} {memory : ℕ → Memory} {now : AprTime} {l : Launch GeneratorData}
    {disk : Memory}
    (h : preparation config validateExisting worker reqsize time memory now = some l) :
    ∃ s, s = IoState.initial worker l.generator disk ∧
      ((∃ queue, genericQueueCreate config s.worker l.queueDepth l.memory = .ok queue ∧
        preparing config worker disk l = s.start l queue) ∨
      reqsize = 0 ∧ ∃ reason, preparing config worker disk l = s.halt reason) := by
  obtain ⟨_, hdepth, _, _, hcreated, hadmits⟩ := preparation_spec h
  obtain ⟨s, hs⟩ : ∃ s, s = IoState.initial worker l.generator disk := ⟨_, rfl⟩
  have hworker : s.worker = worker := by rw [hs]; rfl
  refine ⟨s, hs, ?_⟩
  rw [preparing, ← hs, IoState.launch]
  cases hcreate : genericQueueCreate config s.worker l.queueDepth l.memory with
  | ok queue => exact Or.inl ⟨queue, rfl, by simp [hcreated]⟩
  | error reason =>
    refine Or.inr ⟨?_, reason, rfl⟩
    by_contra hne
    have hpos : 0 < reqsize.toNat := Nat.pos_of_ne_zero fun hzero => hne (UInt64.toNat_inj.mp hzero)
    obtain ⟨queue, hok⟩ := @admits_create _ _ _ l.memory hadmits hpos
    rw [hdepth, hworker, hok] at hcreate
    cases hcreate

end DiskBench
