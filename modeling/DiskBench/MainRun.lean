import DiskBench.FileOpen
import DiskBench.TestRows

/-!
# The phases of `main`

From the options to the start of the tests: the workers and their buffers, the opening of the
files, the request size of the creation, the preparation, and the end of the program. What the
threads of a test leave of a worker is given by `ThreadOutcome`.
-/

namespace DiskBench

/-- One `file;filesize;iolimit` of `-f`, with 0 for what is omitted. -/
structure FileArgument where
  filesize : UInt64
  iolimit : UInt64

/-- The options that say which workers there are. -/
inductive MainOption where
  /-- `-b`. -/
  | bufsize (size : UInt64)
  /-- `-f`. -/
  | files (arguments : List FileArgument)

/-- The variables of `main` that these options set. -/
structure Parsed where
  iobufsize : UInt64
  workers : List IoWorker

/-- The worker that `main` creates for a file. -/
def FileArgument.createWorker (iobufsize : UInt64) (argument : FileArgument) : IoWorker :=
  DiskBench.createWorker iobufsize argument.filesize
    (if argument.iolimit > 0 then argument.iolimit else 0 - 1)

/-- The variables after one more option. -/
def Parsed.next (parsed : Parsed) : MainOption → Parsed
  | .bufsize size => { parsed with iobufsize := size }
  | .files arguments =>
    { parsed with
      workers := parsed.workers ++ arguments.map (FileArgument.createWorker parsed.iobufsize) }

/-- 32 MiB. -/
def defaultBufsize : UInt64 := 32 * 1024 * 1024

/-- The variables after all options, with the default worker when there is no other. -/
def parseOptions (options : List MainOption) : Parsed :=
  let parsed := options.foldl Parsed.next ⟨defaultBufsize, []⟩
  if parsed.workers.isEmpty then
    { parsed with workers := [createWorker defaultBufsize 0 (0 - 1)] }
  else parsed

/-- The loop that halves `reqsize_create`, with a bound on its passes. -/
def halveLoop (iobufsize : UInt64) (sectorSize : UInt32) (nelts : ℕ) : ℕ → UInt64 → UInt64
  | 0, reqsize => reqsize
  | n + 1, reqsize =>
    if reqsize > sectorSize.toUInt64 ∧ reqsize * UInt64.ofNat nelts > iobufsize then
      halveLoop iobufsize sectorSize nelts n (reqsize / 2)
    else reqsize

/-- `reqsize_create`. -/
def reqsizeCreate (iobufsize : UInt64) (sectorSize : UInt32) (nelts : ℕ) : UInt64 :=
  halveLoop iobufsize sectorSize nelts 64 (iobufsize / 2)

/-- The length that `main` asks for when it opens a worker; `first` is the size of the first file
once it is open. -/
def requestedLength (first : Option UInt64) (worker : IoWorker) : UInt64 :=
  match first with
  | none => worker.filesize
  | some size => if worker.filesize = 0 then size else worker.filesize

/-- The loop of `main` that opens the workers. `openFile` opens the next file for a requested
length. -/
def openWorkers {σ : Type} (openFile : σ → UInt64 → Opened × σ) (first : Option UInt64) :
    List IoWorker → σ → List IoWorker × σ
  | [], system => ([], system)
  | worker :: workers, system =>
    let opened := openFile system (requestedLength first worker)
    let worker := openWorker worker opened.1.length opened.1.fileTruncated
    let rest := openWorkers openFile (some (first.getD worker.filesize)) workers opened.2
    (worker :: rest.1, rest.2)

/-- What the threads that have run for a worker leave: its random seed, its watermark and the
counters of its workload. -/
structure ThreadOutcome where
  randomSeed : UInt64
  lastIntegrityWrittenOffset : UInt64
  workload : IoWorkload

/-- The worker after its threads. -/
def IoWorker.after (worker : IoWorker) (outcome : ThreadOutcome) : IoWorker :=
  { worker with
    randomSeed := outcome.randomSeed
    lastIntegrityWrittenOffset := outcome.lastIntegrityWrittenOffset }

@[simp] theorem after_truncateFile (worker : IoWorker) (outcome : ThreadOutcome) :
    (worker.after outcome).truncateFile = worker.truncateFile := rfl

/-- What a thread keeps is what all outcomes have in common. -/
theorem sameSettings_iff {worker worker' : IoWorker} (workload : IoWorkload) :
    worker.SameSettings worker' ↔
      ∃ outcome, outcome.workload = workload ∧ worker' = worker.after outcome := by
  constructor
  · rintro ⟨h1, h2, h3, h4, h5⟩
    refine ⟨⟨worker'.randomSeed, worker'.lastIntegrityWrittenOffset, workload⟩, rfl, ?_⟩
    cases worker
    cases worker'
    simp_all [IoWorker.after]
  · rintro ⟨outcome, _, rfl⟩
    exact ⟨rfl, rfl, rfl, rfl, rfl⟩

/-- The outcome of a run of the worker thread. -/
theorem exists_outcome_of_exec {γ : Type} {config : Config} {G : Generator γ} {s t : IoState γ}
    {as : List (Action γ)} (hrun : Transition.exec (step config G) s as = some t)
    (hduring : Transition.Along (step config G) (DuringWorkload config) s as) :
    ∃ outcome, outcome.workload = t.workload ∧ t.worker = s.worker.after outcome :=
  (sameSettings_iff t.workload).mp (.of_exec hrun hduring)

/-- The fields of `struct io_worker_options` that the phases of `main` use. -/
structure Options where
  maxExecutionTime : AprTime
  maxPreparationTime : AprTime
  validateExisting : Bool
  keepFiles : Bool

/-- The options after the loop that prepares the workers. -/
def enterPreparation (options : Options) (workers : List IoWorker) : Options :=
  workers.foldl (fun options _ =>
    { options with maxExecutionTime := options.maxPreparationTime }) options

/-- The options after the loop that ends the preparation. -/
def leavePreparation (maxExecutionTime : AprTime) (options : Options) (workers : List IoWorker) :
    Options :=
  workers.foldl (fun options _ => { options with maxExecutionTime := maxExecutionTime }) options

/-- A worker from the opening of its file to the start of the tests. -/
def prepareFile (options : Options) (worker : IoWorker) (outcome : ThreadOutcome) : IoWorker :=
  finishPreparation ((prepareWorker options.validateExisting worker).1.after outcome)
    outcome.workload

/-- The workers at the start of the tests. -/
def prepareFiles (options : Options) (workers : List IoWorker) (outcomes : ℕ → ThreadOutcome) :
    List IoWorker :=
  workers.mapIdx fun i worker => prepareFile options worker (outcomes i)

/-- The options at the start of the tests. -/
def preparedOptions (options : Options) (workers : List IoWorker) : Options :=
  leavePreparation options.maxExecutionTime (enterPreparation options workers) workers

/-- A worker after the tests. -/
def IoWorker.tested (worker : IoWorker) (outcomes : List ThreadOutcome) : IoWorker :=
  outcomes.foldl IoWorker.after worker

/-- Whether `destroy_workers` removes the file of a worker. -/
def destroyRemoves (options : Options) (worker : IoWorker) : Bool :=
  worker.truncateFile && !options.keepFiles

/-- A worker that has been created has its limit from the options. -/
theorem parseOptions_iolimit {arguments : List MainOption} :
    ∀ worker ∈ (parseOptions arguments).workers, worker.iolimit = worker.configuredIolimit := by
  have hnext : ∀ (arguments : List MainOption) (parsed : Parsed),
      (∀ worker ∈ parsed.workers, worker.iolimit = worker.configuredIolimit) →
      ∀ worker ∈ (arguments.foldl Parsed.next parsed).workers,
        worker.iolimit = worker.configuredIolimit := by
    intro arguments
    induction arguments with
    | nil => exact fun _ h => h
    | cons argument arguments ih =>
      intro parsed h
      apply ih
      cases argument with
      | bufsize size => exact h
      | files files =>
        intro worker hworker
        rcases List.mem_append.mp hworker with hmem | hmem
        · exact h worker hmem
        · obtain ⟨file, _, rfl⟩ := List.mem_map.mp hmem
          rfl
  unfold parseOptions
  dsimp only
  split
  · intro worker hworker
    obtain rfl := List.mem_singleton.mp hworker
    rfl
  · exact hnext arguments _ (fun worker hworker => by cases hworker)

/-- The opening of the files keeps what the opening of a worker keeps. -/
theorem openWorkers_forall {σ : Type} {openFile : σ → UInt64 → Opened × σ} {P : IoWorker → Prop}
    (hopen : ∀ worker length fileTruncated, P worker → P (openWorker worker length fileTruncated))
    {first : Option UInt64} {workers : List IoWorker} {system : σ}
    (h : ∀ worker ∈ workers, P worker) :
    ∀ worker ∈ (openWorkers openFile first workers system).1, P worker := by
  induction workers generalizing first system with
  | nil => exact h
  | cons worker workers ih =>
    intro worker' hworker'
    rw [openWorkers] at hworker'
    rcases List.mem_cons.mp hworker' with rfl | hmem
    · exact hopen _ _ _ (h worker List.mem_cons_self)
    · exact ih (fun worker hworker => h worker (List.mem_cons_of_mem _ hworker)) worker' hmem

/-- A worker has its limit again after its preparation, unless a file that has not been resized
has been validated with another limit. -/
theorem prepareFile_iolimit_iff {options : Options} {worker : IoWorker} {outcome : ThreadOutcome}
    (h : worker.iolimit = worker.configuredIolimit) :
    (prepareFile options worker outcome).iolimit =
        (prepareFile options worker outcome).configuredIolimit ↔
      options.validateExisting = false ∨ worker.truncateFile = true ∨
        worker.filesize = worker.configuredIolimit := by
  cases htruncate : worker.truncateFile with
  | true =>
    simp [prepareFile, prepareWorker, finishPreparation, IoWorker.after, htruncate]
  | false =>
    cases hvalidate : options.validateExisting with
    | true =>
      simp [prepareFile, prepareWorker, finishPreparation, IoWorker.after, htruncate, hvalidate]
    | false =>
      simp [prepareFile, prepareWorker, finishPreparation, IoWorker.after, htruncate, hvalidate, h]

/-- The execution time is restored for any workers. -/
theorem preparedOptions_maxExecutionTime (options : Options) (workers : List IoWorker) :
    (preparedOptions options workers).maxExecutionTime = options.maxExecutionTime := by
  have hleave : ∀ (workers : List IoWorker) (time : AprTime) (options : Options),
      options.maxExecutionTime = time ∨ workers ≠ [] →
        (leavePreparation time options workers).maxExecutionTime = time := by
    intro workers time
    induction workers with
    | nil => exact fun options h => h.resolve_right fun hne => hne rfl
    | cons worker workers ih => exact fun options _ => ih _ (Or.inl rfl)
  cases workers with
  | nil => rfl
  | cons worker workers => exact hleave _ _ _ (Or.inr (by simp))

/-- **The configured limits.** For all options, files and outcomes of the preparation: at the start
of the tests every worker has its configured limit and the configured execution time, exactly when
no existing file is validated whose size is not that limit. -/
theorem limits_restored_iff {σ : Type} (options : Options) (arguments : List MainOption)
    (openFile : σ → UInt64 → Opened × σ) (system : σ) (outcomes : ℕ → ThreadOutcome) :
    (∀ worker ∈ prepareFiles options
        (openWorkers openFile none (parseOptions arguments).workers system).1 outcomes,
      worker.iolimit = worker.configuredIolimit) ∧
      (preparedOptions options
        (openWorkers openFile none (parseOptions arguments).workers system).1).maxExecutionTime =
          options.maxExecutionTime ↔
      options.validateExisting = false ∨
        ∀ worker ∈ (openWorkers openFile none (parseOptions arguments).workers system).1,
          worker.truncateFile = true ∨ worker.filesize = worker.configuredIolimit := by
  have hopened : ∀ worker ∈ (openWorkers openFile none (parseOptions arguments).workers system).1,
      worker.iolimit = worker.configuredIolimit :=
    openWorkers_forall (fun _ _ _ h => h) parseOptions_iolimit
  revert hopened
  generalize (openWorkers openFile none (parseOptions arguments).workers system).1 = workers
  intro hopened
  rw [preparedOptions_maxExecutionTime, and_iff_left rfl]
  constructor
  · intro h
    by_cases hvalidate : options.validateExisting = false
    · exact Or.inl hvalidate
    · refine Or.inr fun worker hworker => ?_
      obtain ⟨i, hi, rfl⟩ := List.mem_iff_getElem.mp hworker
      exact ((prepareFile_iolimit_iff (hopened _ hworker)).mp
        (h _ (List.mem_mapIdx.mpr ⟨i, hi, rfl⟩))).resolve_left hvalidate
  · rintro h worker hworker
    obtain ⟨i, hi, rfl⟩ := List.mem_mapIdx.mp hworker
    exact (prepareFile_iolimit_iff (hopened _ (List.getElem_mem hi))).mpr
      (h.imp_right fun h => h _ (List.getElem_mem hi))

/-- A file on Linux beside 1 GiB of free space. -/
def openLinuxFile (file : Option UInt64) (_ : Unit) (length : UInt64) : Opened × Unit :=
  ((linuxFileOpen 4096 (.exact 1) (.succeed 1073741824) file length).getD ⟨0, false⟩, ())

/-- `-v -f a.dat;4096` for a file of that length: the tests stop after 4096 bytes, and not at the
limit of the options, which is none. -/
theorem limit_overwritten :
    ((prepareFiles ⟨30000000, 300000000, true, false⟩
      (openWorkers (openLinuxFile (some 4096)) none
        (parseOptions [.files [⟨4096, 0⟩]]).workers ()).1
      fun _ => ⟨1, 0, ⟨0, .zero, .zero, 0, 0, 2, 1⟩⟩).map fun worker =>
        (worker.iolimit, worker.configuredIolimit)) = [(4096, 0 - 1)] := by
  decide

end DiskBench
