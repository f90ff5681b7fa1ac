import Mathlib.Algebra.Order.Ring.Rat
import DiskBench.MainRun

/-!
# The request size of the creation

`main` halves the buffer size of the last `-b` until requests of all workers fit into one buffer,
and `run_tests` compares the result with the whole pages of half of each buffer. When a buffer has
no room no thread is started, and the new files are cut to no length.
-/

namespace DiskBench

open ForLoop

/-- `prepare_workload` for each of the workers, with the workload that prepares its file. -/
def preparationWorkloads (validateExisting : Bool) (reqsize : UInt64) (workers : List IoWorker) :
    List TestWorker :=
  workers.map fun worker =>
    let prepared := prepareWorker validateExisting worker
    prepareWorkload prepared.1 (prepared.2.map fun template => .sequential template.write)
      [reqsize] [2]

/-- Each new file gets a thread that writes it. -/
def CreationStarts (config : Config) (validateExisting : Bool) (reqsize : UInt64)
    (workers : List IoWorker) : Prop :=
  ∀ (measured : Measured ℚ) options fuel, 1 ≤ fuel → ∀ worker ∈ workers,
    worker.truncateFile = true →
      ∃ test ∈ (runTests config options (preparationWorkloads validateExisting reqsize workers)
          measured none fuel).state.tests,
        ∃ thread ∈ test.threads, thread.worker = (prepareWorker validateExisting worker).1 ∧
          thread.generator = .sequential (sequentialReset (sequentialFactory true) reqsize) ∧
          thread.queueDepth = creationDepth

section Size

variable {bufsize : UInt64} {sectorSize : UInt32} {nelts : ℕ}

/-- The loop halves a size that is more than a sector and more than a part of the buffer. -/
def Halves (bufsize : UInt64) (sectorSize : UInt32) (nelts : ℕ) (reqsize : UInt64) : Prop :=
  reqsize > sectorSize.toUInt64 ∧ reqsize * UInt64.ofNat nelts > bufsize

theorem toNat_half (reqsize : UInt64) : (reqsize / 2).toNat = reqsize.toNat / 2 :=
  UInt64.toNat_div _ _

instance (reqsize : UInt64) : Decidable (Halves bufsize sectorSize nelts reqsize) :=
  inferInstanceAs (Decidable (_ ∧ _))

/-- The loop ends within as many passes as the size has bits. -/
theorem halveLoop_ends {n : ℕ} {reqsize : UInt64} (h : reqsize.toNat < 2 ^ n) :
    ¬Halves bufsize sectorSize nelts (halveLoop bufsize sectorSize nelts n reqsize) := by
  induction n generalizing reqsize with
  | zero =>
    rintro ⟨hsector, _⟩
    have hlt : sectorSize.toUInt64.toNat < reqsize.toNat := UInt64.lt_iff_toNat_lt.mp hsector
    omega
  | succ n ih =>
    rw [halveLoop]
    split
    · apply ih
      rw [toNat_half]
      rw [Nat.pow_succ] at h
      omega
    · rename_i hends
      exact hends

/-- It leaves the size as it is, or at most half of it. -/
theorem halveLoop_le (n : ℕ) (reqsize : UInt64) :
    (halveLoop bufsize sectorSize nelts n reqsize).toNat ≤ reqsize.toNat := by
  induction n generalizing reqsize with
  | zero => exact Nat.le_refl _
  | succ n ih =>
    rw [halveLoop]
    split
    · have hle := ih (reqsize / 2)
      rw [toNat_half] at hle
      omega
    · exact Nat.le_refl _

/-- The size that is left is positive, unless there are more workers than bytes in the buffer and
the sectors have no size. -/
theorem halveLoop_eq_zero_iff {n : ℕ} {reqsize : UInt64} (hn : reqsize.toNat < 2 ^ n)
    (hpos : 0 < reqsize.toNat) (hle : reqsize ≤ bufsize) (hnelts : nelts < 2 ^ 31) :
    halveLoop bufsize sectorSize nelts n reqsize = 0 ↔
      sectorSize = 0 ∧ bufsize.toNat < nelts := by
  have hword : (UInt64.ofNat nelts).toNat = nelts := by
    rw [UInt64.toNat_ofNat', Nat.mod_eq_of_lt (by omega)]
  induction n generalizing reqsize with
  | zero => omega
  | succ n ih =>
    have hle' := UInt64.le_iff_toNat_le.mp hle
    rw [halveLoop]
    split
    · rename_i hguard
      by_cases hone : reqsize.toNat = 1
      · have hsector : sectorSize.toUInt64.toNat < reqsize.toNat :=
          UInt64.lt_iff_toNat_lt.mp hguard.1
        have hmul := UInt64.lt_iff_toNat_lt.mp hguard.2
        obtain rfl : reqsize = 1 := UInt64.toNat_inj.mp hone
        rw [UInt64.one_mul, hword] at hmul
        have hend := @halveLoop_le bufsize sectorSize nelts n (1 / 2)
        have hzero : sectorSize = 0 := by
          rw [UInt32.toNat_toUInt64] at hsector
          exact UInt32.toNat_inj.mp (by simpa using by omega)
        exact ⟨fun _ => ⟨hzero, hmul⟩, fun _ => UInt64.toNat_inj.mp (Nat.le_zero.mp hend)⟩
      · apply ih
        · rw [toNat_half]
          rw [Nat.pow_succ] at hn
          omega
        · rw [toNat_half]
          omega
        · rw [UInt64.le_iff_toNat_le, toNat_half]
          omega
    · rename_i hends
      constructor
      · rintro rfl
        exact absurd hpos (by decide)
      · -- Without a size of the sectors and with that many workers the loop goes on.
        rintro ⟨rfl, hlt⟩
        refine absurd ⟨UInt64.lt_iff_toNat_lt.mpr hpos, ?_⟩ hends
        have hsmall : reqsize.toNat * nelts < 2 ^ 64 :=
          (Nat.mul_lt_mul'' (by omega : reqsize.toNat < 2 ^ 31) hnelts).trans (by decide)
        rw [gt_iff_lt, UInt64.lt_iff_toNat_lt, UInt64.toNat_mul, hword, Nat.mod_eq_of_lt hsmall]
        exact hlt.trans_le (Nat.le_mul_of_pos_left _ hpos)

/-- A buffer of at least two pages has room for half of it when that is in whole pages, and for
what is left after the first halving. -/
theorem reqsizeCreate_le_iff {pageSize : ℕ} (hpage : 0 < pageSize)
    (hbufsize : 2 * pageSize ≤ bufsize.toNat) :
    (reqsizeCreate bufsize sectorSize nelts).toNat ≤
        bufsize.toNat / 2 - bufsize.toNat / 2 % pageSize ↔
      pageSize ∣ bufsize.toNat / 2 ∨ Halves bufsize sectorSize nelts (bufsize / 2) := by
  have hhalf := toNat_half bufsize
  have hmod := Nat.mod_lt (bufsize.toNat / 2) hpage
  have hdiv := Nat.div_add_mod (bufsize.toNat / 2) pageSize
  by_cases hhalves : Halves bufsize sectorSize nelts (bufsize / 2)
  · have hle := @halveLoop_le bufsize sectorSize nelts 63 (bufsize / 2 / 2)
    have hloop : reqsizeCreate bufsize sectorSize nelts =
        halveLoop bufsize sectorSize nelts 63 (bufsize / 2 / 2) := if_pos hhalves
    have hpages : 1 ≤ bufsize.toNat / 2 / pageSize :=
      (Nat.one_le_div_iff hpage).mpr (by omega)
    have hfirst := Nat.le_mul_of_pos_right pageSize hpages
    rw [toNat_half, hhalf] at hle
    rw [hloop, iff_true_right (Or.inr hhalves)]
    omega
  · have hloop : reqsizeCreate bufsize sectorSize nelts = bufsize / 2 := if_neg hhalves
    rw [hloop, hhalf, or_iff_left hhalves, Nat.dvd_iff_mod_eq_zero]
    omega

end Size

/-- The variables of `main` when `-b` comes before the files. -/
theorem parseOptions_bufsize_first (bufsizes : List UInt64) (files : List (List FileArgument)) :
    parseOptions (bufsizes.map .bufsize ++ files.map .files) =
      ⟨bufsizes.getLastD defaultBufsize,
        if files.flatten = [] then [createWorker defaultBufsize 0 (0 - 1)]
        else files.flatten.map (FileArgument.createWorker (bufsizes.getLastD defaultBufsize))⟩ := by
  have hbufsizes : ∀ (bufsizes : List UInt64) (bufsize : UInt64),
      (bufsizes.map MainOption.bufsize).foldl Parsed.next ⟨bufsize, []⟩ =
        ⟨bufsizes.getLastD bufsize, []⟩ := by
    intro bufsizes
    induction bufsizes with
    | nil => exact fun _ => rfl
    | cons bufsize' bufsizes ih =>
      intro bufsize
      rw [List.getLastD_cons]
      exact ih bufsize'
  have hfiles : ∀ (files : List (List FileArgument)) (parsed : Parsed),
      (files.map MainOption.files).foldl Parsed.next parsed =
        { parsed with workers := parsed.workers ++
            files.flatten.map (FileArgument.createWorker parsed.iobufsize) } := by
    intro files
    induction files with
    | nil => simp
    | cons arguments files ih =>
      intro parsed
      rw [List.map_cons, List.foldl_cons, ih]
      simp [Parsed.next]
  unfold parseOptions
  rw [List.foldl_append, hbufsizes, hfiles]
  cases files.flatten with
  | nil => rfl
  | cons argument arguments => rfl

/-- The preparation keeps the buffer. -/
theorem prepareWorker_bufsize (validateExisting : Bool) (worker : IoWorker) :
    (prepareWorker validateExisting worker).1.bufsize = worker.bufsize := by
  unfold prepareWorker
  split
  · rfl
  · split <;> rfl

/-- Room in all buffers is enough for the creation to start. -/
theorem creationStarts_of_admits {config : Config} {validateExisting : Bool} {reqsize : UInt64}
    {workers : List IoWorker}
    (hadmits : ∀ worker ∈ workers, admits config worker creationDepth reqsize = true) :
    CreationStarts config validateExisting reqsize workers := by
  intro measured options fuel hfuel worker hworker htruncate
  have hfits : ∀ w ∈ preparationWorkloads validateExisting reqsize workers, w.FirstFits config := by
    intro w hw workload hworkload
    obtain ⟨worker', hworker', rfl⟩ := List.mem_map.mp hw
    obtain ⟨factory, hfactory, rfl⟩ := Option.map_eq_some_iff.mp hworkload
    obtain ⟨template, _, rfl⟩ := Option.map_eq_some_iff.mp hfactory
    refine ⟨2, [], reqsize, [], _, rfl, rfl, rfl, by decide, ?_⟩
    have hroom := hadmits worker' hworker'
    rw [admits, ← prepareWorker_bufsize validateExisting worker'] at hroom
    exact hroom
  have htemplate : (prepareWorker validateExisting worker).2 = some (sequentialFactory true) := by
    rw [prepareWorker, if_pos htruncate]
  have hmem := List.mem_map_of_mem (f := fun worker => prepareWorkload
    (prepareWorker validateExisting worker).1 ((prepareWorker validateExisting worker).2.map
      fun template => Factory.sequential template.write) [reqsize] [2]) hworker
  obtain ⟨test, htest⟩ := List.exists_mem_of_ne_nil _
    (@runTests_first _ _ _ _ _ _ _ _ _ config options _ measured fuel hfuel none hfits
      ⟨_, hmem, by simp [prepareWorkload, htemplate]⟩)
  obtain ⟨thread, hthread, workload, depth, reqsize', hadmitted⟩ :=
    (runTests_started none fuel test htest).2 _ hmem (by simp [prepareWorkload, htemplate])
  obtain rfl : ⟨.sequential true, [reqsize], [2]⟩ = workload := by
    simpa [prepareWorkload, htemplate, sequentialFactory] using hadmitted.workload_eq
  have hreqsize : reqsize' = reqsize :=
    List.mem_singleton.mp (List.mem_of_getElem? hadmitted.reqsize_eq)
  have hdepth : depth = 2 := List.mem_singleton.mp (List.mem_of_getElem? hadmitted.depth_eq)
  refine ⟨test, htest, thread, hthread, hadmitted.worker_eq, ?_, ?_⟩
  · rw [← hreqsize]
    exact (Option.some.inj hadmitted.reset_eq).symm
  · rw [hadmitted.queueDepth_eq, hdepth]
    rfl

/-- The condition on the options, for the value `bufsize` of the last `-b` and the number of files:
the default worker has room for half of `bufsize`, or the half is in whole pages or is halved again;
and it is not halved to nothing. -/
def CreationFits (config : Config) (sectorSize : UInt32) (bufsize : UInt64) (nelts : ℕ) : Prop :=
  if nelts = 0 then
    bufsize.toNat / 2 ≤
      defaultBufsize.toNat / 2 - defaultBufsize.toNat / 2 % config.pageSize.toNat
  else
    (config.pageSize.toNat ∣ bufsize.toNat / 2 ∨ Halves bufsize sectorSize nelts (bufsize / 2)) ∧
      ¬(sectorSize = 0 ∧ bufsize.toNat < nelts)

instance (config : Config) (sectorSize : UInt32) (bufsize : UInt64) (nelts : ℕ) :
    Decidable (CreationFits config sectorSize bufsize nelts) :=
  inferInstanceAs (Decidable (ite _ _ _))

/-- The request size of the creation is positive and all buffers have room for it at the depth 2,
and whatever the opening of the files finds, the creation starts. -/
structure CreationTakesPlace (config : Config) (sectorSize : UInt32) (parsed : Parsed) : Prop where
  pos : 0 < reqsizeCreate parsed.iobufsize sectorSize parsed.workers.length
  room : ∀ worker ∈ parsed.workers, admits config worker creationDepth
    (reqsizeCreate parsed.iobufsize sectorSize parsed.workers.length) = true
  starts : ∀ {σ : Type} (openFile : σ → UInt64 → Opened × σ) (system : σ) validateExisting,
    CreationStarts config validateExisting
      (reqsizeCreate parsed.iobufsize sectorSize parsed.workers.length)
      (openWorkers openFile none parsed.workers system).1

/-- The last part follows from room in all buffers. -/
theorem creationTakesPlace_iff {config : Config} {sectorSize : UInt32} {parsed : Parsed}
    {bufsize : UInt64} (hworkers : parsed.workers ≠ [])
    (hbufsize : ∀ worker ∈ parsed.workers, worker.bufsize = bufsize) :
    CreationTakesPlace config sectorSize parsed ↔
      reqsizeCreate parsed.iobufsize sectorSize parsed.workers.length ≠ 0 ∧
      (reqsizeCreate parsed.iobufsize sectorSize parsed.workers.length).toNat ≤
        bufsize.toNat / 2 - bufsize.toNat / 2 % config.pageSize.toNat := by
  have hdepth : creationDepth.toInt64.toUInt64.toNat = 2 := by decide
  have hadmits : ∀ (worker : IoWorker) (reqsize : UInt64), worker.bufsize = bufsize →
      (admits config worker creationDepth reqsize = true ↔ reqsize.toNat ≤
        bufsize.toNat / 2 - bufsize.toNat / 2 % config.pageSize.toNat) := by
    intro worker reqsize hworker
    rw [admits_iff, hdepth, hworker]
  constructor
  · intro h
    obtain ⟨worker, hworker⟩ := List.exists_mem_of_ne_nil _ hworkers
    exact ⟨UInt64.pos_iff_ne_zero.mp h.pos,
      (hadmits worker _ (hbufsize worker hworker)).mp (h.room worker hworker)⟩
  · rintro ⟨hne, hle⟩
    refine ⟨UInt64.pos_iff_ne_zero.mpr hne,
      fun worker hworker => (hadmits worker _ (hbufsize worker hworker)).mpr hle,
      fun openFile system validateExisting => creationStarts_of_admits fun worker hworker => ?_⟩
    have hopened := openWorkers_forall (P := fun worker => worker.bufsize = bufsize)
      (fun _ _ _ h => h) hbufsize worker hworker
    exact (hadmits worker _ hopened).mpr hle

/-- **The creation takes place.** With `-b` before the files and a buffer size of at least two
pages, the request size of the creation is positive and fits into the half of all buffers, and the
creation starts, exactly when half of the buffer size is in whole pages or is halved again, and not
to nothing; without files when the default worker has room for it. -/
theorem creation_takes_place_iff {config : Config} {sectorSize : UInt32} {bufsizes : List UInt64}
    {files : List (List FileArgument)} (hpage : 0 < config.pageSize.toNat)
    (hbufsize : 2 * config.pageSize.toNat ≤ (bufsizes.getLastD defaultBufsize).toNat)
    (hnelts : files.flatten.length < 2 ^ 31) :
    CreationTakesPlace config sectorSize
        (parseOptions (bufsizes.map .bufsize ++ files.map .files)) ↔
      CreationFits config sectorSize (bufsizes.getLastD defaultBufsize) files.flatten.length := by
  rw [parseOptions_bufsize_first]
  generalize bufsizes.getLastD defaultBufsize = bufsize at hbufsize ⊢
  generalize files.flatten = arguments at hnelts ⊢
  have hlt : (bufsize / 2).toNat < 2 ^ 64 := (bufsize / 2).toNat_lt
  have hpos : 0 < (bufsize / 2).toNat := by
    rw [toNat_half]
    omega
  have hle : bufsize / 2 ≤ bufsize := by
    rw [UInt64.le_iff_toNat_le, toNat_half]
    omega
  cases arguments with
  | nil =>
    -- There is one worker, and half of the buffer size is not halved for it.
    have hends : ¬Halves bufsize sectorSize 1 (bufsize / 2) := by
      rintro ⟨_, hmul⟩
      have hone : (UInt64.ofNat 1) = 1 := rfl
      rw [hone, UInt64.mul_one] at hmul
      exact absurd hle (UInt64.not_le.mpr hmul)
    have hsize : reqsizeCreate bufsize sectorSize 1 = bufsize / 2 := if_neg hends
    have hne : bufsize / 2 ≠ 0 := by
      intro hzero
      rw [hzero] at hpos
      exact absurd hpos (by decide)
    rw [if_pos rfl, @creationTakesPlace_iff _ _ _ defaultBufsize (by simp)
      (by simp [createWorker])]
    simp only [List.length_singleton, hsize, toNat_half, CreationFits, List.length_nil, if_true]
    exact and_iff_right hne
  | cons argument arguments =>
    rw [if_neg (by simp), @creationTakesPlace_iff _ _ _ bufsize (by simp)
      (by simp [FileArgument.createWorker, createWorker])]
    simp only [List.length_map]
    rw [reqsizeCreate_le_iff hpage hbufsize, CreationFits, if_neg (by simp), and_comm, ne_eq,
      reqsizeCreate, halveLoop_eq_zero_iff hlt hpos hle hnelts]

/-- `-b 64K -f a.dat&b.dat&c.dat` with pages of 4096 bytes. -/
theorem creation_takes_place_three_files :
    CreationTakesPlace ⟨true, .linux, 4096, true⟩ 512
      (parseOptions ([65536].map .bufsize ++ [[⟨0, 0⟩, ⟨0, 0⟩, ⟨0, 0⟩]].map .files)) :=
  (creation_takes_place_iff (by decide) (by decide) (by decide)).mpr (by decide)

/-- The worker of `-b 12K -f a.dat` with a new file of 1 GiB. -/
def unalignedWorker : IoWorker :=
  openWorker (createWorker (12 * 1024) 0 (0 - 1)) 1073741824 true

/-- With `-b 12K -f a.dat` and pages of 4096 bytes half of the buffer has room for 4096 bytes, and
the request size is 6144. No thread is started, and the new file is cut to no length. With `-b 64M`
and no `-f` the default worker has no room for 32 MiB. -/
theorem creation_skipped :
    reqsizeCreate (12 * 1024) 512 1 = 6144 ∧
    (∀ (measured : Measured ℚ) fuel, ∃ run,
      runTests ⟨true, .linux, 4096, true⟩ ⟨true, true, none⟩
        (preparationWorkloads false 6144 [unalignedWorker]) measured none (fuel + 3) = .done run ∧
      run.tests = []) ∧
    (prepareFile ⟨30000000, 300000000, false, false⟩ unalignedWorker
      ⟨88172645463325252, 0, ⟨0, .zero, .zero, 0, 0, 2, 0⟩⟩).filesize = 0 ∧
    ¬CreationTakesPlace ⟨true, .linux, 4096, true⟩ 512
      (parseOptions [.bufsize (64 * 1048576)]) := by
  refine ⟨by decide, fun measured fuel => ⟨_, rfl, rfl⟩, by decide, fun h => ?_⟩
  have hroom := h.room _ List.mem_cons_self
  revert hroom
  decide

end DiskBench
