import DiskBench.MainRun

/-!
# Which files are removed

`destroy_workers` removes the files whose length has been changed when they were opened. That is
not the same as having been created, and the two agree on the inputs that `KeepsLength` tells.
-/

namespace DiskBench

/-- The rules for the length of a file give it the length `currentLength`, which it has: it is
reused, or the length that is asked for is this one, or the page-rounded share of the space is, or
the default is. -/
def KeepsLength (pageSize : UInt64) (utilization : Utilization)
    (freeBytes currentLength length : UInt64) : Prop :=
  let share := utilization.ofSum (freeBytes + currentLength)
  let share := share - share % pageSize
  reuseLength < currentLength ∨
    length ≤ freeBytes + currentLength ∧ length ≠ 0 ∧ length = currentLength ∨
    freeBytes + currentLength < length ∧ share ≠ 0 ∧ share = currentLength ∨
    (length = 0 ∨ freeBytes + currentLength < length ∧ share = 0) ∧
      defaultLength utilization freeBytes currentLength = currentLength

instance (pageSize : UInt64) (utilization : Utilization)
    (freeBytes currentLength length : UInt64) :
    Decidable (KeepsLength pageSize utilization freeBytes currentLength length) :=
  inferInstanceAs (Decidable (_ ∨ _))

theorem chooseLength_eq_iff {pageSize : UInt64} {utilization : Utilization}
    {freeBytes currentLength length : UInt64} :
    chooseLength pageSize utilization freeBytes currentLength length = currentLength ↔
      KeepsLength pageSize utilization freeBytes currentLength length := by
  unfold chooseLength KeepsLength
  dsimp only
  by_cases hreuse : reuseLength < currentLength
  · have hne : currentLength ≠ 0 := by
      rintro rfl
      exact absurd hreuse (by decide)
    simp [hreuse, hne]
  · by_cases havailable : freeBytes + currentLength < length
    · have hle : ¬length ≤ freeBytes + currentLength := UInt64.not_le.mpr havailable
      have hne : length ≠ 0 := by
        rintro rfl
        exact absurd havailable (by simp)
      simp only [availableLength, gt_iff_lt, havailable, hreuse, hle, hne, if_true, if_false,
        false_or, false_and, true_and]
      split
      · rename_i hzero
        simp [hzero]
      · rename_i hzero
        simp [hzero]
    · have hle : length ≤ freeBytes + currentLength := UInt64.not_lt.mp havailable
      simp only [availableLength, gt_iff_lt, havailable, hreuse, hle, if_false, false_or,
        false_and, true_and, or_false]
      split
      · rename_i hzero
        simp [hzero]
      · rename_i hzero
        simp [hzero]

/-- The flag of a worker stays as the opening of its file has left it. -/
theorem truncateFile_kept (options : Options) (worker : IoWorker) (outcome : ThreadOutcome)
    (outcomes : List ThreadOutcome) :
    ((prepareFile options worker outcome).tested outcomes).truncateFile =
      worker.truncateFile := by
  have htested : ∀ (outcomes : List ThreadOutcome) (worker : IoWorker),
      (worker.tested outcomes).truncateFile = worker.truncateFile := by
    intro outcomes
    induction outcomes with
    | nil => exact fun _ => rfl
    | cons outcome outcomes ih => exact fun worker => ih (worker.after outcome)
  rw [htested, prepareFile, finishPreparation_truncateFile, after_truncateFile,
    prepareWorker_truncateFile]

/-- **Removed files.** A run that opens a regular file and comes to its end removes the file if and
only if it did not exist and `keep_files` is off, exactly when `keep_files` is on, or the file was
absent and gets a length, or it was there and keeps the length that was found. -/
theorem removed_iff_created_iff {platform : Platform} {pageSize : UInt64}
    {utilization : Utilization} {calls : SystemCalls} {file : Option UInt64} {opened : Opened}
    {options : Options} {worker : IoWorker} (hdevice : calls.device = false)
    (hopen : platform.fileOpen pageSize utilization calls file worker.filesize = some opened)
    (outcome : ThreadOutcome) (outcomes : List ThreadOutcome) :
    (destroyRemoves options
        ((prepareFile options (openWorker worker opened.length opened.fileTruncated) outcome).tested
          outcomes) = true ↔ file = none ∧ options.keepFiles = false) ↔
      options.keepFiles = true ∨ (file = none ↔ ¬KeepsLength pageSize utilization calls.freeBytes
        (platform.currentLength calls file) worker.filesize) := by
  have hflag := fileOpen_fileTruncated hdevice hopen
  rw [Ne, chooseLength_eq_iff] at hflag
  rw [destroyRemoves, truncateFile_kept, openWorker, Bool.and_eq_true, hflag]
  cases options.keepFiles with
  | true => simp
  | false =>
    simp only [Bool.not_false, and_true, Bool.false_eq_true, false_or]
    exact iff_comm

/-- A new file of 8192 bytes is removed. -/
theorem removed_iff_created_new_file :
    (destroyRemoves ⟨30000000, 300000000, false, false⟩
        ((prepareFile ⟨30000000, 300000000, false, false⟩
          (openWorker (createWorker 8192 8192 (0 - 1)) 8192 true)
          ⟨1, 0, ⟨0, .zero, .zero, 0, 0, 2, 1⟩⟩).tested []) = true ↔
      (none : Option UInt64) = none ∧ false = false) :=
  (@removed_iff_created_iff .linux 4096 (.exact 1) (.succeed 1073741824) none ⟨8192, true⟩
    ⟨30000000, 300000000, false, false⟩ (createWorker 8192 8192 (0 - 1)) rfl rfl
    ⟨1, 0, ⟨0, .zero, .zero, 0, 0, 2, 1⟩⟩ []).mpr (by decide)

/-- `-f a.dat;8192` for a file of 4096 bytes: the file existed, and it is removed. And
`-f a.dat` for an absent file beside 100 MiB of free space: the file is created with no length,
and it is left there. -/
theorem existing_file_removed :
    (∃ opened, linuxFileOpen 4096 (.exact 1) (.succeed 1073741824) (some 4096) 8192 = some opened ∧
      destroyRemoves ⟨30000000, 300000000, false, false⟩
        ((prepareFile ⟨30000000, 300000000, false, false⟩
          (openWorker (createWorker 8192 8192 (0 - 1)) opened.length opened.fileTruncated)
          ⟨1, 0, ⟨0, .zero, .zero, 0, 0, 2, 1⟩⟩).tested []) = true) ∧
    ∃ opened, linuxFileOpen 4096 (.exact 1) (.succeed 104857600) none 0 = some opened ∧
      destroyRemoves ⟨30000000, 300000000, false, false⟩
        ((prepareFile ⟨30000000, 300000000, false, false⟩
          (openWorker (createWorker 8192 0 (0 - 1)) opened.length opened.fileTruncated)
          ⟨1, 0, ⟨0, .zero, .zero, 0, 0, 2, 1⟩⟩).tested []) = false :=
  ⟨⟨⟨8192, true⟩, rfl, by decide⟩, ⟨0, false⟩, rfl, by decide⟩

end DiskBench
