import DiskBench.Foundations.Shares
import DiskBench.Removal

/-!
# Default sizes and the free space

All files are opened with the default size, with a utilization of `0.8/n` for `n` workers. Each
opening reserves the growth of its file. The sizes that come from the free space are shares of it,
but from the second worker on the size of the first file is asked for, and a file that is reused
for its length may be larger than a share.
-/

namespace DiskBench

open Shares

/-- A file system: the bytes that are free, and the lengths of the files that are opened next. -/
structure FileSystem where
  free : ℕ
  files : List (Option UInt64)

/-- The length of the next file. -/
def FileSystem.currentLength (system : FileSystem) : UInt64 := (system.files.headD none).getD 0

/-- Open the next file with a utilization of `0.8/n`, and reserve what it grows by. -/
def FileSystem.openNext (platform : Platform) (pageSize : UInt64) (n : ℕ) (system : FileSystem)
    (length : UInt64) : Opened × FileSystem :=
  let opened := (platform.fileOpen pageSize (.exact n) (.succeed (UInt64.ofNat system.free))
    (system.files.headD none) length).getD ⟨0, false⟩
  (opened, ⟨system.free + system.currentLength.toNat - opened.length.toNat, system.files.tail⟩)

/-- The lengths of the files before and after they have been opened for workers. -/
def fileSizes (files : List (Option UInt64)) (workers : List IoWorker) : List (ℕ × ℕ) :=
  (files.zip workers).map fun (file, worker) => ((file.getD 0).toNat, worker.filesize.toNat)

theorem fileSizes_cons (file : Option UInt64) (files : List (Option UInt64)) (worker : IoWorker)
    (workers : List IoWorker) : fileSizes (file :: files) (worker :: workers) =
      ((file.getD 0).toNat, worker.filesize.toNat) :: fileSizes files workers := rfl

/-- Each of the next files that can get the length of the first grows by a part of `0.8/m` at
most of the space at its turn, or of the space `other` when that is more. -/
def TakeoversFit (platform : Platform) (pageSize : UInt64) (n m other : ℕ) (first : UInt64) :
    List IoWorker → FileSystem → Prop
  | [], _ => True
  | _ :: workers, system =>
    (system.currentLength ≤ reuseLength →
      first.toNat ≤ system.free + system.currentLength.toNat →
      Portion 4 5 m other (system.free + system.currentLength.toNat)
        (first.toNat - system.currentLength.toNat)) ∧
    TakeoversFit platform pageSize n m other first workers
      (system.openNext platform pageSize n first).2

/-- When nothing fails a regular file gets the length that the rules choose. -/
theorem fileOpen_succeed (platform : Platform) (pageSize : UInt64) (utilization : Utilization)
    (freeBytes : UInt64) (file : Option UInt64) (length : UInt64) :
    ∃ truncated, platform.fileOpen pageSize utilization (.succeed freeBytes) file length =
      some ⟨chooseLength pageSize utilization freeBytes (file.getD 0) length, truncated⟩ := by
  cases platform with
  | linux => simp [Platform.fileOpen, linuxFileOpen, SystemCalls.succeed, SystemCalls.opens,
      Platform.currentLength]
  | win32 =>
    simp only [Platform.fileOpen, win32FileOpen, SystemCalls.succeed, SystemCalls.opens,
      Platform.currentLength, Bool.and_true, Bool.or_true, Bool.not_true, Bool.or_self,
      Bool.not_false, if_true]
    split
    · simp at *
    · split
      · exact ⟨_, rfl⟩
      · rename_i heq
        rw [not_not] at heq
        exact ⟨_, by rw [heq]⟩

/-- A large file keeps its length. -/
theorem chooseLength_of_reuse {pageSize : UInt64} {utilization : Utilization}
    {freeBytes currentLength length : UInt64} (h : reuseLength < currentLength) :
    chooseLength pageSize utilization freeBytes currentLength length = currentLength :=
  chooseLength_eq_iff.mpr (Or.inl h)

theorem exact_ofSum_le (n : ℕ) (bytes : UInt64) :
    5 * n * ((Utilization.exact n).ofSum bytes).toNat ≤ 4 * bytes.toNat := by
  calc 5 * n * ((Utilization.exact n).ofSum bytes).toNat
      ≤ 5 * n * (4 * bytes.toNat / (5 * n)) :=
        Nat.mul_le_mul_left _ (by simpa [Utilization.exact] using Nat.mod_le _ _)
    _ ≤ 4 * bytes.toNat := Nat.mul_div_le _ _

theorem exact_defaultLength_le (n : ℕ) (freeBytes currentLength : UInt64) :
    5 * n * (defaultLength (.exact n) freeBytes currentLength).toNat ≤
      4 * (freeBytes.toNat + currentLength.toNat) := by
  have hround : (defaultLength (.exact n) freeBytes currentLength).toNat ≤
      4 * (freeBytes.toNat + currentLength.toNat) / (5 * n) := by
    simp only [defaultLength, Utilization.exact, UInt64.toNat_mul, UInt64.toNat_div,
      UInt64.toNat_ofNat']
    calc _ ≤ _ := Nat.mod_le _ _
      _ ≤ _ := Nat.div_mul_le_self _ _
      _ ≤ _ := Nat.mod_le _ _
  calc 5 * n * (defaultLength (.exact n) freeBytes currentLength).toNat
      ≤ 5 * n * (4 * (freeBytes.toNat + currentLength.toNat) / (5 * n)) :=
        Nat.mul_le_mul_left _ hround
    _ ≤ 4 * (freeBytes.toNat + currentLength.toNat) := Nat.mul_div_le _ _

/-- A file of at most 128 MiB gets its share of the space, or the length that is asked for when
there is room for it. -/
theorem chooseLength_share {pageSize freeBytes currentLength length : UInt64} (n : ℕ)
    (hspace : freeBytes.toNat + currentLength.toNat < 2 ^ 64)
    (hreuse : currentLength ≤ reuseLength) :
    5 * n * (chooseLength pageSize (.exact n) freeBytes currentLength length).toNat ≤
        4 * (freeBytes.toNat + currentLength.toNat) ∨
      chooseLength pageSize (.exact n) freeBytes currentLength length = length ∧ length ≠ 0 ∧
        length.toNat ≤ freeBytes.toNat + currentLength.toNat := by
  have hsum : (freeBytes + currentLength).toNat = freeBytes.toNat + currentLength.toNat := by
    rw [UInt64.toNat_add, Nat.mod_eq_of_lt hspace]
  have hdefault := exact_defaultLength_le n freeBytes currentLength
  rw [chooseLength]
  simp only [gt_iff_lt, UInt64.not_lt.mpr hreuse, if_false]
  split
  · exact Or.inl hdefault
  · rename_i hne
    unfold availableLength at hne ⊢
    split
    · rename_i hlarge
      simp only [hlarge, if_true] at hne
      left
      have hshare := exact_ofSum_le n (freeBytes + currentLength)
      rw [hsum] at hshare
      refine Nat.le_trans (Nat.mul_le_mul_left _ ?_) hshare
      rw [toNat_sub_mod]
      exact Nat.sub_le _ _
    · rename_i hroom
      rw [if_neg hroom] at hne
      rw [gt_iff_lt, UInt64.not_lt, UInt64.le_iff_toNat_le, hsum] at hroom
      exact Or.inr ⟨rfl, hne, hroom⟩

/-- There is room for the length that is asked for. -/
theorem chooseLength_of_room {pageSize freeBytes currentLength length : UInt64}
    {utilization : Utilization} (hspace : freeBytes.toNat + currentLength.toNat < 2 ^ 64)
    (hreuse : currentLength ≤ reuseLength) (hne : length ≠ 0)
    (hroom : length.toNat ≤ freeBytes.toNat + currentLength.toNat) :
    chooseLength pageSize utilization freeBytes currentLength length = length := by
  have hle : ¬length > freeBytes + currentLength := by
    rw [gt_iff_lt, UInt64.not_lt, UInt64.le_iff_toNat_le, UInt64.toNat_add,
      Nat.mod_eq_of_lt hspace]
    exact hroom
  simp [chooseLength, availableLength, hle, UInt64.not_lt.mpr hreuse, hne]

section Run

variable {platform : Platform} {pageSize : UInt64} {n m other : ℕ} {first : UInt64}
  {system : FileSystem}

/-- The next file gets the length that the rules choose. -/
theorem FileSystem.openNext_length (length : UInt64) :
    (system.openNext platform pageSize n length).1.length =
      chooseLength pageSize (.exact n) (UInt64.ofNat system.free) system.currentLength length := by
  obtain ⟨truncated, hopen⟩ := fileOpen_succeed platform pageSize (.exact n)
    (UInt64.ofNat system.free) (system.files.headD none) length
  rw [openNext, hopen]
  rfl

/-- A file keeps its length and the free space, or it has at most 128 MiB and gets its share of the
space, or the length that is asked for when there is room for it. -/
theorem FileSystem.openNext_cases (length : UInt64) (hn : n ≠ 0)
    (hfree : system.free + 2 ^ 27 < 2 ^ 64) :
    (system.openNext platform pageSize n length).1.length = system.currentLength ∧
        (system.openNext platform pageSize n length).2 = ⟨system.free, system.files.tail⟩ ∨
      ∃ new, (system.openNext platform pageSize n length).1.length = new ∧
        (system.openNext platform pageSize n length).2 =
          ⟨system.free + system.currentLength.toNat - new.toNat, system.files.tail⟩ ∧
        new.toNat ≠ system.currentLength.toNat ∧ system.currentLength ≤ reuseLength ∧
        new.toNat ≤ system.free + system.currentLength.toNat ∧
        (5 * n * new.toNat ≤ 4 * (system.free + system.currentLength.toNat) ∨ new = length) := by
  have hlength := @openNext_length platform pageSize n system length
  have hnext : (system.openNext platform pageSize n length).2 =
      ⟨system.free + system.currentLength.toNat -
        (system.openNext platform pageSize n length).1.length.toNat, system.files.tail⟩ := rfl
  by_cases hkept : chooseLength pageSize (.exact n) (UInt64.ofNat system.free)
      system.currentLength length = system.currentLength
  · left
    refine ⟨hlength.trans hkept, ?_⟩
    rw [hnext, hlength, hkept, Nat.add_sub_cancel]
  · right
    have hreuse : system.currentLength ≤ reuseLength := by
      by_contra hlarge
      exact hkept (chooseLength_of_reuse (UInt64.not_le.mp hlarge))
    have hlimit : reuseLength.toNat = 2 ^ 27 := by decide
    have hle := UInt64.le_iff_toNat_le.mp hreuse
    have hword : (UInt64.ofNat system.free).toNat = system.free := by
      rw [UInt64.toNat_ofNat', Nat.mod_eq_of_lt (by omega)]
    have hshare := @chooseLength_share pageSize (UInt64.ofNat system.free) system.currentLength
      length n (by omega) hreuse
    rw [hword] at hshare
    refine ⟨_, hlength, by rw [hnext, hlength], fun heq => hkept (UInt64.toNat_inj.mp heq),
      hreuse, ?_, hshare.imp_right And.left⟩
    rcases hshare with hshare | ⟨heq, _, hroom⟩
    · -- A share of `0.8/n` is not more than the space.
      have hone : 5 * 1 ≤ 5 * n := Nat.mul_le_mul_left _ (Nat.pos_of_ne_zero hn)
      have := Nat.le_trans (Nat.mul_le_mul_right _ hone) hshare
      omega
    · rw [heq]
      exact hroom

/-- A share of `0.8/n` is a part of `0.8/m` for the growth. -/
theorem part_of_share {budget size old : ℕ} (hmn : m ≤ n) (h : 5 * n * size ≤ 4 * budget) :
    Portion 4 5 m other budget (size - old) := by
  calc 5 * m * (size - old) ≤ 5 * n * size :=
        Nat.mul_le_mul (Nat.mul_le_mul_left _ hmn) (Nat.sub_le _ _)
    _ ≤ 4 * budget := h
    _ ≤ 4 * max budget other := Nat.mul_le_mul_left _ (Nat.le_max_left _ _)

/-- No take-over is too large when the first file has at most a part of `0.8/m` of `other`. -/
theorem takeoversFit_of_le (h : 5 * m * first.toNat ≤ 4 * other) (workers : List IoWorker)
    (system : FileSystem) :
    TakeoversFit platform pageSize n m other first workers system := by
  induction workers generalizing system with
  | nil => trivial
  | cons worker workers ih =>
    refine ⟨fun _ _ => ?_, ih _⟩
    calc 5 * m * (first.toNat - system.currentLength.toNat) ≤ 5 * m * first.toNat :=
          Nat.mul_le_mul_left _ (Nat.sub_le _ _)
      _ ≤ 4 * other := h
      _ ≤ _ := Nat.mul_le_mul_left _ (Nat.le_max_right _ _)

/-- Space for the next file and for the files after it. -/
theorem space_next {free old new count limit size : ℕ} (hold : old ≤ limit)
    (h : free + (count + 1) * limit < size) :
    free + limit < size ∧ free + old - new + count * limit < size := by
  rw [Nat.succ_mul] at h
  omega

/-- The files after the first grow by their parts. -/
theorem openWorkers_within {workers : List IoWorker} (hn : n ≠ 0) (hmn : m ≤ n)
    (hsize : ∀ worker ∈ workers, worker.filesize = 0)
    (hlen : system.files.length = workers.length)
    (hfree : system.free + workers.length * 2 ^ 27 < 2 ^ 64)
    (hfit : TakeoversFit platform pageSize n m other first workers system) :
    Within (Portion 4 5 m other) system.free (fileSizes system.files
      (openWorkers (FileSystem.openNext platform pageSize n) (some first) workers system).1) := by
  induction workers generalizing system with
  | nil =>
    rw [openWorkers, fileSizes, List.zip_nil_right]
    exact .nil
  | cons worker workers ih =>
    obtain ⟨file, files, hfiles⟩ := List.exists_cons_of_length_eq_add_one hlen
    rw [hfiles, List.length_cons, List.length_cons, Nat.add_right_cancel_iff] at hlen
    rw [List.length_cons] at hfree
    have hlimit : reuseLength.toNat = 2 ^ 27 := by decide
    have hrequest : requestedLength (some first) worker = first := by
      rw [requestedLength, if_pos (hsize worker List.mem_cons_self)]
    have htail : system.files.tail = files := by rw [hfiles, List.tail_cons]
    have hcurrent : (file.getD 0).toNat = system.currentLength.toNat := by
      rw [FileSystem.currentLength, hfiles, List.headD_cons]
    have hsize' : ∀ worker ∈ workers, worker.filesize = 0 :=
      fun worker' hworker' => hsize worker' (List.mem_cons_of_mem _ hworker')
    obtain ⟨htakeover, hfit⟩ := hfit
    rw [openWorkers, hrequest, hfiles, fileSizes_cons, hcurrent, openWorker]
    obtain ⟨hlength, hnext⟩ | ⟨new, hlength, hnext, hne, hreuse, hroom, hshare⟩ :=
      @FileSystem.openNext_cases platform pageSize n system first hn
        (@space_next _ 0 0 _ _ _ (Nat.zero_le _) hfree).1
    · rw [hnext, htail] at hfit ⊢
      rw [hlength]
      exact .kept (@ih ⟨system.free, files⟩ hsize' hlen
        (@space_next _ 0 0 _ _ _ (Nat.zero_le _) hfree).2 hfit)
    · have hold := UInt64.le_iff_toNat_le.mp hreuse
      rw [hlimit] at hold
      rw [hnext, htail] at hfit ⊢
      rw [hlength]
      refine .changed hne hroom ?_ (ih hsize' hlen (space_next hold hfree).2 hfit)
      rcases hshare with hshare | rfl
      · exact part_of_share hmn hshare
      · exact htakeover hreuse hroom

/-- The default length of a file of at most 128 MiB is a share of the space. -/
theorem FileSystem.openNext_default (hfree : system.free + 2 ^ 27 < 2 ^ 64)
    (hreuse : system.currentLength ≤ reuseLength) :
    5 * n * (system.openNext platform pageSize n 0).1.length.toNat ≤
      4 * (system.free + system.currentLength.toNat) := by
  have hlimit : reuseLength.toNat = 2 ^ 27 := by decide
  have hle := UInt64.le_iff_toNat_le.mp hreuse
  have hword : (UInt64.ofNat system.free).toNat = system.free := by
    rw [UInt64.toNat_ofNat', Nat.mod_eq_of_lt (by omega)]
  have hshare := @chooseLength_share pageSize (UInt64.ofNat system.free) system.currentLength 0 n
    (by omega) hreuse
  rw [hword] at hshare
  rw [openNext_length]
  exact hshare.resolve_right fun h => h.2.1 rfl

end Run

/-- **Default sizes.** For files of one file system that are opened one after another with the
default size: all together grow by 80% at most of the free space and of the files that are resized,
when the first file has at most 128 MiB, or when each file that can get the length of the first
grows by its part of the space. -/
theorem growth_within_budget {platform : Platform} {pageSize : UInt64} {workers : List IoWorker}
    {free : ℕ} {files : List (Option UInt64)} (hlen : files.length = workers.length)
    (hsize : ∀ worker ∈ workers, worker.filesize = 0) (hfree : free < 2 ^ 63)
    (hcount : workers.length < 2 ^ 31)
    (hfit : reuseLength < (files.headD none).getD 0 →
      TakeoversFit platform pageSize workers.length (workers.length - 1) free
        ((files.headD none).getD 0) workers.tail ⟨free, files.tail⟩) :
    5 * growth (fileSizes files (openWorkers
        (FileSystem.openNext platform pageSize workers.length) none workers ⟨free, files⟩).1) ≤
      4 * (free + changedTotal (fileSizes files (openWorkers
        (FileSystem.openNext platform pageSize workers.length) none workers ⟨free, files⟩).1)) := by
  cases workers with
  | nil => simp [openWorkers, fileSizes]
  | cons worker workers =>
    obtain ⟨file, files, rfl⟩ := List.exists_cons_of_length_eq_add_one hlen
    rw [List.length_cons, List.length_cons, Nat.add_right_cancel_iff] at hlen
    rw [List.length_cons] at hcount
    have hsize' : ∀ worker ∈ workers, worker.filesize = 0 :=
      fun worker' hworker' => hsize worker' (List.mem_cons_of_mem _ hworker')
    have hrequest : requestedLength none worker = 0 := hsize worker List.mem_cons_self
    have hspace : free + (workers.length + 1) * 2 ^ 27 < 2 ^ 64 := by omega
    have hparts : ∀ workers' : List IoWorker, (fileSizes files workers').length ≤ workers.length :=
      fun workers' => by simp [fileSizes, hlen]
    simp only [List.length_cons, List.headD_cons, List.tail_cons, Nat.add_sub_cancel] at hfit ⊢
    rw [openWorkers, hrequest, fileSizes_cons, openWorker]
    have hcurrent : FileSystem.currentLength ⟨free, file :: files⟩ = file.getD 0 := rfl
    have hfree' := (@space_next _ 0 0 _ _ _ (Nat.zero_le _) hspace).1
    have hdefault := @FileSystem.openNext_default platform pageSize (workers.length + 1)
      ⟨free, file :: files⟩ hfree'
    obtain ⟨hlength, hnext⟩ | ⟨new, hlength, hnext, hne, hreuse, hroom, _⟩ :=
      @FileSystem.openNext_cases platform pageSize (workers.length + 1) ⟨free, file :: files⟩ 0
        (Nat.succ_ne_zero _) hfree'
    · have hfirst : TakeoversFit platform pageSize (workers.length + 1) workers.length free
          (file.getD 0) workers ⟨free, files⟩ := by
        by_cases hreuse : reuseLength < file.getD 0
        · exact hfit hreuse
        · -- A share of `0.8/n` that is kept is a part of `0.8/(n - 1)` of the free space.
          apply takeoversFit_of_le
          have hshare := hdefault (UInt64.not_lt.mp hreuse)
          rw [hlength, hcurrent, Nat.mul_succ, Nat.add_mul] at hshare
          dsimp only at hshare
          omega
      have hwithin := @openWorkers_within platform pageSize _ _ _ _ ⟨free, files⟩ _
        (Nat.succ_ne_zero _) (Nat.le_succ _) hsize' hlen
        (@space_next _ 0 0 _ _ _ (Nat.zero_le _) hspace).2 hfirst
      rw [hlength, hnext, hcurrent, growth_cons, Nat.sub_self, Nat.zero_add, changedTotal_kept]
      exact hwithin.growth_le (hparts _) (Nat.le_add_right _ _)
    · have hlimit : reuseLength.toNat = 2 ^ 27 := by decide
      have hold := UInt64.le_iff_toNat_le.mp hreuse
      have hshare := hdefault hreuse
      rw [hlimit] at hold
      rw [hlength] at hshare
      have hwithin := @openWorkers_within platform pageSize (workers.length + 1)
        (workers.length + 1) (free + (file.getD 0).toNat) new
        ⟨free + (file.getD 0).toNat - new.toNat, files⟩ _ (Nat.succ_ne_zero _) (Nat.le_refl _)
        hsize' hlen (space_next hold hspace).2 (takeoversFit_of_le hshare _ _)
      have hall := Within.changed hne hroom (part_of_share (Nat.le_refl _) hshare) hwithin
      rw [hlength, hnext]
      refine hall.growth_le (Nat.succ_le_succ (hparts _)) ?_
      rw [changedTotal_changed hne, ← Nat.add_assoc]
      exact Nat.le_add_right _ _

/-- For two files the condition is needed: when the second takes over more, they grow by more than
80%. -/
theorem takeoversFit_of_growth_le {platform : Platform} {pageSize : UInt64}
    {worker worker' : IoWorker} {free : ℕ} {file file' : Option UInt64}
    (hsize : worker.filesize = 0) (hsize' : worker'.filesize = 0) (hfree : free < 2 ^ 63)
    (hreuse : reuseLength < file.getD 0)
    (hbudget : 5 * growth (fileSizes [file, file'] (openWorkers
        (FileSystem.openNext platform pageSize 2) none [worker, worker']
          ⟨free, [file, file']⟩).1) ≤
      4 * (free + changedTotal (fileSizes [file, file'] (openWorkers
        (FileSystem.openNext platform pageSize 2) none [worker, worker']
          ⟨free, [file, file']⟩).1))) :
    TakeoversFit platform pageSize 2 1 free (file.getD 0) [worker'] ⟨free, [file']⟩ := by
  refine ⟨fun hsmall hroom => ?_, trivial⟩
  have hlimit : reuseLength.toNat = 2 ^ 27 := by decide
  have hlarge := UInt64.lt_iff_toNat_lt.mp hreuse
  have hold : (file'.getD 0).toNat ≤ reuseLength.toNat := UInt64.le_iff_toNat_le.mp hsmall
  have hword : (UInt64.ofNat free).toNat = free := by
    rw [UInt64.toNat_ofNat', Nat.mod_eq_of_lt (by omega)]
  have hne : file.getD 0 ≠ 0 := by
    intro hzero
    rw [hzero] at hlarge
    exact absurd hlarge (Nat.not_lt_zero _)
  have hfirst : (FileSystem.openNext platform pageSize 2 ⟨free, [file, file']⟩ 0).1.length =
      file.getD 0 :=
    (FileSystem.openNext_length 0).trans (chooseLength_of_reuse hreuse)
  have hnext : (FileSystem.openNext platform pageSize 2 ⟨free, [file, file']⟩ 0).2 =
      ⟨free, [file']⟩ := by
    have hfree : free + (file.getD 0).toNat - (FileSystem.openNext platform pageSize 2
        ⟨free, [file, file']⟩ 0).1.length.toNat = free := by
      rw [hfirst, Nat.add_sub_cancel]
    exact congrArg (FileSystem.mk · [file']) hfree
  have hroom' : (file.getD 0).toNat ≤ (UInt64.ofNat free).toNat + (file'.getD 0).toNat := by
    rw [hword]
    exact hroom
  have hsecond : (FileSystem.openNext platform pageSize 2 ⟨free, [file']⟩
      (file.getD 0)).1.length = file.getD 0 :=
    (FileSystem.openNext_length _).trans
      (chooseLength_of_room (by rw [hword, FileSystem.currentLength]; dsimp; omega) hsmall hne
        hroom')
  have hchanged : (file.getD 0).toNat ≠ (file'.getD 0).toNat := by omega
  simp only [openWorkers, requestedLength, hsize, hsize', openWorker, hfirst, hnext, hsecond,
    Option.getD_none, if_true, fileSizes_cons, growth_cons, changedTotal_kept,
    changedTotal_changed hchanged, Nat.sub_self, Nat.zero_add] at hbudget
  have hnil : fileSizes [] [] = [] := rfl
  rw [hnil, growth_nil, changedTotal_nil] at hbudget
  have hcurrent : (FileSystem.currentLength ⟨free, [file']⟩) = file'.getD 0 := rfl
  rw [Portion, hcurrent]
  calc 5 * 1 * ((file.getD 0).toNat - (file'.getD 0).toNat)
      ≤ 4 * (free + (file'.getD 0).toNat) := by omega
    _ ≤ _ := Nat.mul_le_mul_left _ (Nat.le_max_left _ _)

/-- A new file and one of 4096 bytes beside 100 GiB of free space. -/
theorem growth_within_budget_new_files :
    5 * growth (fileSizes [none, some 4096] (openWorkers (FileSystem.openNext .linux 4096 2) none
        [createWorker defaultBufsize 0 (0 - 1), createWorker defaultBufsize 0 (0 - 1)]
        ⟨107374182400, [none, some 4096]⟩).1) ≤
      4 * (107374182400 + changedTotal (fileSizes [none, some 4096] (openWorkers
        (FileSystem.openNext .linux 4096 2) none
        [createWorker defaultBufsize 0 (0 - 1), createWorker defaultBufsize 0 (0 - 1)]
        ⟨107374182400, [none, some 4096]⟩).1)) :=
  @growth_within_budget .linux 4096 [createWorker defaultBufsize 0 (0 - 1),
    createWorker defaultBufsize 0 (0 - 1)] 107374182400 [none, some 4096] rfl
    (by simp [createWorker]) (by decide) (by decide) (fun h => absurd h (by decide))

/-- A file of 1000 GiB and a new one beside 1100 GiB of free space: the new file gets 1000 GiB,
which is more than 80%. -/
theorem takeover_exceeds_budget :
    4 * (1181116006400 + changedTotal (fileSizes [some 1073741824000, none] (openWorkers
        (FileSystem.openNext .linux 4096 2) none
        [createWorker defaultBufsize 0 (0 - 1), createWorker defaultBufsize 0 (0 - 1)]
        ⟨1181116006400, [some 1073741824000, none]⟩).1)) <
      5 * growth (fileSizes [some 1073741824000, none] (openWorkers
        (FileSystem.openNext .linux 4096 2) none
        [createWorker defaultBufsize 0 (0 - 1), createWorker defaultBufsize 0 (0 - 1)]
        ⟨1181116006400, [some 1073741824000, none]⟩).1) := by
  decide

end DiskBench
