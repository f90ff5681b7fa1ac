import Mathlib.Data.List.Perm.Subperm
import DiskBench.FileOpen

/-!
# The descriptors of an opened file

`linux_file_open` call by call. Each system call succeeds or fails, and the kernel keeps the
descriptors that are open and the length of the file. A failure between the two openings leaves a
descriptor behind, and the seek and the second opening are not checked.
-/

namespace DiskBench

/-- The length of a file, which is not negative as an `off_t`. -/
abbrev FileLength := {length : UInt64 // length.toNat < 2 ^ 63}

/-- The length of a file that has just been created. -/
def emptyFile : FileLength := ⟨0, by decide⟩

/-- The kernel: the descriptors of the process that are open, and the length of the file, unless
it is absent. -/
structure Kernel where
  descriptors : List ℕ
  file : Option FileLength

/-- Which of the system calls succeed, and what they report. -/
structure KernelCalls where
  openExisting : Bool
  /-- `open` with `O_CREAT`. -/
  openCreate : Bool
  lseek : Bool
  fstat : Bool
  /-- `S_ISBLK(filestat.st_mode)`. -/
  isBlk : Bool
  fstatvfs : Bool
  fBsize : UInt64
  fBavail : UInt64
  ftruncate : Bool
  /-- The result of `fallocate` is not looked at. -/
  fallocate : Bool
  /-- `close` releases the descriptor. Its result is not looked at. -/
  close : Bool
  /-- `open` with `O_DIRECT`. -/
  openDirect : Bool

inductive AprStatus
  | success
  | general
  deriving DecidableEq

/-- What `linux_file_open` leaves: its status, `*length`, `*file_truncated`, the descriptor in
`*rv` unless that is `NULL`, and the kernel. -/
structure FileOpened where
  status : AprStatus
  length : UInt64
  fileTruncated : Bool
  rv : Option ℤ
  kernel : Kernel

/-- The lowest descriptor that is not open. -/
def lowestUnused (descriptors : List ℕ) : ℕ :=
  ((List.range (descriptors.length + 1)).find? (· ∉ descriptors)).getD 0

namespace Kernel

variable (kernel : Kernel)

/-- The length of the file, which is 0 for one that is absent. -/
def length : UInt64 := (kernel.file.getD emptyFile).val

/-- `open`, which returns -1 when it fails. -/
def openFile (create ok : Bool) : ℤ × Kernel :=
  if ok && (create || kernel.file.isSome) then
    (lowestUnused kernel.descriptors, ⟨lowestUnused kernel.descriptors :: kernel.descriptors,
      some (kernel.file.getD emptyFile)⟩)
  else (-1, kernel)

/-- `lseek` to the end of the file. A failure is -1, which becomes the largest length. -/
def lseek (ok : Bool) : UInt64 := if ok then kernel.length else -1

/-- `ftruncate`, which refuses lengths that are negative as an `off_t`. -/
def ftruncate (length : UInt64) (ok : Bool) : Option Kernel :=
  if h : ok ∧ length.toNat < 2 ^ 63 then some { kernel with file := some ⟨length, h.2⟩ } else none

/-- `fallocate` from the start of the file, which never makes it shorter. -/
def fallocate (length : UInt64) (ok : Bool) : Kernel :=
  if h : ok ∧ kernel.length < length ∧ length.toNat < 2 ^ 63 then
    { kernel with file := some ⟨length, h.2.2⟩ }
  else kernel

def close (fd : ℤ) (ok : Bool) : Kernel :=
  if ok then { kernel with descriptors := kernel.descriptors.erase fd.toNat } else kernel

/-- The file is closed and opened again in `O_DIRECT` mode. -/
def reopen (calls : KernelCalls) (fd : ℤ) (length : UInt64) (fileTruncated : Bool) : FileOpened :=
  let opened := (kernel.close fd calls.close).openFile false calls.openDirect
  ⟨.success, length, fileTruncated, some opened.1, opened.2⟩

/-- The file gets its length when it has to be changed. -/
def resize (calls : KernelCalls) (fd : ℤ) (length : UInt64) (fileTruncated : Bool) : FileOpened :=
  if fileTruncated then
    match kernel.ftruncate length calls.ftruncate with
    | none => ⟨.general, length, fileTruncated, none, kernel⟩
    | some kernel =>
      (kernel.fallocate length calls.fallocate).reopen calls fd length fileTruncated
  else kernel.reopen calls fd length fileTruncated

/-- The part of `linux_file_open` after the first opening. -/
def sizeFile (pageSize : UInt64) (utilization : Utilization) (calls : KernelCalls) (fd : ℤ)
    (length : UInt64) (fileTruncated : Bool) : FileOpened :=
  let currentLength := kernel.lseek calls.lseek
  if !calls.fstat then ⟨.general, length, fileTruncated, none, kernel⟩
  else if !calls.isBlk then
    if !calls.fstatvfs then ⟨.general, length, fileTruncated, none, kernel⟩
    else
      let length :=
        chooseLength pageSize utilization (calls.fBsize * calls.fBavail) currentLength length
      kernel.resize calls fd length (length ≠ currentLength)
  else kernel.resize calls fd currentLength false

/-- `linux_file_open` with the values of `*length` and `*file_truncated` before the call. -/
def linuxFileOpen (pageSize : UInt64) (utilization : Utilization) (calls : KernelCalls)
    (length : UInt64) (fileTruncated : Bool) : FileOpened :=
  let existing := kernel.openFile false calls.openExisting
  let opened := if existing.1 < 0 then existing.2.openFile true calls.openCreate else existing
  if opened.1 < 0 then ⟨.general, length, fileTruncated, none, opened.2⟩
  else opened.2.sizeFile pageSize utilization calls opened.1 length fileTruncated

end Kernel

/-- A file that can be used: its descriptor is open and is not one of those before the call, the
length is its own, and the flag says whether the call has changed it. -/
structure FileOpened.Usable (before : Kernel) (opened : FileOpened) : Prop where
  descriptor : ∃ fd : ℕ, opened.rv = some (fd : ℤ) ∧ fd ∈ opened.kernel.descriptors ∧
    fd ∉ before.descriptors
  length : opened.kernel.file.map Subtype.val = some opened.length
  fileTruncated : opened.fileTruncated = true ↔ opened.kernel.length ≠ before.length

/-- There is no file, and each descriptor that is open was open before the call. -/
structure FileOpened.Released (before : Kernel) (opened : FileOpened) : Prop where
  rv : opened.rv = none
  descriptors : ∀ fd ∈ opened.kernel.descriptors, fd ∈ before.descriptors

/-- A file that can be used with a success, and nothing with an error. -/
def FileOpened.Sound (before : Kernel) (opened : FileOpened) : Prop :=
  (opened.status = .success → opened.Usable before) ∧
    (opened.status ≠ .success → opened.Released before)

/-- One of the calls for the first opening succeeds. -/
def KernelCalls.Opens (calls : KernelCalls) (kernel : Kernel) : Prop :=
  kernel.file.isSome ∧ calls.openExisting ∨ calls.openCreate

/-- The calls that give the file its length succeed: those for the free space of a regular file,
and `ftruncate` when the rules choose another length. -/
def KernelCalls.Sizes (calls : KernelCalls) (pageSize : UInt64) (utilization : Utilization)
    (currentLength length : UInt64) : Prop :=
  calls.isBlk ∨ calls.fstatvfs ∧
    let length :=
      chooseLength pageSize utilization (calls.fBsize * calls.fBavail) currentLength length
    (length ≠ currentLength → calls.ftruncate ∧ length.toNat < 2 ^ 63)

theorem lowestUnused_notMem (descriptors : List ℕ) : lowestUnused descriptors ∉ descriptors := by
  have hsome : ((List.range (descriptors.length + 1)).find? (· ∉ descriptors)).isSome := by
    by_contra hnone
    have hall : List.range (descriptors.length + 1) ⊆ descriptors := by
      rw [Option.isSome_iff_ne_none, not_not, List.find?_eq_none] at hnone
      exact fun fd hfd => by simpa using hnone fd hfd
    have hlength := (List.subperm_of_subset List.nodup_range hall).length_le
    rw [List.length_range] at hlength
    omega
  obtain ⟨fd, hfd⟩ := Option.isSome_iff_exists.mp hsome
  rw [lowestUnused, hfd]
  simpa using List.find?_some hfd

/-- The descriptor `fd` is the only one that has been opened, and the file keeps its length. -/
structure Kernel.Holds (before : Kernel) (fd : ℕ) (kernel : Kernel) : Prop where
  descriptors : kernel.descriptors = fd :: before.descriptors
  unused : fd ∉ before.descriptors
  present : kernel.file.isSome
  length : kernel.length = before.length

namespace Kernel

variable {before kernel : Kernel} {calls : KernelCalls} {fd : ℕ} {length : UInt64}
  {fileTruncated : Bool}

theorem openFile_of_not {create ok : Bool} (h : ¬(ok ∧ (create ∨ kernel.file.isSome))) :
    kernel.openFile create ok = (-1, kernel) := by
  simp only [openFile, Bool.and_eq_true, Bool.or_eq_true, if_neg h]

theorem openFile_of {create ok : Bool} (h : ok ∧ (create ∨ kernel.file.isSome)) :
    ∃ fd : ℕ, (kernel.openFile create ok).1 = fd ∧
      kernel.Holds fd (kernel.openFile create ok).2 := by
  refine ⟨lowestUnused kernel.descriptors, ?_, ?_, lowestUnused_notMem _, ?_, ?_⟩ <;>
    simp [openFile, h, Kernel.length]

/-- The first opening fails, or it holds one descriptor. -/
theorem firstOpen_cases (calls : KernelCalls) (kernel : Kernel) :
    let existing := kernel.openFile false calls.openExisting
    let opened := if existing.1 < 0 then existing.2.openFile true calls.openCreate else existing
    ¬calls.Opens kernel ∧ opened = (-1, kernel) ∨
      calls.Opens kernel ∧ ∃ fd : ℕ, opened.1 = fd ∧ kernel.Holds fd opened.2 := by
  intro existing opened
  by_cases hexisting : calls.openExisting ∧ (false ∨ kernel.file.isSome)
  · obtain ⟨fd, hfd, hholds⟩ := openFile_of hexisting
    have hopen : existing.1 = fd := hfd
    have hopened : opened = existing := if_neg (by omega)
    rw [hopened]
    exact Or.inr ⟨Or.inl ⟨by simpa using hexisting.2, hexisting.1⟩, fd, hfd, hholds⟩
  · have hfail : existing = (-1, kernel) := openFile_of_not hexisting
    have hopened : opened = kernel.openFile true calls.openCreate := by
      simp only [opened, hfail, if_pos (show (-1 : ℤ) < 0 by decide)]
    rw [hopened]
    by_cases hcreate : calls.openCreate = true
    · exact Or.inr ⟨Or.inr hcreate, openFile_of ⟨hcreate, Or.inl rfl⟩⟩
    · refine Or.inl ⟨?_, openFile_of_not fun h => hcreate h.1⟩
      rintro (⟨hsome, hopen⟩ | hopen)
      · exact hexisting ⟨hopen, Or.inr hsome⟩
      · exact hcreate hopen

/-- An error after the first opening leaves the descriptor behind. -/
theorem Holds.not_sound (h : before.Holds fd kernel) :
    ¬FileOpened.Sound before ⟨.general, length, fileTruncated, none, kernel⟩ := by
  intro hsound
  have hreleased := (hsound.2 AprStatus.noConfusion).descriptors fd
  rw [h.descriptors] at hreleased
  exact h.unused (hreleased List.mem_cons_self)

theorem length_eq_of_file {l : FileLength} (h : kernel.file = some l) : kernel.length = l.val := by
  rw [Kernel.length, h, Option.getD_some]

@[simp]
theorem close_file (ok : Bool) (fd : ℤ) : (kernel.close fd ok).file = kernel.file := by
  cases ok <;> rfl

/-- Closing the descriptor keeps those from before the call. -/
theorem subset_close {ok : Bool} (h : kernel.descriptors = fd :: before.descriptors) :
    before.descriptors ⊆ (kernel.close fd ok).descriptors := by
  cases ok with
  | false => exact h ▸ List.subset_cons_self _ _
  | true =>
    have hclosed : (kernel.close fd true).descriptors = before.descriptors := by
      simp [close, h]
    rw [hclosed]
    exact List.Subset.refl _

/-- After the second opening the file can be used when that succeeds, and when its length and the
flag are right. -/
theorem reopen_sound_iff (hpresent : kernel.file.isSome)
    (hdescriptors : kernel.descriptors = fd :: before.descriptors) :
    FileOpened.Sound before (kernel.reopen calls fd length fileTruncated) ↔
      calls.openDirect ∧ kernel.length = length ∧
        (fileTruncated = true ↔ kernel.length ≠ before.length) := by
  obtain ⟨l, hl⟩ := Option.isSome_iff_exists.mp hpresent
  have hclosed : (kernel.close fd calls.close).file = some l := by rw [close_file, hl]
  by_cases hdirect : calls.openDirect = true
  · have hopens : calls.openDirect ∧
        (false ∨ (kernel.close fd calls.close).file.isSome) :=
      ⟨hdirect, Or.inr (by rw [hclosed, Option.isSome_some])⟩
    obtain ⟨fd', hfd', hholds⟩ := openFile_of hopens
    obtain ⟨l', hl'⟩ := Option.isSome_iff_exists.mp hholds.present
    have hlength : l'.val = kernel.length := by
      rw [← length_eq_of_file hl', hholds.length, length_eq_of_file hclosed, length_eq_of_file hl]
    constructor
    · rintro ⟨husable, -⟩
      obtain ⟨-, hown, hflag⟩ := husable rfl
      refine ⟨hdirect, ?_, ?_⟩
      · simpa [reopen, hl', hlength] using hown
      · simpa [reopen, length_eq_of_file hl', hlength] using hflag
    · rintro ⟨-, hown, hflag⟩
      refine ⟨fun _ => ⟨⟨fd', congrArg some hfd', ?_, ?_⟩, ?_, ?_⟩, fun hne => absurd rfl hne⟩
      · simp [reopen, hholds.descriptors]
      · exact fun hmem => hholds.unused (subset_close hdescriptors hmem)
      · simp [reopen, hl', hlength, hown]
      · simpa [reopen, length_eq_of_file hl', hlength] using hflag
  · refine iff_of_false ?_ fun h => hdirect h.1
    rintro ⟨husable, -⟩
    obtain ⟨fd', hfd', -⟩ := (husable rfl).descriptor
    rw [reopen, openFile_of_not fun h => hdirect h.1, Option.some_inj] at hfd'
    have hneg : (-1 : ℤ) = fd' := hfd'
    omega

/-- A file whose length is changed can be used when that and the second opening succeed, and one
that keeps its length when `*length` is this length. -/
theorem resize_sound_iff (h : before.Holds fd kernel) :
    FileOpened.Sound before (kernel.resize calls fd length fileTruncated) ↔
      calls.openDirect ∧ (fileTruncated = true ↔ length ≠ before.length) ∧
        (length ≠ before.length → calls.ftruncate ∧ length.toNat < 2 ^ 63) := by
  cases fileTruncated with
  | false =>
    rw [resize, if_neg Bool.false_ne_true, reopen_sound_iff h.present h.descriptors, h.length]
    constructor
    · rintro ⟨hdirect, rfl, -⟩
      exact ⟨hdirect, by simp, fun hne => absurd rfl hne⟩
    · rintro ⟨hdirect, hflag, -⟩
      have heq : length = before.length := by simpa using hflag
      exact ⟨hdirect, heq.symm, by simp⟩
  | true =>
    by_cases hworks : calls.ftruncate = true ∧ length.toNat < 2 ^ 63
    · let resized : Kernel := { kernel with file := some ⟨length, hworks.2⟩ }
      have hresized : kernel.ftruncate length calls.ftruncate = some resized := dif_pos hworks
      have hkept : resized.fallocate length calls.fallocate = resized :=
        dif_neg fun hgrows => UInt64.lt_irrefl _ hgrows.2.1
      have hsound : FileOpened.Sound before (resized.reopen calls fd length true) ↔
          calls.openDirect ∧ resized.length = length ∧ (true ↔ resized.length ≠ before.length) :=
        reopen_sound_iff rfl h.descriptors
      have hlength : resized.length = length := rfl
      rw [resize, if_pos rfl, hresized]
      simp only
      rw [hkept, hsound, hlength]
      constructor
      · rintro ⟨hdirect, -, hflag⟩
        exact ⟨hdirect, by simpa using hflag, fun _ => hworks⟩
      · rintro ⟨hdirect, hflag, -⟩
        exact ⟨hdirect, rfl, by simpa using hflag⟩
    · have hfails : kernel.ftruncate length calls.ftruncate = none := dif_neg hworks
      rw [resize, if_pos rfl, hfails]
      refine iff_of_false h.not_sound ?_
      rintro ⟨-, hflag, htruncate⟩
      exact hworks (htruncate (hflag.mp rfl))

/-- The length of a seek that has failed is reused. -/
theorem chooseLength_neg_one (pageSize : UInt64) (utilization : Utilization)
    (freeBytes length : UInt64) : chooseLength pageSize utilization freeBytes (-1) length = -1 := by
  have hreuse : (-1 : UInt64) > reuseLength := by decide
  rw [chooseLength]
  simp only [if_pos hreuse]
  exact if_neg (by decide)

/-- The length of a seek that has failed is longer than any file. -/
theorem Holds.resize_neg_one_not_sound (h : before.Holds fd kernel) :
    ¬FileOpened.Sound before (kernel.resize calls fd (-1) false) := by
  rw [resize_sound_iff h]
  rintro ⟨-, hflag, -⟩
  have hlength : (-1 : UInt64) = before.length := by simpa using hflag
  have hlt : before.length.toNat < 2 ^ 63 := (before.file.getD emptyFile).2
  rw [← hlength] at hlt
  exact absurd hlt (by decide)

/-- A seek that fails is taken for a length. -/
theorem Holds.sizeFile_not_sound {pageSize : UInt64} {utilization : Utilization}
    (h : before.Holds fd kernel) (hlseek : calls.lseek = false) :
    ¬FileOpened.Sound before
      (kernel.sizeFile pageSize utilization calls fd length fileTruncated) := by
  rw [sizeFile, hlseek]
  have hcurrent : kernel.lseek false = -1 := rfl
  split
  · exact h.not_sound
  · split
    · split
      · exact h.not_sound
      · simpa only [hcurrent, chooseLength_neg_one, ne_eq, not_true, decide_false] using
          h.resize_neg_one_not_sound
    · exact hcurrent ▸ h.resize_neg_one_not_sound

/-- After the first opening everything but `fallocate` and `close` has to succeed. -/
theorem sizeFile_sound_iff {pageSize : UInt64} {utilization : Utilization}
    (h : before.Holds fd kernel) :
    FileOpened.Sound before
        (kernel.sizeFile pageSize utilization calls fd length fileTruncated) ↔
      calls.lseek ∧ calls.fstat ∧ calls.Sizes pageSize utilization before.length length ∧
        calls.openDirect := by
  by_cases hlseek : calls.lseek = true
  swap
  · exact iff_of_false (h.sizeFile_not_sound (Bool.eq_false_iff.mpr hlseek))
      fun hall => hlseek hall.1
  rw [sizeFile]
  by_cases hfstat : calls.fstat = true
  swap
  · simp only [hfstat, Bool.not_false, if_true]
    exact iff_of_false h.not_sound (by simp)
  have hcurrent : kernel.lseek calls.lseek = before.length := by
    rw [Kernel.lseek, if_pos hlseek, h.length]
  rw [hcurrent]
  simp only [hfstat, hlseek, Bool.not_true, Bool.false_eq_true, if_false, KernelCalls.Sizes,
    true_and]
  cases hblk : calls.isBlk with
  | true =>
    rw [if_neg (by simp), resize_sound_iff h]
    simp
  | false =>
    rw [if_pos (by simp)]
    cases hspace : calls.fstatvfs with
    | false =>
      rw [if_pos (by simp)]
      exact iff_of_false h.not_sound (by simp)
    | true =>
      rw [if_neg (by simp), resize_sound_iff h]
      simp [and_comm]

end Kernel

/-- **`linux_file_open` succeeds with a usable file and fails without a descriptor exactly when
nothing fails between the first opening and the end**, `fallocate` and `close` apart. -/
theorem linuxFileOpen_sound_iff (kernel : Kernel) (pageSize : UInt64) (utilization : Utilization)
    (calls : KernelCalls) (length : UInt64) (fileTruncated : Bool) :
    (kernel.linuxFileOpen pageSize utilization calls length fileTruncated).Sound kernel ↔
      (calls.Opens kernel →
        calls.lseek ∧ calls.fstat ∧ calls.Sizes pageSize utilization kernel.length length ∧
          calls.openDirect) := by
  obtain ⟨hopens, hopened⟩ | ⟨hopens, fd, hfd, hholds⟩ := Kernel.firstOpen_cases calls kernel
  · rw [Kernel.linuxFileOpen, hopened]
    refine iff_of_true ⟨AprStatus.noConfusion, fun _ => ⟨rfl, fun fd hfd => hfd⟩⟩ ?_
    exact fun h => absurd h hopens
  · rw [Kernel.linuxFileOpen]
    simp only [hfd]
    rw [if_neg (by omega), Kernel.sizeFile_sound_iff hholds]
    exact ⟨fun h _ => h, fun h => h hopens⟩

/-- A regular file of 4096 bytes on a file system without `O_DIRECT`: the call succeeds with the
descriptor -1. And when `fstatvfs` fails the descriptor 3 stays open. -/
theorem linuxFileOpen_unsound :
    let kernel : Kernel := ⟨[0, 1, 2], some ⟨4096, by decide⟩⟩
    let succeed : KernelCalls :=
      ⟨true, true, true, true, false, true, 4096, 262144, true, true, true, true⟩
    let direct := kernel.linuxFileOpen 4096 (.exact 1)
      { succeed with openDirect := false } 8192 false
    let space := kernel.linuxFileOpen 4096 (.exact 1) { succeed with fstatvfs := false } 8192 false
    (direct.status = .success ∧ direct.rv = some (-1) ∧ ¬direct.Sound kernel) ∧
      space.status = .general ∧ space.kernel.descriptors = [3, 0, 1, 2] ∧
        ¬space.Sound kernel := by
  refine ⟨⟨by decide, by decide, ?_⟩, by decide, by decide, ?_⟩
  · rintro ⟨husable, -⟩
    obtain ⟨fd, hfd, -⟩ := (husable (by decide)).descriptor
    have hneg : (-1 : ℤ) = fd := Option.some_inj.mp hfd
    omega
  · rintro ⟨-, hreleased⟩
    have hmem := (hreleased (by decide)).descriptors 3 (by decide)
    exact absurd hmem (by decide)

/-- The calls as answers of the coarser model, in which a seek cannot fail. -/
def KernelCalls.answers (calls : KernelCalls) (pageSize : UInt64) (utilization : Utilization)
    (currentLength length : UInt64) : SystemCalls where
  openExisting := calls.openExisting
  openCreate := calls.openCreate
  status := calls.fstat
  device := calls.isBlk
  freeSpace := calls.fstatvfs
  freeBytes := calls.fBsize * calls.fBavail
  truncate := calls.ftruncate && (chooseLength pageSize utilization
    (calls.fBsize * calls.fBavail) currentLength length).toNat < 2 ^ 63
  fileEnd := id

/-- The result in the coarser model. -/
def FileOpened.result (opened : FileOpened) : Option Opened :=
  match opened.status with
  | .success => some ⟨opened.length, opened.fileTruncated⟩
  | .general => none

@[simp]
theorem FileOpened.result_general (length : UInt64) (fileTruncated : Bool) (rv : Option ℤ)
    (kernel : Kernel) : FileOpened.result ⟨.general, length, fileTruncated, rv, kernel⟩ = none :=
  rfl

@[simp]
theorem Kernel.resize_result {kernel : Kernel} {calls : KernelCalls} {fd : ℤ} {length : UInt64}
    {fileTruncated : Bool} : (kernel.resize calls fd length fileTruncated).result =
      if fileTruncated && !(calls.ftruncate && decide (length.toNat < 2 ^ 63)) then none
      else some ⟨length, fileTruncated⟩ := by
  cases fileTruncated with
  | false => rfl
  | true =>
    rw [Kernel.resize, if_pos rfl]
    have hanswer : (calls.ftruncate && decide (length.toNat < 2 ^ 63)) = true ↔
        calls.ftruncate = true ∧ length.toNat < 2 ^ 63 := by
      rw [Bool.and_eq_true, decide_eq_true_iff]
    by_cases hworks : calls.ftruncate = true ∧ length.toNat < 2 ^ 63
    · rw [Kernel.ftruncate, dif_pos hworks, hanswer.mpr hworks]
      rfl
    · rw [Kernel.ftruncate, dif_neg hworks, Bool.eq_false_iff.mpr (mt hanswer.mp hworks)]
      rfl

/-- While the seek succeeds, `linux_file_open` is the coarser model of it. -/
theorem Kernel.linuxFileOpen_result {kernel : Kernel} {pageSize : UInt64}
    {utilization : Utilization} {calls : KernelCalls} {length : UInt64} {fileTruncated : Bool}
    (hlseek : calls.lseek = true) :
    (kernel.linuxFileOpen pageSize utilization calls length fileTruncated).result =
      DiskBench.linuxFileOpen pageSize utilization
        (calls.answers pageSize utilization kernel.length length) (kernel.file.map Subtype.val)
        length := by
  have hcurrent : Platform.linux.currentLength (calls.answers pageSize utilization kernel.length
      length) (kernel.file.map Subtype.val) = kernel.length := by
    cases hfile : kernel.file <;> simp [Platform.currentLength, Kernel.length, hfile, emptyFile]
  have hopens : (calls.answers pageSize utilization kernel.length length).opens
      (kernel.file.map Subtype.val) = true ↔ calls.Opens kernel := by
    simp [SystemCalls.opens, KernelCalls.answers, KernelCalls.Opens]
  rw [DiskBench.linuxFileOpen, hcurrent]
  obtain ⟨hnot, hopened⟩ | ⟨hopen, fd, hfd, hholds⟩ := Kernel.firstOpen_cases calls kernel
  · rw [Kernel.linuxFileOpen, hopened]
    have hclosed := Bool.eq_false_iff.mpr fun h => hnot (hopens.mp h)
    rw [hclosed]
    rfl
  · rw [Kernel.linuxFileOpen, hopens.mpr hopen]
    simp only [hfd]
    rw [if_neg (by omega), Kernel.sizeFile]
    have hseek : Kernel.lseek _ calls.lseek = kernel.length :=
      (if_pos hlseek).trans hholds.length
    simp only [hseek, KernelCalls.answers]
    by_cases hfstat : calls.fstat = true
    swap
    · simp [hfstat]
    by_cases hblk : calls.isBlk = true
    · simp [hfstat, hblk]
    by_cases hspace : calls.fstatvfs = true
    swap
    · simp [hfstat, hblk, hspace]
    simp only [hfstat, hblk, hspace, Bool.not_true, Bool.not_false, Bool.or_self,
      Bool.false_eq_true, if_false, if_true]
    exact Kernel.resize_result

end DiskBench
