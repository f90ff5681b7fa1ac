import DiskBench.Queue

/-!
# Opening a file

`linux_file_open` and `win32_file_open`: the rules for the length of a regular file, the answers
of the system calls, and the flag for a file whose length has been changed. A file is given by
its length, or is absent. The two floating point products with `freespace_percentage` are
parameters.
-/

namespace DiskBench

/-- The products with `freespace_percentage`, converted to 64-bit words. -/
structure Utilization where
  /-- `(free_bytes + current_length)*freespace_percentage`. -/
  ofSum : UInt64 → UInt64
  /-- `((double) free_bytes+current_length)*freespace_percentage`. -/
  ofParts : UInt64 → UInt64 → UInt64

/-- The utilization `0.8/n` in exact arithmetic. -/
def Utilization.exact (n : ℕ) : Utilization where
  ofSum bytes := UInt64.ofNat (4 * bytes.toNat / (5 * n))
  ofParts freeBytes currentLength :=
    UInt64.ofNat (4 * (freeBytes.toNat + currentLength.toNat) / (5 * n))

/-- `128*APR_UINT64_C(1048576)`. -/
def reuseLength : UInt64 := 128 * 1048576

/-- A requested length, unless it is larger than the space available. -/
def availableLength (pageSize : UInt64) (utilization : Utilization)
    (freeBytes currentLength length : UInt64) : UInt64 :=
  if length > freeBytes + currentLength then
    let length := utilization.ofSum (freeBytes + currentLength)
    length - length % pageSize
  else length

/-- The length based on the space available, in units of 128 MiB. -/
def defaultLength (utilization : Utilization) (freeBytes currentLength : UInt64) : UInt64 :=
  utilization.ofParts freeBytes currentLength / reuseLength * reuseLength

/-- The length of a regular file. -/
def chooseLength (pageSize : UInt64) (utilization : Utilization)
    (freeBytes currentLength length : UInt64) : UInt64 :=
  let length := availableLength pageSize utilization freeBytes currentLength length
  let length := if currentLength > reuseLength then currentLength else length
  if length = 0 then defaultLength utilization freeBytes currentLength else length

/-- The answers of the system calls. -/
structure SystemCalls where
  /-- A file that exists can be opened. -/
  openExisting : Bool
  /-- A file can be created, or opened by the call that creates one. -/
  openCreate : Bool
  /-- `fstat`, or the calls for a completion port and for the length of a device. -/
  status : Bool
  /-- Whether the name is that of a device. -/
  device : Bool
  /-- `fstatvfs`; the Windows version does not look whether its call succeeds. -/
  freeSpace : Bool
  freeBytes : UInt64
  /-- `ftruncate`. -/
  truncate : Bool
  /-- The end of the file that Windows reports after the length has been set. -/
  fileEnd : UInt64 → UInt64

/-- The answers for a regular file when nothing fails. -/
def SystemCalls.succeed (freeBytes : UInt64) : SystemCalls :=
  ⟨true, true, true, false, true, freeBytes, true, id⟩

/-- What `file_open` returns. -/
structure Opened where
  length : UInt64
  fileTruncated : Bool

/-- The length of the file that is found once it is open. Windows empties a file that it
creates. -/
def Platform.currentLength (platform : Platform) (calls : SystemCalls) (file : Option UInt64) :
    UInt64 :=
  match platform with
  | .linux => file.getD 0
  | .win32 => if calls.openExisting then file.getD 0 else 0

/-- Whether the file can be opened. -/
def SystemCalls.opens (calls : SystemCalls) (file : Option UInt64) : Bool :=
  file.isSome && calls.openExisting || calls.openCreate

/-- `linux_file_open`. It returns an error when it has no result. -/
def linuxFileOpen (pageSize : UInt64) (utilization : Utilization) (calls : SystemCalls)
    (file : Option UInt64) (length : UInt64) : Option Opened :=
  let currentLength := Platform.linux.currentLength calls file
  if !calls.opens file || !calls.status then none
  else if !calls.device then
    if !calls.freeSpace then none
    else
      let length := chooseLength pageSize utilization calls.freeBytes currentLength length
      let fileTruncated := decide (length ≠ currentLength)
      if fileTruncated && !calls.truncate then none else some ⟨length, fileTruncated⟩
  else some ⟨currentLength, false⟩

/-- `win32_file_open`. -/
def win32FileOpen (pageSize : UInt64) (utilization : Utilization) (calls : SystemCalls)
    (file : Option UInt64) (length : UInt64) : Option Opened :=
  let currentLength := Platform.win32.currentLength calls file
  if !calls.opens file || !calls.status then none
  else if !calls.device then
    let length := chooseLength pageSize utilization calls.freeBytes currentLength length
    if length ≠ currentLength then some ⟨calls.fileEnd length, true⟩
    else some ⟨currentLength, false⟩
  else some ⟨currentLength, false⟩

/-- `platform_ops->file_open`. -/
def Platform.fileOpen (platform : Platform) (pageSize : UInt64) (utilization : Utilization)
    (calls : SystemCalls) (file : Option UInt64) (length : UInt64) : Option Opened :=
  match platform with
  | .linux => linuxFileOpen pageSize utilization calls file length
  | .win32 => win32FileOpen pageSize utilization calls file length

/-- The flag of a regular file says that its length has been changed. -/
theorem fileOpen_fileTruncated {platform : Platform} {pageSize : UInt64}
    {utilization : Utilization} {calls : SystemCalls} {file : Option UInt64} {length : UInt64}
    {opened : Opened} (hdevice : calls.device = false)
    (h : platform.fileOpen pageSize utilization calls file length = some opened) :
    opened.fileTruncated = true ↔
      chooseLength pageSize utilization calls.freeBytes (platform.currentLength calls file)
        length ≠ platform.currentLength calls file := by
  cases platform with
  | linux =>
    simp only [Platform.fileOpen, linuxFileOpen, hdevice] at h
    split at h
    · cases h
    · simp only [Bool.not_false, if_true] at h
      split at h
      · cases h
      · split at h
        · cases h
        · cases h
          exact decide_eq_true_iff
  | win32 =>
    simp only [Platform.fileOpen, win32FileOpen, hdevice] at h
    split at h
    · cases h
    · simp only [Bool.not_false, if_true] at h
      split at h
      · rename_i hne
        cases h
        exact ⟨fun _ => hne, fun _ => rfl⟩
      · rename_i heq
        cases h
        exact ⟨nofun, fun hne => absurd hne heq⟩

end DiskBench
