import DiskBench.Workloads.Generator

/-!
# The sequential workload

`sequential_workload.c`. The generator keeps the offset of the next request and
starts again at offset 0 when that request would end past the end of the file.
-/

namespace DiskBench

/-- `struct sequential_request_generator_data`. -/
structure SequentialData where
  write : Bool
  off : Int64
  reqSize : UInt64

/-- `sequential_request_generator_fill_request`. -/
def sequentialFillRequest (data : SequentialData) (filesize : UInt64) : SequentialData × Target :=
  let request : Target := ⟨data.off, data.reqSize, data.write⟩
  let data := { data with off := (data.off.toUInt64 + data.reqSize).toInt64 }
  if data.off.toUInt64 > filesize then
    ({ data with off := 0 }, { request with offset := 0 })
  else (data, request)

/-- `sequential_request_generator_max_iosize`. -/
def sequentialMaxIosize (data : SequentialData) : UInt64 := data.reqSize

/-- `sequential_request_generator_factory`. -/
def sequentialFactory (write : Bool) : SequentialData := ⟨write, 0, 0⟩

/-- `sequential_request_generator_reset`: the copy of the template that the workload gets. -/
def sequentialReset (template : SequentialData) (reqsize : UInt64) : SequentialData :=
  { template with reqSize := reqsize }

/-- While the next request ends inside the file, it starts at the stored offset
and the stored offset moves behind it. -/
theorem sequentialFillRequest_of_le {data : SequentialData} {filesize : UInt64}
    (h : data.off.toUInt64 + data.reqSize ≤ filesize) :
    sequentialFillRequest data filesize =
      ({ data with off := (data.off.toUInt64 + data.reqSize).toInt64 },
        ⟨data.off, data.reqSize, data.write⟩) := by
  rw [sequentialFillRequest, if_neg (by simpa using h)]

/-- Otherwise the request starts at offset 0, and so does the next one. -/
theorem sequentialFillRequest_of_lt {data : SequentialData} {filesize : UInt64}
    (h : filesize < data.off.toUInt64 + data.reqSize) :
    sequentialFillRequest data filesize =
      ({ data with off := 0 }, ⟨0, data.reqSize, data.write⟩) := by
  rw [sequentialFillRequest, if_pos (by simpa using h)]

/-- A call keeps the direction and the request size, and the request has them. -/
theorem sequentialFillRequest_fixed (data : SequentialData) (filesize : UInt64) :
    (sequentialFillRequest data filesize).1.write = data.write ∧
      (sequentialFillRequest data filesize).1.reqSize = data.reqSize ∧
      (sequentialFillRequest data filesize).2.size = data.reqSize ∧
      (sequentialFillRequest data filesize).2.write = data.write := by
  unfold sequentialFillRequest
  dsimp only
  split <;> exact ⟨rfl, rfl, rfl, rfl⟩

/-- The stored offset is a place in the file and the request size does not exceed the file. -/
structure SequentialData.InFile (data : SequentialData) (filesize : UInt64) : Prop where
  off_le : data.off.toUInt64.toNat ≤ filesize.toNat
  reqSize_pos : 1 ≤ data.reqSize.toNat
  reqSize_le : data.reqSize.toNat ≤ filesize.toNat

/-- The sum that `fill_request` computes does not wrap. -/
def SequentialData.NoWrap (data : SequentialData) : Prop :=
  data.off.toUInt64.toNat + data.reqSize.toNat < 2 ^ 64

theorem SequentialData.InFile.noWrap {data : SequentialData} {filesize : UInt64}
    (h : data.InFile filesize) (hfile : filesize.toNat < 2 ^ 63) : data.NoWrap := by
  have h1 := h.off_le
  have h2 := h.reqSize_le
  unfold SequentialData.NoWrap
  omega

/-- A call keeps the stored offset in the file and produces a request inside it. -/
theorem SequentialData.InFile.fill {data : SequentialData} {filesize : UInt64}
    (h : data.InFile filesize) (hfile : filesize.toNat < 2 ^ 63) :
    (sequentialFillRequest data filesize).1.InFile filesize ∧
      InsideFile filesize (sequentialFillRequest data filesize).2 := by
  have hsum : (data.off.toUInt64 + data.reqSize).toNat =
      data.off.toUInt64.toNat + data.reqSize.toNat := by
    rw [UInt64.toNat_add, Nat.mod_eq_of_lt (h.noWrap hfile)]
  rcases Nat.lt_or_ge filesize.toNat (data.off.toUInt64 + data.reqSize).toNat with hlt | hle
  · rw [sequentialFillRequest_of_lt (UInt64.lt_iff_toNat_lt.mpr hlt)]
    refine ⟨⟨Nat.zero_le _, h.reqSize_pos, h.reqSize_le⟩, ?_⟩
    exact InsideFile.of_toNat (x := 0) h.reqSize_pos (by simpa using h.reqSize_le) hfile
  · rw [sequentialFillRequest_of_le (UInt64.le_iff_toNat_le.mpr hle)]
    refine ⟨⟨by simpa using hle, h.reqSize_pos, h.reqSize_le⟩, ?_⟩
    have hinside : InsideFile filesize ⟨data.off.toUInt64.toInt64, data.reqSize, data.write⟩ :=
      InsideFile.of_toNat h.reqSize_pos (by omega) hfile
    simpa using hinside

/-- After a reset the generator is at the start of the file. -/
theorem sequentialReset_inFile {write : Bool} {reqsize filesize : UInt64}
    (hpos : 1 ≤ reqsize.toNat) (hle : reqsize.toNat ≤ filesize.toNat) :
    (sequentialReset (sequentialFactory write) reqsize).InFile filesize :=
  ⟨Nat.zero_le _, hpos, hle⟩

end DiskBench
