import Mathlib.Algebra.Group.Nat.Defs
import Mathlib.Data.Int.Notation
import Mathlib.Logic.Function.Iterate
import DiskBench.Foundations.WordMemory
import DiskBench.Foundations.XorShift

/-!
# The data model of the benchmark

The structures of `diskBench.h` with the fields that the request path reads and
writes. Sizes and counters are 64-bit words, offsets are signed 64-bit integers
and times (`apr_time_t`, microseconds) are integers. A buffer is addressed by
64-bit words, as the integrity pattern is written and compared word by word.
-/

namespace DiskBench

/-- A buffer or the content of a file, as a sequence of 64-bit words. -/
abbrev Memory := ℕ → UInt64

/-- `apr_time_t`: a point in time or a duration in microseconds. -/
abbrev AprTime := ℤ

/-- A word below `2 ^ 63` keeps its value as a signed integer. -/
theorem toInt_toInt64 {x : UInt64} (hx : x.toNat < 2 ^ 63) : x.toInt64.toInt = x.toNat :=
  BitVec.toInt_eq_toNat_of_lt (x := x.toBitVec) (by simpa using (by omega : 2 * x.toNat < 2 ^ 64))

/-- The constant that fills a sector when random writing is off. -/
def nonrandomConstant : UInt64 := 0xABCDEF9876543210

/-- `random_uint64_t`: one step of the generator. The C function stores the new
state in `*seed` and returns the same word. -/
def randomUint64T (seed : UInt64) : UInt64 :=
  let seed := seed ^^^ (seed <<< 13)
  let seed := seed ^^^ (seed >>> 7)
  seed ^^^ (seed <<< 17)

private theorem xorShiftLeft_injective {k : UInt64} (hk : 0 < (k % 64).toNat) :
    Function.Injective fun x : UInt64 => x ^^^ (x <<< k) := by
  intro x y h
  have hbits := congrArg UInt64.toBitVec h
  simp only [UInt64.toBitVec_xor, UInt64.toBitVec_shiftLeft] at hbits
  exact UInt64.toBitVec_inj.mp (XorShift.xor_shiftLeft_injective hk hbits)

private theorem xorShiftRight_injective {k : UInt64} (hk : 0 < (k % 64).toNat) :
    Function.Injective fun x : UInt64 => x ^^^ (x >>> k) := by
  intro x y h
  have hbits := congrArg UInt64.toBitVec h
  simp only [UInt64.toBitVec_xor, UInt64.toBitVec_shiftRight] at hbits
  exact UInt64.toBitVec_inj.mp (XorShift.xor_ushiftRight_injective hk hbits)

/-- The generator never merges two states. -/
theorem randomUint64T_injective : Function.Injective randomUint64T := by
  have hleft : Function.Injective fun x : UInt64 => x ^^^ (x <<< 13) :=
    xorShiftLeft_injective (by decide)
  have hright : Function.Injective fun x : UInt64 => x ^^^ (x >>> 7) :=
    xorShiftRight_injective (by decide)
  have hleft' : Function.Injective fun x : UInt64 => x ^^^ (x <<< 17) :=
    xorShiftLeft_injective (by decide)
  exact (hleft'.comp hright).comp hleft

/-- `struct io_request`. -/
structure IoRequest where
  /-- Byte offset in the file. -/
  offset : Int64
  /-- Number of bytes. -/
  size : UInt64
  /-- The content of the slot's part of the worker's buffer. -/
  buf : Memory
  /-- Where that part starts in the worker's buffer, in bytes. -/
  bufStart : UInt64
  /-- Size of that part in bytes. -/
  bufsize : UInt64
  preSubmission : AprTime
  postSubmission : AprTime
  completed : AprTime
  /-- Direction, the truth value of the C field. -/
  write : Bool

/-- The request with another content of its buffer. -/
def IoRequest.setBuf (r : IoRequest) (buf : Memory) : IoRequest := { r with buf := buf }

/-- The request with its time of completion. -/
def IoRequest.setCompleted (r : IoRequest) (now : AprTime) : IoRequest :=
  { r with completed := now }

/-- The completion callbacks of a queue entry. A fresh entry is zeroed. -/
inductive Iocallback where
  | null
  | readComplete
  | writeComplete
  deriving DecidableEq

/-- `struct async_queue_entry`. The ring link is the entry's place in `AsyncQueue.ready`. -/
structure AsyncQueueEntry where
  request : IoRequest
  callback : Iocallback

/-- `struct async_queue`. Entries are named by their index in `ioaqes`. -/
structure AsyncQueue where
  total : UInt32
  active : UInt32
  free : UInt32
  /-- The ring of ready entries, first entry first. -/
  ready : List ℕ
  ioaqes : ℕ → AsyncQueueEntry

/-- `struct io_worker`, the fields used by the request path. -/
structure IoWorker where
  filesize : UInt64
  bufsize : UInt64
  iolimit : UInt64
  configuredIolimit : UInt64
  lastIntegrityWrittenOffset : UInt64
  randomSeed : UInt64
  truncateFile : Bool

/-- The worker with another random seed. -/
def IoWorker.setSeed (worker : IoWorker) (seed : UInt64) : IoWorker :=
  { worker with randomSeed := seed }

/-- The counters that `struct io_workload` keeps once for reads and once for writes. -/
structure IoCounters where
  requests : UInt64
  bytes : UInt64
  elapsed : AprTime
  minLatency : AprTime
  maxLatency : AprTime
  deriving DecidableEq

/-- The counters at the start of a workload. -/
def IoCounters.zero : IoCounters := ⟨0, 0, 0, 0, 0⟩

/-- The counters after one more request of the given latency and size. -/
def IoCounters.record (c : IoCounters) (elapsed : AprTime) (size : UInt64) : IoCounters where
  requests := c.requests + 1
  bytes := c.bytes + size
  elapsed := c.elapsed + elapsed
  minLatency := if c.requests = 0 ∨ elapsed < c.minLatency then elapsed else c.minLatency
  maxLatency := if c.requests = 0 ∨ elapsed > c.maxLatency then elapsed else c.maxLatency

/-- `struct io_workload`, the fields written by the worker thread. -/
structure IoWorkload where
  submittedBytes : UInt64
  read : IoCounters
  write : IoCounters
  startTime : AprTime
  endTime : AprTime
  queueDepth : Int32
  maxActive : Int32

/-- The 64-bit value of the offset, as it enters unsigned arithmetic. -/
def IoRequest.off (r : IoRequest) : UInt64 := r.offset.toUInt64

/-- The number of 512-byte sectors that a request touches, the last one possibly in part. -/
def IoRequest.sectors (r : IoRequest) : ℕ := (r.size.toNat + 511) / 512

/-- The 64-bit offset of sector `k` of a request. -/
def IoRequest.sectorOff (r : IoRequest) (k : ℕ) : UInt64 := r.off + UInt64.ofNat (512 * k)

/-- The number of sector `k` of a request in the file. -/
def IoRequest.sectorAddr (r : IoRequest) (k : ℕ) : ℕ := (r.sectorOff k).toNat / 512

/-- Offset and size are multiples of 512, as direct I/O requires. -/
structure IoRequest.Aligned (r : IoRequest) : Prop where
  offset : 512 ∣ r.off.toNat
  size : 512 ∣ r.size.toNat

/-- Every sector of an aligned request starts at a multiple of 512. -/
theorem IoRequest.Aligned.sectorOff_dvd {r : IoRequest} (h : r.Aligned) (k : ℕ) :
    512 ∣ (r.sectorOff k).toNat := by
  have hoff := h.offset
  simp only [IoRequest.sectorOff, UInt64.toNat_add, UInt64.toNat_ofNat']
  omega

end DiskBench
