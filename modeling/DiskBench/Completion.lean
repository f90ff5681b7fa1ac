import Mathlib.Tactic.Push
import DiskBench.Pattern

/-!
# Completion callbacks

`read_complete` and `write_complete` of `queue.c`. Both record the latency and the
size of the request; the first compares the data read with the pattern, the second
moves the integrity watermark of the worker.
-/

namespace DiskBench

open WordMemory

/-- `read_complete`. An error is the text with which the process exits. -/
def readComplete (writeRandom : Bool) (worker : IoWorker) (workload : IoWorkload)
    (request : IoRequest) (now : AprTime) : Except String (IoRequest × IoWorkload) :=
  let elapsed := now - request.preSubmission
  let workload := { workload with read := workload.read.record elapsed request.size }
  match checkBuffer writeRandom request worker.lastIntegrityWrittenOffset with
  | .error output => .error output
  | .ok _ => .ok ({ request with completed := now }, workload)

/-- The end of `write_complete`: a write that starts at the watermark moves it. -/
def IoWorker.advance (worker : IoWorker) (request : IoRequest) : IoWorker :=
  if request.off = worker.lastIntegrityWrittenOffset then
    { worker with lastIntegrityWrittenOffset := request.off + request.size }
  else worker

/-- `write_complete`. -/
def writeComplete (worker : IoWorker) (workload : IoWorkload) (request : IoRequest)
    (now : AprTime) : IoRequest × IoWorkload × IoWorker :=
  let elapsed := now - request.preSubmission
  let workload := { workload with write := workload.write.record elapsed request.size }
  ({ request with completed := now }, workload, worker.advance request)

/-- `read_complete` either records the request or calls `integrity_error`; the
comparing loop decides which. -/
theorem readComplete_ok_iff {writeRandom : Bool} {worker : IoWorker} {workload : IoWorkload}
    {request : IoRequest} {now : AprTime} {result : IoRequest × IoWorkload} :
    readComplete writeRandom worker workload request now = .ok result ↔
      (∃ i, checkBuffer writeRandom request worker.lastIntegrityWrittenOffset = .ok i) ∧
        result = ({ request with completed := now },
          { workload with
            read := workload.read.record (now - request.preSubmission) request.size }) := by
  simp only [readComplete]
  cases checkBuffer writeRandom request worker.lastIntegrityWrittenOffset with
  | error output => simp
  | ok i => simp [eq_comm]

/-- `read_complete` calls `integrity_error` exactly when a sector that its loop
reaches below the watermark does not carry the pattern. -/
theorem readComplete_error_iff {writeRandom : Bool} {worker : IoWorker} {workload : IoWorkload}
    {request : IoRequest} {now : AprTime} :
    (∃ output, readComplete writeRandom worker workload request now = .error output) ↔
      ∃ k, k < request.sectors ∧
        (∀ j, j ≤ k → request.sectorOff j < worker.lastIntegrityWrittenOffset) ∧
        ¬CarriesPattern writeRandom (request.sectorOff k) (block 64 request.buf k) := by
  have hok := @checkBuffer_ok_iff writeRandom request worker.lastIntegrityWrittenOffset
  simp only [readComplete]
  cases hcheck : checkBuffer writeRandom request worker.lastIntegrityWrittenOffset with
  | error output =>
    simp only [hcheck, reduceCtorEq, exists_false, false_iff] at hok
    push Not at hok
    simpa using hok
  | ok i =>
    have hall := hok.mp ⟨i, hcheck⟩
    simp only [reduceCtorEq, exists_false, false_iff]
    rintro ⟨k, hk, hreach, hnot⟩
    exact hnot (hall k hk hreach)

end DiskBench
