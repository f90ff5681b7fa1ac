import DiskBench.Types

/-!
# The file as the device sees it

The device keeps the content of the file, the requests in flight and which of their
sectors have taken effect. It also logs the accepted requests and the completions; the
program never reads these logs.
-/

namespace DiskBench

open WordMemory

/-- What became of a request: transferred in full, transferred in part, or failed
with an error number. -/
inductive Transfer where
  | full
  | short (bytes : UInt64)
  | failed (errno : ℕ)
  deriving DecidableEq

/-- The number of bytes really transferred for a request. -/
def Transfer.bytes : Transfer → IoRequest → UInt64
  | .full, request => request.size
  | .short bytes, _ => bytes
  | .failed _, _ => 0

/-- The device with the requests in flight, oldest first. -/
structure Device where
  disk : Memory
  inflight : List ℕ
  /-- `served i k`: sector `k` of the request of entry `i` has taken effect. -/
  served : ℕ → ℕ → Bool
  /-- The accepted requests in the order of submission. -/
  submissions : List IoRequest
  /-- The notified requests in the order of notification. -/
  completions : List (IoRequest × Transfer)

/-- The file after sector `k` of a write has taken effect. -/
def storeSector (disk : Memory) (request : IoRequest) (k : ℕ) : Memory :=
  copyBlock 64 request.buf k disk (request.sectorAddr k)

/-- The request after sector `k` of a read has taken effect. -/
def fetchSector (disk : Memory) (request : IoRequest) (k : ℕ) : IoRequest :=
  { request with buf := copyBlock 64 disk (request.sectorAddr k) request.buf k }

/-- The file after the first `n` sectors of a write have taken effect. -/
def storeSectors (disk : Memory) (request : IoRequest) : ℕ → Memory
  | 0 => disk
  | n + 1 => storeSector (storeSectors disk request n) request n

/-- The request after the first `n` sectors of a read have taken effect. -/
def fetchSectors (disk : Memory) (request : IoRequest) : ℕ → IoRequest
  | 0 => request
  | n + 1 => fetchSector disk (fetchSectors disk request n) n

/-- The file after all sectors of a write have taken effect. -/
def storeRequest (disk : Memory) (request : IoRequest) : Memory :=
  storeSectors disk request request.sectors

/-- The request after all sectors of a read have taken effect. -/
def fetchRequest (disk : Memory) (request : IoRequest) : IoRequest :=
  fetchSectors disk request request.sectors

/-- Fetching sectors changes only the buffer, and every sector fetched holds the sector of the
file afterwards. -/
theorem fetchSectors_spec (disk : Memory) (r : IoRequest) (n : ℕ) :
    ∃ buf, fetchSectors disk r n = r.setBuf buf ∧ ∀ k, k < n → ∀ w, w < 64 →
      block 64 buf k w = block 64 disk (r.sectorAddr k) w := by
  induction n with
  | zero => exact ⟨r.buf, rfl, fun k hk => by omega⟩
  | succ n ih =>
    obtain ⟨buf, hfetch, hblock⟩ := ih
    rw [fetchSectors, hfetch]
    refine ⟨_, rfl, fun k hk w hw => ?_⟩
    rw [block_copyBlock hw]
    by_cases heq : k = n
    · rw [if_pos heq, heq]
      rfl
    · rw [if_neg heq]
      exact hblock k (by omega) w hw

end DiskBench
