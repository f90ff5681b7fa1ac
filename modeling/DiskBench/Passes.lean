import DiskBench.Workloads.Sequential
import Mathlib.Data.Nat.ModEq

/-!
# The order of a sequential workload

The wrap test of `sequential_request_generator_fill_request` is made after the position has been
advanced. A request that would end behind the file is sent to offset 0, and the stored position
becomes 0 as well, so the request after it is at offset 0 again. A file of `B` whole blocks is
therefore read in passes of `B + 1` requests.
-/

namespace DiskBench

/-- The generator after `n` requests. -/
def SequentialData.after (data : SequentialData) (filesize : UInt64) : ℕ → SequentialData
  | 0 => data
  | n + 1 => (sequentialFillRequest (data.after filesize n) filesize).1

/-- The request that the generator produces after `n` others. -/
def SequentialData.request (data : SequentialData) (filesize : UInt64) (n : ℕ) : Target :=
  (sequentialFillRequest (data.after filesize n) filesize).2

/-- The `n`-th request after a reset is at offset `r * (n mod B)`, where `B` is the number of whole
blocks of `r` bytes in the file. -/
def InBlockOrder (write : Bool) (r filesize : UInt64) (n : ℕ) : Prop :=
  ((sequentialReset (sequentialFactory write) r).request filesize n).offset.toInt =
    ((r.toNat * (n % (filesize.toNat / r.toNat)) : ℕ) : ℤ)

instance (write : Bool) (r filesize : UInt64) (n : ℕ) :
    Decidable (InBlockOrder write r filesize n) :=
  inferInstanceAs (Decidable (_ = _))

section Passes

variable {write : Bool} {r filesize : UInt64}

/-- A generator at block `k` of the file. -/
def SequentialData.atBlock (write : Bool) (r : UInt64) (k : ℕ) : SequentialData :=
  ⟨write, (UInt64.ofNat (k * r.toNat)).toInt64, r⟩

/-- The sum that `fill_request` makes at block `k`. -/
theorem atBlock_sum (write : Bool) (r : UInt64) (k : ℕ) :
    (SequentialData.atBlock write r k).off.toUInt64 + (SequentialData.atBlock write r k).reqSize =
      UInt64.ofNat ((k + 1) * r.toNat) := by
  show (UInt64.ofNat (k * r.toNat)).toInt64.toUInt64 + r = _
  rw [UInt64.toUInt64_toInt64, Nat.succ_mul, UInt64.ofNat_add, UInt64.ofNat_toNat]

/-- A block that ends in the file is requested, and the next block follows. -/
theorem fill_inside {k : ℕ} (h : (k + 1) * r.toNat ≤ filesize.toNat) :
    sequentialFillRequest (.atBlock write r k) filesize =
      (.atBlock write r (k + 1), ⟨(UInt64.ofNat (k * r.toNat)).toInt64, r, write⟩) := by
  have hle : (SequentialData.atBlock write r k).off.toUInt64 +
      (SequentialData.atBlock write r k).reqSize ≤ filesize := by
    rw [atBlock_sum, UInt64.le_iff_toNat_le,
      UInt64.toNat_ofNat_of_lt' (Nat.lt_of_le_of_lt h filesize.toNat_lt)]
    exact h
  rw [sequentialFillRequest_of_le hle, atBlock_sum]
  rfl

/-- A block that ends behind the file is requested at offset 0, and the stored position is block 0,
not block 1. -/
theorem fill_behind {k : ℕ} (h : filesize.toNat < (k + 1) * r.toNat)
    (hwrap : (k + 1) * r.toNat < 2 ^ 64) :
    sequentialFillRequest (.atBlock write r k) filesize = (.atBlock write r 0, ⟨0, r, write⟩) := by
  have hlt : filesize < (SequentialData.atBlock write r k).off.toUInt64 +
      (SequentialData.atBlock write r k).reqSize := by
    rw [atBlock_sum, UInt64.lt_iff_toNat_lt, UInt64.toNat_ofNat_of_lt' hwrap]
    exact h
  rw [sequentialFillRequest_of_lt hlt]
  simp [SequentialData.atBlock]

/-- The first pass: while block `k` starts in the file, it is the position after `k` requests. -/
theorem after_firstPass {k : ℕ} (h : k * r.toNat ≤ filesize.toNat) :
    (sequentialReset (sequentialFactory write) r).after filesize k = .atBlock write r k := by
  induction k with
  | zero => simp [SequentialData.after, sequentialReset, sequentialFactory, SequentialData.atBlock]
  | succ k ih =>
    have hk : k * r.toNat ≤ filesize.toNat :=
      Nat.le_trans (Nat.mul_le_mul_right _ (Nat.le_succ k)) h
    rw [SequentialData.after, ih hk, fill_inside h]

/-- The number of whole blocks in the file. -/
theorem blocks_pos (hr : 1 ≤ r.toNat) (hfile : r.toNat ≤ filesize.toNat) :
    1 ≤ filesize.toNat / r.toNat :=
  Nat.div_pos hfile hr

/-- The place of request `n + 1` in a pass of `B + 1` requests. -/
theorem succ_mod_pass (B n : ℕ) :
    (n + 1) % (B + 1) = if n % (B + 1) = B then 0 else n % (B + 1) + 1 := by
  have hlt : n % (B + 1) < B + 1 := Nat.mod_lt n (Nat.succ_pos B)
  rw [← Nat.mod_add_mod]
  split
  next h => rw [h, Nat.mod_self]
  next h => exact Nat.mod_eq_of_lt (by omega)

/-- **The passes.** In a file of `B` whole blocks the position after `n` requests is block
`n mod (B + 1)`. -/
theorem after_passes (hr : 1 ≤ r.toNat) (hwrap : (filesize.toNat / r.toNat + 1) * r.toNat < 2 ^ 64)
    (n : ℕ) :
    (sequentialReset (sequentialFactory write) r).after filesize n =
      .atBlock write r (n % (filesize.toNat / r.toNat + 1)) := by
  induction n with
  | zero => exact after_firstPass (by simp)
  | succ n ih =>
    rw [SequentialData.after, ih, succ_mod_pass]
    split
    next hlast =>
      rw [hlast, fill_behind (Nat.lt_mul_of_div_lt (Nat.lt_succ_self _) hr) hwrap]
    next hinner =>
      have hlt : n % (filesize.toNat / r.toNat + 1) < filesize.toNat / r.toNat + 1 :=
        Nat.mod_lt n (Nat.succ_pos _)
      have hblock : (n % (filesize.toNat / r.toNat + 1) + 1) * r.toNat ≤ filesize.toNat :=
        Nat.le_trans (Nat.mul_le_mul_right _ (by omega)) (Nat.div_mul_le_self _ _)
      rw [fill_inside hblock]

/-- The offset of the `n`-th request: the first and the last request of a pass are both at
offset 0. -/
theorem request_offset (hr : 1 ≤ r.toNat)
    (hwrap : (filesize.toNat / r.toNat + 1) * r.toNat < 2 ^ 64) (n : ℕ) :
    ((sequentialReset (sequentialFactory write) r).request filesize n).offset =
      (UInt64.ofNat (n % (filesize.toNat / r.toNat + 1) % (filesize.toNat / r.toNat) *
        r.toNat)).toInt64 := by
  rw [SequentialData.request, after_passes hr hwrap]
  have hlt : n % (filesize.toNat / r.toNat + 1) < filesize.toNat / r.toNat + 1 :=
    Nat.mod_lt n (Nat.succ_pos _)
  by_cases hlast : n % (filesize.toNat / r.toNat + 1) = filesize.toNat / r.toNat
  · rw [hlast, fill_behind (Nat.lt_mul_of_div_lt (Nat.lt_succ_self _) hr) hwrap, Nat.mod_self,
      Nat.zero_mul]
    rfl
  · have hinner : n % (filesize.toNat / r.toNat + 1) < filesize.toNat / r.toNat := by omega
    rw [Nat.mod_eq_of_lt hinner, fill_inside (Nat.le_trans (Nat.mul_le_mul_right _ hinner)
      (Nat.div_mul_le_self _ _))]

/-- A position of the file as a signed offset. -/
theorem toInt_ofNat_offset {x : ℕ} (h : x < 2 ^ 63) :
    (UInt64.ofNat x).toInt64.toInt = (x : ℤ) := by
  have hx : (UInt64.ofNat x).toNat = x := UInt64.toNat_ofNat_of_lt' (Nat.lt_trans h (by decide))
  rw [toInt_toInt64 (by rwa [hx]), hx]

/-- The sum of the whole passes and the place in the pass: each pass is one request too long. -/
theorem pass_mod_eq_iff (B n : ℕ) : n % (B + 1) % B = n % B ↔ B ∣ n / (B + 1) := by
  have hsplit : n = n % (B + 1) + n / (B + 1) + B * (n / (B + 1)) := by
    have h := Nat.mod_add_div n (B + 1)
    rw [Nat.succ_mul] at h
    omega
  have hmod : n % B = (n % (B + 1) + n / (B + 1)) % B :=
    calc n % B = (n % (B + 1) + n / (B + 1) + B * (n / (B + 1))) % B := congrArg (· % B) hsplit
      _ = (n % (B + 1) + n / (B + 1)) % B := Nat.add_mul_mod_self_left _ _ _
  rw [hmod]
  constructor
  · intro h
    have hzero : Nat.ModEq B (n / (B + 1)) 0 := Nat.ModEq.add_left_cancel' (n % (B + 1)) h.symm
    exact Nat.modEq_zero_iff_dvd.mp hzero
  · rintro ⟨q, hq⟩
    rw [hq, Nat.add_mul_mod_self_left]

/-- In a file below 2^63 bytes a request is in block order exactly when the number of passes before
it is a multiple of the number of blocks. -/
theorem inBlockOrder_iff (hr : 1 ≤ r.toNat) (hfile : r.toNat ≤ filesize.toNat)
    (hbound : filesize.toNat < 2 ^ 63) (n : ℕ) :
    InBlockOrder write r filesize n ↔
      filesize.toNat / r.toNat ∣ n / (filesize.toNat / r.toNat + 1) := by
  have hblocks : filesize.toNat / r.toNat * r.toNat ≤ filesize.toNat := Nat.div_mul_le_self _ _
  have hwrap : (filesize.toNat / r.toNat + 1) * r.toNat < 2 ^ 64 := by
    rw [Nat.succ_mul]
    omega
  have hoffset : n % (filesize.toNat / r.toNat + 1) % (filesize.toNat / r.toNat) * r.toNat <
      2 ^ 63 := by
    have hmod := Nat.mod_lt (n % (filesize.toNat / r.toNat + 1)) (Nat.div_pos hfile hr)
    exact Nat.lt_of_le_of_lt
      (Nat.le_trans (Nat.mul_le_mul_right _ (Nat.le_of_lt hmod)) hblocks) hbound
  rw [InBlockOrder, request_offset hr hwrap, toInt_ofNat_offset hoffset, ← pass_mod_eq_iff]
  rw [Int.natCast_inj, Nat.mul_comm r.toNat, Nat.mul_left_inj (Nat.ne_of_gt hr)]

/-- Where the sum of the last block and the request size wraps, the request after the last block
is behind it. -/
theorem not_inBlockOrder_of_wrap (hr : 1 ≤ r.toNat) (hfile : r.toNat ≤ filesize.toNat)
    (hwrap : 2 ^ 64 ≤ (filesize.toNat / r.toNat + 1) * r.toNat) :
    ¬ InBlockOrder write r filesize (filesize.toNat / r.toNat) := by
  have hblocks : filesize.toNat / r.toNat * r.toNat ≤ filesize.toNat := Nat.div_mul_le_self _ _
  have hlt := filesize.toNat_lt
  have hle : (SequentialData.atBlock write r (filesize.toNat / r.toNat)).off.toUInt64 +
      (SequentialData.atBlock write r (filesize.toNat / r.toNat)).reqSize ≤ filesize := by
    rw [atBlock_sum, UInt64.le_iff_toNat_le, UInt64.toNat_ofNat']
    rw [Nat.succ_mul] at hwrap ⊢
    omega
  have hoff : (UInt64.ofNat (filesize.toNat / r.toNat * r.toNat)).toNat ≠ 0 := by
    rw [UInt64.toNat_ofNat_of_lt' (Nat.lt_of_le_of_lt hblocks hlt)]
    exact Nat.mul_ne_zero (Nat.ne_of_gt (Nat.div_pos hfile hr)) (Nat.ne_of_gt hr)
  intro h
  rw [InBlockOrder, SequentialData.request, after_firstPass hblocks,
    sequentialFillRequest_of_le hle, Nat.mod_self, Nat.mul_zero] at h
  have hzero : (UInt64.ofNat (filesize.toNat / r.toNat * r.toNat)).toInt64 = 0 :=
    Int64.toInt_inj.mp h
  apply hoff
  rw [← UInt64.toUInt64_toInt64 (UInt64.ofNat _), hzero]
  rfl

/-- A sequential workload issues every block of the file once in each pass, in ascending order and
with offset 0 issued once, exactly when the file holds a single block and twice the request size is
below 2^64. Request by request, in a file of `B` blocks below 2^63 bytes: when the number of passes
of `B + 1` requests before it is a multiple of `B`. -/
theorem sequential_blockOrder_iff (write : Bool) (r filesize : UInt64) (hr : 1 ≤ r.toNat)
    (hfile : r.toNat ≤ filesize.toNat) :
    ((∀ n, InBlockOrder write r filesize n) ↔
        filesize.toNat / r.toNat = 1 ∧ r.toNat < 2 ^ 63) ∧
      (filesize.toNat < 2 ^ 63 → ∀ n, InBlockOrder write r filesize n ↔
        filesize.toNat / r.toNat ∣ n / (filesize.toNat / r.toNat + 1)) := by
  refine ⟨⟨fun h => ?_, ?_⟩, inBlockOrder_iff hr hfile⟩
  · have hwrap : (filesize.toNat / r.toNat + 1) * r.toNat < 2 ^ 64 := by
      by_contra hwrap
      exact not_inBlockOrder_of_wrap hr hfile (Nat.le_of_not_lt hwrap) (h _)
    -- The first request of the second pass is at offset 0.
    have hsecond := h (filesize.toNat / r.toNat + 1)
    rw [InBlockOrder, request_offset hr hwrap, Nat.mod_self, Nat.zero_mod, Nat.zero_mul,
      toInt_ofNat_offset (by decide), Int.natCast_inj, Nat.add_mod_left] at hsecond
    have hone : filesize.toNat / r.toNat = 1 := by
      by_contra hne
      rw [Nat.mod_eq_of_lt (by have := Nat.div_pos hfile hr; omega)] at hsecond
      omega
    rw [hone] at hwrap
    exact ⟨hone, by omega⟩
  · rintro ⟨hone, hbound⟩ n
    rw [InBlockOrder, request_offset hr (by rw [hone]; omega), hone, Nat.mod_one, Nat.mod_one,
      Nat.zero_mul, Nat.mul_zero]
    exact toInt_ofNat_offset (by decide)

end Passes

/-- The statement at a file of one block. -/
theorem sequential_blockOrder_iff_oneBlock :
    ((∀ n, InBlockOrder false 4096 4096 n) ↔
        (4096 : UInt64).toNat / (4096 : UInt64).toNat = 1 ∧ (4096 : UInt64).toNat < 2 ^ 63) ∧
      ((4096 : UInt64).toNat < 2 ^ 63 → ∀ n, InBlockOrder false 4096 4096 n ↔
        (4096 : UInt64).toNat / (4096 : UInt64).toNat ∣
          n / ((4096 : UInt64).toNat / (4096 : UInt64).toNat + 1)) :=
  sequential_blockOrder_iff false 4096 4096 (by decide) (by decide)

/-- In a file of two blocks the requests are at 0, 512, 0 and again 0. -/
theorem sequential_repeats_offset_zero :
    (List.range 4).map (fun n =>
        ((sequentialReset (sequentialFactory false) 512).request 1024 n).offset) = [0, 512, 0, 0] ∧
      ¬ ∀ n, InBlockOrder false 512 1024 n :=
  ⟨by decide, fun h => absurd (h 3) (by decide)⟩

end DiskBench
