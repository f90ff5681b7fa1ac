import DiskBench.Foundations.LogBuckets
import DiskBench.Types

/-!
# The latency histogram

The index of a latency in the histogram and the latency that stands for an index, from `stat.h` and
from `diskBenchStat.c`. An `int` is an integer. Both indices are the bucket by the six bits behind
the leading one, of latencies that are cut off at the last bucket.
-/

namespace DiskBench

open LogBuckets

/-- The loops that count the shifts: `tmp` is halved while it is large and `n` shifts are left. -/
def shiftLoop {α : Type*} (large : α → Prop) [DecidablePred large] (half : α → α) :
    ℕ → ℕ → α → ℕ × α
  | 0, i, tmp => (i, tmp)
  | n + 1, i, tmp => if large tmp then shiftLoop large half n (i + 1) (half tmp) else (i, tmp)

/-- The conversion to `int`. -/
def toCInt (x : ℤ) : ℤ := x.bmod (2 ^ 32)

/-- `histogram_idx_for_latency`. -/
def histogramIdxForLatency (latency : UInt64) : ℤ :=
  let loop := shiftLoop (fun tmp : UInt64 => tmp ≥ 64) (· >>> 1) 17 0 latency
  let i := loop.1
  let tmp := loop.2
  if i < 2 then toCInt latency.toNat
  else if tmp ≥ 64 then i * 64 + 63
  else i * 64 + ((latency >>> UInt64.ofNat (i - 1)) &&& 63).toNat

/-- The places in the two parts of an index, cut off at the last bucket. -/
def splitIdx (idx : ℤ) : ℤ × ℤ :=
  let idx1 := idx >>> (6 : ℕ)
  let idx2 := idx - idx1 <<< (6 : ℕ)
  if idx1 > 17 then (17, 63) else (idx1, idx2)

/-- `latency_at_histogram_idx`. -/
def latencyAtHistogramIdx (idx : ℤ) : UInt64 :=
  let idx1 := (splitIdx idx).1
  let idx2 := (splitIdx idx).2
  let idx2 :=
    if idx1 > 1 then idx2 <<< (idx1 - 1).toNat + (1 <<< (idx1 - 2).toNat - 1) else idx2
  if idx1 = 0 then UInt64.ofInt idx2
  else 64 <<< UInt64.ofInt (idx1 - 1) + UInt64.ofInt idx2

/-- The bucket of `add_latency_to_histogram`. The mask 63 is the remainder by 64. -/
def latencyBucket (latency : AprTime) : ℤ :=
  let loop := shiftLoop (fun tmp : AprTime => tmp ≥ 64) (· >>> (1 : ℕ)) 17 0 latency
  let i := loop.1
  let tmp := loop.2
  if i < 2 then toCInt latency
  else if tmp ≥ 64 then i * 64 + 63
  else i * 64 + (latency >>> (i - 1)) % 64

/-- `get_avg_latency_at_histogram_idx`. -/
def getAvgLatencyAtHistogramIdx (idx : ℤ) : AprTime :=
  let idx1 := (splitIdx idx).1
  let idx2 := (splitIdx idx).2
  let idx2 := if idx1 > 1 then idx2 <<< (idx1 - 1).toNat else idx2
  let minLatency : AprTime := if idx1 = 0 then idx2 else 64 <<< (idx1 - 1).toNat + idx2
  let maxLatency : AprTime :=
    if idx1 = 0 then minLatency + 1 else minLatency + 1 <<< (idx1 - 1).toNat
  (maxLatency + minLatency) >>> (1 : ℕ)

/-- An index and its inverse agree: for the latencies of a type, with their numbers. -/
structure HistogramPair {α : Type*} (Latency : α → Prop) (number : α → ℕ) (index : α → ℤ)
    (representative : ℤ → α) : Prop where
  range : ∀ x, Latency x → 0 ≤ index x ∧ index x ≤ 18 * 64 - 1
  mono : ∀ x y, Latency x → Latency y → number x ≤ number y → index x ≤ index y
  bucket : ∀ x, Latency x → number x < 2 ^ 23 → index (representative (index x)) = index x
  exact : ∀ x, Latency x → number x < 128 → representative (index x) = x
  close : ∀ x, Latency x → number x < 2 ^ 23 →
    128 * |(number (representative (index x)) : ℤ) - number x| ≤ number x

section Index

/-- What the loop leaves: the number of its shifts, and the number that is shifted. -/
theorem shiftLoop_spec {α : Type*} {large : α → Prop} [DecidablePred large] {half : α → α}
    {number : α → ℕ} {bound : ℕ} (hlarge : ∀ x, large x ↔ bound ≤ number x)
    (hhalf : ∀ x, number (half x) = number x / 2) (n i : ℕ) (tmp : α) :
    ∃ k ≤ n, (shiftLoop large half n i tmp).1 = i + k ∧
      number (shiftLoop large half n i tmp).2 = number tmp / 2 ^ k ∧
      (∀ j < k, bound ≤ number tmp / 2 ^ j) ∧ (k < n → number tmp / 2 ^ k < bound) := by
  induction n generalizing i tmp with
  | zero =>
    exact ⟨0, Nat.le_refl 0, rfl, (Nat.div_one _).symm, fun j hj => absurd hj (Nat.not_lt_zero j),
      fun h => absurd h (Nat.lt_irrefl 0)⟩
  | succ n ih =>
    rw [shiftLoop]
    split
    · rename_i htmp
      obtain ⟨k, hk, hfirst, hsecond, hle, hlt⟩ := ih (i + 1) (half tmp)
      have hdiv : ∀ j, number (half tmp) / 2 ^ j = number tmp / 2 ^ (j + 1) := by
        intro j
        rw [hhalf, Nat.div_div_eq_div_mul, Nat.pow_succ, Nat.mul_comm]
      refine ⟨k + 1, by omega, by omega, by rw [hsecond, hdiv], fun j hj => ?_, fun hkn => ?_⟩
      · cases j with
        | zero => rw [Nat.pow_zero, Nat.div_one]; exact (hlarge tmp).mp htmp
        | succ j => exact hdiv j ▸ hle j (by omega)
      · exact hdiv k ▸ hlt (by omega)
    · rename_i htmp
      refine ⟨0, Nat.zero_le _, rfl, (Nat.div_one _).symm,
        fun j hj => absurd hj (Nat.not_lt_zero j), fun _ => ?_⟩
      rw [Nat.pow_zero, Nat.div_one, ← Nat.not_le, ← hlarge]
      exact htmp

variable {x k : ℕ}

theorem exponent_le_of_lt (h : x < 2 ^ 23) : exponent 6 x ≤ 16 := by
  obtain rfl | hpos := Nat.eq_zero_or_pos x
  · simp [exponent]
  · have hlog := (Nat.log2_lt hpos.ne').mpr h
    rw [exponent]
    omega

theorem mantissa_bounds (hx : 64 ≤ x) : 64 ≤ x / 2 ^ exponent 6 x ∧
    x / 2 ^ exponent 6 x < 128 ∧ x / 2 ^ (exponent 6 x + 1) < 64 := by
  have hlt : x / 2 ^ exponent 6 x < 2 ^ (6 + 1) := mantissa_lt 6 x
  refine ⟨?_, hlt, ?_⟩
  · by_cases he : exponent 6 x = 0
    · rw [he, Nat.pow_zero, Nat.div_one]
      exact hx
    · exact le_mantissa he
  · rw [Nat.pow_succ, ← Nat.div_div_eq_div_mul]
    omega

/-- The loop shifts until the number is small, or as often as it may. -/
theorem shifts_eq {n s bound : ℕ} (hk : k ≤ n) (hle : ∀ j < k, bound ≤ x / 2 ^ j)
    (hlt : k < n → x / 2 ^ k < bound) (hs : x / 2 ^ s < bound)
    (hs' : s ≠ 0 → bound ≤ x / 2 ^ (s - 1)) : k = min n s := by
  have hks : k ≤ s := by
    by_contra hlow
    have hbig := hle s (by omega)
    omega
  by_contra hne
  have hsmall := hlt (by omega)
  have hbig := hs' (by omega)
  have hanti : x / 2 ^ (s - 1) ≤ x / 2 ^ k :=
    Nat.div_le_div_left (Nat.pow_le_pow_right (by decide) (by omega)) (Nat.two_pow_pos k)
  omega

/-- What the index computations make of the number of shifts. -/
theorem index_eq_bucket (hk : k ≤ 17) (hle : ∀ j < k, 64 ≤ x / 2 ^ j)
    (hlt : k < 17 → x / 2 ^ k < 64) :
    (if k < 2 then x else if 64 ≤ x / 2 ^ k then k * 64 + 63
      else k * 64 + x / 2 ^ (k - 1) % 64) = bucket 6 (min x (2 ^ 23 - 1)) := by
  by_cases hlarge : x < 2 ^ 23
  · rw [Nat.min_eq_left (by omega)]
    by_cases hx : 64 ≤ x
    · obtain ⟨hmantissa, hmantissa', hnext⟩ := mantissa_bounds hx
      have hexponent := exponent_le_of_lt hlarge
      obtain rfl : k = exponent 6 x + 1 := by
        rw [shifts_eq hk hle hlt hnext fun _ => hmantissa]
        omega
      by_cases he : exponent 6 x = 0
      · rw [he, Nat.pow_zero, Nat.div_one] at hmantissa'
        rw [if_pos (by omega), bucket_of_lt hmantissa']
      · rw [if_neg (by omega), if_neg (by omega), Nat.add_sub_cancel, bucket, mantissa]
        omega
    · have hzero : k = 0 := by
        by_contra hne
        have hbig := hle 0 (by omega)
        rw [Nat.pow_zero, Nat.div_one] at hbig
        exact hx hbig
      rw [if_pos (by omega), bucket_of_lt (Nat.lt_trans (Nat.lt_of_not_le hx) (by decide))]
  · have hlast : k = 17 := by
      by_contra hne
      have hsmall := hlt (by omega)
      have hanti : x / 2 ^ 16 ≤ x / 2 ^ k :=
        Nat.div_le_div_left (Nat.pow_le_pow_right (by decide) (by omega)) (Nat.two_pow_pos k)
      omega
    have hbucket : bucket 6 (127 * 2 ^ 16 + 65535) = 16 * 2 ^ 6 + 127 :=
      bucket_mul_add (by decide) (by decide) (by decide)
    rw [hlast, if_neg (by decide), if_pos (by omega), Nat.min_eq_right (by omega)]
    exact hbucket.symm

theorem shiftRight_one (x : ℤ) : x >>> (1 : ℕ) = x / 2 := Int.shiftRight_eq_div_pow x 1

theorem toNat_shiftRight_one (x : ℤ) : (x >>> (1 : ℕ)).toNat = x.toNat / 2 := by
  rw [shiftRight_one]
  omega

theorem toCInt_of_lt {x : ℕ} (h : x < 2 ^ 31) : toCInt x = x := by
  rw [toCInt, Int.bmod_eq_of_le] <;> omega

/-- The same as an `int`. -/
theorem toCInt_index_eq_bucket (hk : k ≤ 17) (hle : ∀ j < k, 64 ≤ x / 2 ^ j)
    (hlt : k < 17 → x / 2 ^ k < 64) :
    (if k < 2 then toCInt x else if 64 ≤ x / 2 ^ k then (k : ℤ) * 64 + 63
      else (k : ℤ) * 64 + (x / 2 ^ (k - 1) % 64 : ℕ)) = bucket 6 (min x (2 ^ 23 - 1)) := by
  rw [← index_eq_bucket hk hle hlt]
  split_ifs with hsmall hlast
  · have hexact := hlt (by omega)
    have hpow : 2 ^ k ≤ 2 ^ 1 := Nat.pow_le_pow_right (by decide) (by omega)
    rw [Nat.div_lt_iff_lt_mul (Nat.two_pow_pos k)] at hexact
    exact toCInt_of_lt (by omega)
  · push_cast
    rfl
  · push_cast
    rfl

/-- `histogram_idx_for_latency` is the bucket of the latency. -/
theorem histogramIdxForLatency_eq (latency : UInt64) :
    histogramIdxForLatency latency = bucket 6 (min latency.toNat (2 ^ 23 - 1)) := by
  have hlarge (tmp : UInt64) : tmp ≥ 64 ↔ 64 ≤ tmp.toNat := UInt64.le_iff_toNat_le
  have hhalf (tmp : UInt64) : (tmp >>> 1).toNat = tmp.toNat / 2 := by
    rw [UInt64.toNat_shiftRight]
    exact Nat.shiftRight_eq_div_pow _ 1
  obtain ⟨k, hk, hfirst, hsecond, hle, hlt⟩ := shiftLoop_spec hlarge hhalf 17 0 latency
  rw [Nat.zero_add] at hfirst
  have htmp : (shiftLoop (fun tmp : UInt64 => tmp ≥ 64) (· >>> 1) 17 0 latency).2 ≥ 64 ↔
      64 ≤ latency.toNat / 2 ^ k := by
    rw [hlarge, hsecond]
  have hmask : ((latency >>> UInt64.ofNat (k - 1)) &&& 63).toNat =
      latency.toNat / 2 ^ (k - 1) % 64 := by
    rw [UInt64.toNat_and, UInt64.toNat_shiftRight, UInt64.toNat_ofNat', Nat.shiftRight_eq_div_pow,
      Nat.mod_mod_of_dvd _ (by decide), Nat.mod_eq_of_lt (by omega : k - 1 < 64)]
    exact Nat.and_two_pow_sub_one_eq_mod _ 6
  rw [histogramIdxForLatency]
  simp only [hfirst, htmp, hmask]
  exact toCInt_index_eq_bucket hk hle hlt

/-- The bucket of `add_latency_to_histogram` is the same. -/
theorem latencyBucket_eq (latency : ℕ) :
    latencyBucket latency = bucket 6 (min latency (2 ^ 23 - 1)) := by
  have hlarge (tmp : ℤ) : tmp ≥ 64 ↔ 64 ≤ tmp.toNat := by omega
  obtain ⟨k, hk, hfirst, hsecond, hle, hlt⟩ :=
    shiftLoop_spec hlarge toNat_shiftRight_one 17 0 latency
  rw [Int.toNat_natCast] at hsecond hle hlt
  rw [Nat.zero_add] at hfirst
  have htmp : (shiftLoop (fun tmp : AprTime => tmp ≥ 64) (· >>> (1 : ℕ)) 17 0 latency).2 ≥ 64 ↔
      64 ≤ latency / 2 ^ k := by
    rw [hlarge, hsecond]
  have hmask : ((latency : ℤ) >>> (k - 1)) % 64 = (latency / 2 ^ (k - 1) % 64 : ℕ) := by
    rw [Int.shiftRight_eq_div_pow]
    push_cast
    rfl
  rw [latencyBucket]
  simp only [hfirst, htmp, hmask]
  exact toCInt_index_eq_bucket hk hle hlt

end Index

section Representative

variable {e m : ℕ}

/-- The two parts of the number of a bucket. -/
theorem splitIdx_eq (he : e ≤ 16) (hm : m < 128) (hle : e ≠ 0 → 64 ≤ m) :
    splitIdx (e * 64 + m : ℕ) = if m < 64 then (0, (m : ℤ)) else ((e : ℤ) + 1, (m : ℤ) - 64) := by
  have hfirst : ((e * 64 + m : ℕ) : ℤ) >>> (6 : ℕ) = if m < 64 then 0 else (e : ℤ) + 1 := by
    rw [Int.shiftRight_eq_div_pow]
    split_ifs <;> omega
  have hsecond (idx1 : ℤ) : idx1 <<< (6 : ℕ) = idx1 * 64 := Int.shiftLeft_eq idx1 6
  rw [splitIdx, hfirst]
  simp only [hsecond]
  split_ifs <;> simp <;> omega

theorem toNat_ofInt {n : ℕ} (h : n < 2 ^ 64) : (UInt64.ofInt n).toNat = n := by
  rw [UInt64.ofInt, UInt64.toNat_ofNat']
  omega

theorem shiftLeft_natCast (n k : ℕ) : (n : ℤ) <<< k = (n * 2 ^ k : ℕ) := by
  rw [Int.shiftLeft_eq]
  push_cast
  rfl

/-- Below 64 the exponent is 0, and the other buckets have the leading bit in their first part. -/
theorem exponent_cases (hle : e ≠ 0 → 64 ≤ m) : m < 64 ∧ e = 0 ∨ ∃ n, m = 64 + n := by
  by_cases hsmall : m < 64
  · exact Or.inl ⟨hsmall, by_contra fun hne => Nat.not_le.mpr hsmall (hle hne)⟩
  · exact Or.inr ⟨m - 64, by omega⟩

/-- `latency_at_histogram_idx` is the middle of the bucket, rounded down. -/
theorem latencyAtHistogramIdx_eq (he : e ≤ 16) (hm : m < 128) (hle : e ≠ 0 → 64 ≤ m) :
    (latencyAtHistogramIdx (e * 64 + m : ℕ)).toNat = m * 2 ^ e + (2 ^ (e - 1) - 1) := by
  rw [latencyAtHistogramIdx, splitIdx_eq he hm hle]
  obtain ⟨hsmall, rfl⟩ | ⟨n, rfl⟩ := exponent_cases hle
  · simp only [if_pos hsmall, if_true]
    rw [if_neg (by decide : ¬(0 : ℤ) > 1), toNat_ofInt (by omega)]
    simp
  · have hpow : 2 ^ e ≤ 2 ^ 16 := Nat.pow_le_pow_right (by decide) he
    have hshift : (64 <<< UInt64.ofInt e : UInt64).toNat = 64 * 2 ^ e := by
      rw [UInt64.toNat_shiftLeft, toNat_ofInt (by omega), Nat.shiftLeft_eq,
        Nat.mod_eq_of_lt (by omega : e < 64)]
      exact Nat.mod_eq_of_lt (Nat.lt_of_le_of_lt (Nat.mul_le_mul_left 64 hpow) (by decide))
    have hidx2 : (if (e : ℤ) + 1 > 1 then ((64 + n : ℕ) - 64 : ℤ) <<< (e : ℤ).toNat +
        ((1 <<< ((e : ℤ) + 1 - 2).toNat : ℕ) - 1) else ((64 + n : ℕ) - 64 : ℤ)) =
          (n * 2 ^ e + (2 ^ (e - 1) - 1) : ℕ) := by
      rw [show ((64 + n : ℕ) - 64 : ℤ) = n by omega]
      cases e with
      | zero => simp
      | succ d =>
        have hone : 1 ≤ 2 ^ d := Nat.one_le_two_pow
        rw [if_pos (by omega), show ((d + 1 : ℕ) : ℤ).toNat = d + 1 by omega,
          show (((d + 1 : ℕ) : ℤ) + 1 - 2).toNat = d by omega, shiftLeft_natCast,
          Nat.one_shiftLeft, Nat.add_sub_cancel]
        omega
    have hwidth : n * 2 ^ e ≤ 63 * 2 ^ 16 := Nat.mul_le_mul (by omega) hpow
    have hhalf : 2 ^ (e - 1) ≤ 2 ^ e := Nat.pow_le_pow_right (by decide) (Nat.sub_le e 1)
    simp only [if_neg (by omega : ¬64 + n < 64)]
    rw [if_neg (by omega : ¬(e : ℤ) + 1 = 0), add_sub_cancel_right, hidx2, UInt64.toNat_add, hshift,
      toNat_ofInt (by omega), Nat.add_mul]
    omega

/-- `get_avg_latency_at_histogram_idx` is the middle of the bucket. -/
theorem getAvgLatencyAtHistogramIdx_eq (he : e ≤ 16) (hm : m < 128) (hle : e ≠ 0 → 64 ≤ m) :
    getAvgLatencyAtHistogramIdx (e * 64 + m : ℕ) =
      (m * 2 ^ e + if e = 0 then 0 else 2 ^ (e - 1) : ℕ) := by
  rw [getAvgLatencyAtHistogramIdx, splitIdx_eq he hm hle]
  unfold AprTime
  obtain ⟨hsmall, rfl⟩ | ⟨n, rfl⟩ := exponent_cases hle
  · simp only [if_pos hsmall, if_true]
    rw [if_neg (by decide : ¬(0 : ℤ) > 1), shiftRight_one]
    simp only [Nat.pow_zero, Nat.mul_one, Nat.add_zero]
    omega
  · have hidx2 : (if (e : ℤ) + 1 > 1 then ((64 + n : ℕ) - 64 : ℤ) <<< (e : ℤ).toNat
        else ((64 + n : ℕ) - 64 : ℤ)) = (n * 2 ^ e : ℕ) := by
      rw [show ((64 + n : ℕ) - 64 : ℤ) = n by omega, Int.toNat_natCast, shiftLeft_natCast]
      split_ifs with hlarge
      · rfl
      · rw [show e = 0 by omega]
        simp
    simp only [if_neg (by omega : ¬64 + n < 64), if_neg (by omega : ¬(e : ℤ) + 1 = 0),
      add_sub_cancel_right]
    rw [hidx2, Int.toNat_natCast, Nat.shiftLeft_eq, Nat.one_shiftLeft, shiftRight_one, Nat.add_mul]
    cases e with
    | zero =>
      rw [if_pos rfl]
      omega
    | succ d =>
      rw [if_neg (Nat.succ_ne_zero d), Nat.add_sub_cancel, Nat.pow_succ]
      generalize n * (2 ^ d * 2) = width
      omega

end Representative

/-- The last bucket of the histogram. -/
theorem bucket_last : bucket 6 (2 ^ 23 - 1) = 1151 :=
  @bucket_mul_add 6 16 127 65535 (by decide) (by decide) (by decide)

/-- An index that is the bucket of a latency, and an inverse next to the middle of the bucket. -/
structure MiddlePair {α : Type*} (Latency : α → Prop) (number : α → ℕ) (index : α → ℤ)
    (representative : ℤ → α) (middle : ℕ → ℕ) : Prop where
  number_inj : ∀ x y, Latency x → Latency y → number x = number y → x = y
  index_eq : ∀ x, Latency x → index x = bucket 6 (min (number x) (2 ^ 23 - 1))
  representative_eq : ∀ e m, e ≤ 16 → m < 128 → (e ≠ 0 → 64 ≤ m) →
    Latency (representative (e * 64 + m : ℕ)) ∧
      number (representative (e * 64 + m : ℕ)) = m * 2 ^ e + middle e
  middle_zero : middle 0 = 0
  middle_le : ∀ e ≠ 0, middle e ≤ 2 ^ (e - 1)
  le_middle : ∀ e ≠ 0, 2 ^ (e - 1) ≤ middle e + 1

namespace MiddlePair

variable {α : Type*} {Latency : α → Prop} {number : α → ℕ} {index : α → ℤ}
  {representative : ℤ → α} {middle : ℕ → ℕ} {x : α}

theorem middle_lt (h : MiddlePair Latency number index representative middle) (e : ℕ) :
    middle e < 2 ^ e := by
  by_cases he : e = 0
  · rw [he, h.middle_zero]
    decide
  · exact (h.middle_le e he).trans_lt (Nat.pow_lt_pow_right (by decide) (by omega))

/-- The index of a latency that is not cut off. -/
theorem index_of_lt (h : MiddlePair Latency number index representative middle) (hx : Latency x)
    (hlt : number x < 2 ^ 23) :
    index x = (exponent 6 (number x) * 64 + mantissa 6 (number x) : ℕ) := by
  rw [h.index_eq x hx, Nat.min_eq_left (by omega)]
  rfl

/-- The representative of such a latency. -/
theorem representative_index (h : MiddlePair Latency number index representative middle)
    (hx : Latency x) (hlt : number x < 2 ^ 23) :
    Latency (representative (index x)) ∧ number (representative (index x)) =
      mantissa 6 (number x) * 2 ^ exponent 6 (number x) + middle (exponent 6 (number x)) := by
  rw [h.index_of_lt hx hlt]
  exact h.representative_eq _ _ (exponent_le_of_lt hlt) (mantissa_lt 6 _) le_mantissa

/-- It is in the same bucket. -/
theorem index_representative (h : MiddlePair Latency number index representative middle)
    (hx : Latency x) (hlt : number x < 2 ^ 23) : index (representative (index x)) = index x := by
  obtain ⟨hlatency, heq⟩ := h.representative_index hx hlt
  have hmantissa : mantissa 6 (number x) < 128 := mantissa_lt 6 _
  have hpow : 2 ^ exponent 6 (number x) ≤ 2 ^ 16 :=
    Nat.pow_le_pow_right (by decide) (exponent_le_of_lt hlt)
  have hbound : mantissa 6 (number x) * 2 ^ exponent 6 (number x) ≤ 127 * 2 ^ 16 :=
    Nat.mul_le_mul (by omega) hpow
  have hlast := h.middle_lt (exponent 6 (number x))
  rw [h.index_eq _ hlatency, heq, Nat.min_eq_left (by omega),
    bucket_mul_add (mantissa_lt 6 _) le_mantissa hlast, h.index_of_lt hx hlt]
  rfl

theorem representative_exact (h : MiddlePair Latency number index representative middle)
    (hx : Latency x) (hlt : number x < 128) : representative (index x) = x := by
  obtain ⟨hlatency, heq⟩ := h.representative_index hx (by omega)
  apply h.number_inj _ _ hlatency hx
  rw [heq, mantissa, exponent_of_lt hlt, h.middle_zero, Nat.pow_zero, Nat.div_one, Nat.mul_one]
  rfl

/-- It differs from the latency by half of a bucket at most. -/
theorem representative_close (h : MiddlePair Latency number index representative middle)
    (hx : Latency x) (hlt : number x < 2 ^ 23) :
    128 * |(number (representative (index x)) : ℤ) - number x| ≤ number x := by
  by_cases he : exponent 6 (number x) = 0
  · have hlow : number x < 128 := by
      have hmantissa := mantissa_lt 6 (number x)
      rwa [mantissa, he, Nat.pow_zero, Nat.div_one] at hmantissa
    rw [h.representative_exact hx hlow, sub_self, abs_zero, mul_zero]
    exact Int.natCast_nonneg _
  · rw [(h.representative_index hx hlt).2]
    exact abs_sub_middle_le he (h.middle_le _ he) (h.le_middle _ he)

/-- Such an index and such an inverse agree. -/
theorem histogramPair (h : MiddlePair Latency number index representative middle) :
    HistogramPair Latency number index representative where
  range x hx := by
    have hlast := bucket_monotone 6 (Nat.min_le_right (number x) (2 ^ 23 - 1))
    rw [bucket_last] at hlast
    rw [h.index_eq x hx]
    omega
  mono x y hx hy hxy := by
    rw [h.index_eq x hx, h.index_eq y hy]
    exact_mod_cast bucket_monotone 6 (min_le_min_right _ hxy)
  bucket _ hx hlt := h.index_representative hx hlt
  exact _ hx hlt := h.representative_exact hx hlt
  close _ hx hlt := h.representative_close hx hlt

end MiddlePair

/-- The middles of `stat.h` are rounded down. -/
theorem histogramIdxForLatency_middlePair :
    MiddlePair (fun _ : UInt64 => True) UInt64.toNat histogramIdxForLatency
      latencyAtHistogramIdx fun e => 2 ^ (e - 1) - 1 where
  number_inj _ _ _ _ h := UInt64.toNat_inj.mp h
  index_eq x _ := histogramIdxForLatency_eq x
  representative_eq _ _ he hm hle := ⟨trivial, latencyAtHistogramIdx_eq he hm hle⟩
  middle_zero := rfl
  middle_le _ _ := Nat.sub_le _ _
  le_middle e _ := by
    have hone : 1 ≤ 2 ^ (e - 1) := Nat.one_le_two_pow
    omega

/-- Those of `diskBenchStat.c` are not. -/
theorem latencyBucket_middlePair :
    MiddlePair (fun latency : AprTime => 0 ≤ latency) Int.toNat latencyBucket
      getAvgLatencyAtHistogramIdx fun e => if e = 0 then 0 else 2 ^ (e - 1) where
  number_inj x y hx hy h := by
    rw [← Int.toNat_of_nonneg hx, ← Int.toNat_of_nonneg hy, h]
  index_eq x hx := by
    conv_lhs => rw [← Int.toNat_of_nonneg hx]
    exact latencyBucket_eq x.toNat
  representative_eq e m he hm hle := by
    rw [getAvgLatencyAtHistogramIdx_eq he hm hle]
    exact ⟨Int.natCast_nonneg _, Int.toNat_natCast _⟩
  middle_zero := rfl
  middle_le e he := by simp [he]
  le_middle e he := by simp [he]

theorem latencyBucket_pair :
    HistogramPair (fun latency : AprTime => 0 ≤ latency) Int.toNat latencyBucket
      getAvgLatencyAtHistogramIdx :=
  latencyBucket_middlePair.histogramPair

/-- **Both indices of the histogram agree with their inverses.** -/
theorem histogram_pairs :
    HistogramPair (fun _ : UInt64 => True) UInt64.toNat histogramIdxForLatency
      latencyAtHistogramIdx ∧
    HistogramPair (fun latency : AprTime => 0 ≤ latency) Int.toNat latencyBucket
      getAvgLatencyAtHistogramIdx :=
  ⟨histogramIdxForLatency_middlePair.histogramPair, latencyBucket_pair⟩

end DiskBench
