import DiskBench.Foundations.NearestRank
import DiskBench.RequestCounter

/-!
# Percentiles of the latency

`get_latency_percentile` of `diskBenchStat.c`, on a counter that `add_latency_to_histogram` has
filled. The scan stops in the bucket of the latency of nearest rank: the requests up to a bucket
reach a share of all of them exactly when they reach the rank.
-/

namespace DiskBench

open LogBuckets

/-- `NUM_LATENCY_HISTOGRAM_BUCKETS`. -/
def numLatencyHistogramBuckets : ℕ := 18 * 64

/-- The number of requests in the first `n` buckets. -/
def histogramTotal (latencyHistogram : ℤ → UInt64) (n : ℕ) : UInt64 :=
  (List.range n).foldl (fun (total : UInt64) (i : ℕ) => total + latencyHistogram i) 0

/-- `100.0 * accumulated / total >= percentile`. A quotient by 0 is infinite, and that of 0 by 0 is
not a number and compares as false. -/
def percentileReached (accumulated total : UInt64) (percentile : ℚ) : Bool :=
  if total = 0 then accumulated ≠ 0
  else 100 * (accumulated.toNat : ℚ) / total.toNat ≥ percentile

/-- The loop of `get_latency_percentile` from a bucket on, with the buckets that are left. -/
def percentileLoop (latencyHistogram : ℤ → UInt64) (total : UInt64) (percentile : ℚ) :
    ℕ → ℕ → UInt64 → ℕ
  | 0, i, _ => i
  | n + 1, i, accumulated =>
    let accumulated := accumulated + latencyHistogram i
    if percentileReached accumulated total percentile then i
    else percentileLoop latencyHistogram total percentile n (i + 1) accumulated

/-- `get_latency_percentile`. -/
def getLatencyPercentile (counter : IoRequestCounter) (percentile : ℚ) : AprTime :=
  let total := histogramTotal counter.latencyHistogram numLatencyHistogramBuckets
  getAvgLatencyAtHistogramIdx
    (percentileLoop counter.latencyHistogram total percentile numLatencyHistogramBuckets 0 0)

/-- The counter that the latencies leave in a started one. -/
def latencyCounter (startTime : AprTime) (latencies : List AprTime) : IoRequestCounter :=
  latencies.foldl addLatencyToHistogram (startRequestCounter startTime)

/-- The percentiles of a list of latencies: the representative of the bucket of the latency of
nearest rank, and monotone. -/
structure TruePercentiles (latencies : List AprTime) (result : ℚ → AprTime) : Prop where
  nearestRank : ∀ p : ℚ, 0 < p → p ≤ 100 →
    ∃ latency, NearestRank.ofRank latencies ⌈p * latencies.length / 100⌉₊ = some latency ∧
      result p = getAvgLatencyAtHistogramIdx (latencyBucket latency)
  mono : ∀ p q : ℚ, 0 < p → p ≤ q → q ≤ 100 → result p ≤ result q

section Representative

/-- The representative of the bucket of a latency is a latency of this bucket. -/
theorem latencyBucket_getAvg {latency : AprTime} (h : 0 ≤ latency) :
    0 ≤ getAvgLatencyAtHistogramIdx (latencyBucket latency) ∧
      latencyBucket (getAvgLatencyAtHistogramIdx (latencyBucket latency)) =
        latencyBucket latency := by
  obtain ⟨x, rfl⟩ := Int.eq_ofNat_of_zero_le h
  have hle : min x (2 ^ 23 - 1) < 2 ^ 23 := by omega
  -- a saturated latency has the bucket of the last latency that is not
  have hcut : latencyBucket x = latencyBucket (min x (2 ^ 23 - 1) : ℕ) := by
    rw [latencyBucket_eq, latencyBucket_eq, Nat.min_assoc, Nat.min_self]
  have hrep := getAvgLatencyAtHistogramIdx_eq (exponent_le_of_lt hle) (mantissa_lt 6 _) le_mantissa
  have hbucket := latencyBucket_pair.bucket (min x (2 ^ 23 - 1) : ℕ) (Int.natCast_nonneg _)
    (by rwa [Int.toNat_natCast])
  refine ⟨?_, by rw [hcut, hbucket]⟩
  rw [latencyBucket_eq, bucket]
  exact hrep ▸ Int.natCast_nonneg _

/-- The representatives grow with the latencies. -/
theorem getAvg_latencyBucket_mono {x y : AprTime} (hx : 0 ≤ x) (hxy : x ≤ y) :
    getAvgLatencyAtHistogramIdx (latencyBucket x) ≤
      getAvgLatencyAtHistogramIdx (latencyBucket y) := by
  have hy : 0 ≤ y := hx.trans hxy
  obtain ⟨hx', hbucket⟩ := latencyBucket_getAvg hx
  obtain ⟨hy', hbucket'⟩ := latencyBucket_getAvg hy
  obtain heq | hlt := (latencyBucket_pair.mono x y hx hy (Int.toNat_le_toNat hxy)).eq_or_lt
  · rw [heq]
  · by_contra hnot
    have hback := latencyBucket_pair.mono _ _ hy' hx' (Int.toNat_le_toNat (not_le.mp hnot).le)
    rw [hbucket, hbucket'] at hback
    exact not_lt.mpr hback hlt

end Representative

section Scan

variable {latencyHistogram : ℤ → UInt64} {total : UInt64} {percentile : ℚ} {n i : ℕ}

theorem histogramTotal_succ : histogramTotal latencyHistogram (n + 1) =
    histogramTotal latencyHistogram n + latencyHistogram n := by
  rw [histogramTotal, List.range_succ, List.foldl_append]
  rfl

/-- The scan stops at the first bucket that reaches the percentile. -/
theorem percentileLoop_eq {target : ℕ}
    (hreached : ∀ i, percentileReached (histogramTotal latencyHistogram (i + 1)) total percentile ↔
      target ≤ i) (hi : i ≤ target) (hn : target < i + n) :
    percentileLoop latencyHistogram total percentile n i (histogramTotal latencyHistogram i) =
      target := by
  induction n generalizing i with
  | zero => omega
  | succ n ih =>
    rw [percentileLoop, ← histogramTotal_succ]
    split
    · rename_i htest
      have hle := (hreached i).mp htest
      omega
    · rename_i htest
      have hlt := mt (hreached i).mpr htest
      exact ih (by omega) (by omega)

/-- A scan that reaches the percentile in no bucket goes through all of them. -/
theorem percentileLoop_eq_last
    (hreached : ∀ i,
      percentileReached (histogramTotal latencyHistogram i) total percentile = false) :
    percentileLoop latencyHistogram total percentile n i (histogramTotal latencyHistogram i) =
      i + n := by
  induction n generalizing i with
  | zero => rfl
  | succ n ih =>
    rw [percentileLoop, ← histogramTotal_succ, hreached]
    exact ih.trans (by omega)

variable {latencies : List AprTime} {startTime : AprTime}

/-- The counts of the first buckets add up to that of the latencies in them. -/
theorem histogramTotal_latencyCounter (hlatencies : ∀ x ∈ latencies, 0 ≤ x) (n : ℕ) :
    histogramTotal (latencyCounter startTime latencies).latencyHistogram n =
      UInt64.ofNat (latencies.countP fun x => latencyBucket x < n) := by
  induction n with
  | zero =>
    have hzero : latencies.countP (fun x => latencyBucket x < (0 : ℕ)) = 0 := by
      rw [List.countP_eq_zero]
      intro x hx
      rw [decide_eq_true_iff]
      exact not_lt.mpr (latencyBucket_pair.range x (hlatencies x hx)).1
    rw [hzero]
    rfl
  | succ n ih =>
    rw [histogramTotal_succ, ih, latencyCounter, addLatencies_latencyHistogram,
      ← UInt64.ofNat_add, ← NearestRank.countP_lt_succ]
    rfl

/-- All latencies are in the buckets of the histogram. -/
theorem histogramTotal_last (hlatencies : ∀ x ∈ latencies, 0 ≤ x) :
    histogramTotal (latencyCounter startTime latencies).latencyHistogram
      numLatencyHistogramBuckets = UInt64.ofNat latencies.length := by
  rw [histogramTotal_latencyCounter hlatencies]
  congr 1
  rw [List.countP_eq_length]
  intro x hx
  have hrange := (latencyBucket_pair.range x (hlatencies x hx)).2
  rw [decide_eq_true_iff]
  exact Int.lt_of_le_sub_one hrange

/-- The test of the scan compares the rank with a count. -/
theorem percentileReached_iff {count : ℕ} (hcount : count ≤ latencies.length)
    (hne : latencies ≠ []) (hlength : latencies.length < 2 ^ 64) :
    percentileReached (UInt64.ofNat count) (UInt64.ofNat latencies.length) percentile ↔
      ⌈percentile * latencies.length / 100⌉₊ ≤ count := by
  have hpos := List.length_pos_iff.mpr hne
  have htotal : UInt64.ofNat latencies.length ≠ 0 := by
    rw [Ne, ofNat_eq_zero_iff]
    exact fun hdvd => absurd (Nat.le_of_dvd hpos hdvd) (by omega)
  rw [percentileReached, if_neg htotal, decide_eq_true_iff, UInt64.toNat_ofNat_of_lt' hlength,
    UInt64.toNat_ofNat_of_lt' (hcount.trans_lt hlength)]
  exact NearestRank.percentage_le_iff hpos

/-- The percentile of a counter with latencies, for a percentage that has a rank. -/
theorem getLatencyPercentile_eq (hne : latencies ≠ []) (hlatencies : ∀ x ∈ latencies, 0 ≤ x)
    (hlength : latencies.length < 2 ^ 64) (hpos : 0 < percentile) (hle : percentile ≤ 100) :
    ∃ x, NearestRank.ofRank latencies ⌈percentile * latencies.length / 100⌉₊ = some x ∧
      getLatencyPercentile (latencyCounter startTime latencies) percentile =
        getAvgLatencyAtHistogramIdx (latencyBucket x) := by
  obtain ⟨hrank, hrank'⟩ := NearestRank.rank_bounds (List.length_pos_iff.mpr hne) hpos hle
  obtain ⟨x, hrankx, hcount⟩ := NearestRank.exists_ofRank (f := latencyBucket)
    (fun x hx y hy hxy => latencyBucket_pair.mono x y (hlatencies x hx) (hlatencies y hy)
      (Int.toNat_le_toNat hxy)) hrank hrank'
  refine ⟨x, hrankx, ?_⟩
  obtain ⟨hfirst, hlast⟩ :=
    latencyBucket_pair.range x (hlatencies x (NearestRank.mem_of_ofRank hrankx))
  obtain ⟨target, htarget⟩ := Int.eq_ofNat_of_zero_le hfirst
  have hreached (i : ℕ) : percentileReached
      (histogramTotal (latencyCounter startTime latencies).latencyHistogram (i + 1))
      (UInt64.ofNat latencies.length) percentile ↔ target ≤ i := by
    have hbuckets : latencies.countP (fun y => latencyBucket y < (i + 1 : ℕ)) =
        latencies.countP fun y => latencyBucket y ≤ i := by
      congr 1
      funext y
      exact decide_eq_decide.mpr (by omega)
    rw [histogramTotal_latencyCounter hlatencies,
      percentileReached_iff List.countP_le_length hne hlength, hbuckets, hcount, htarget,
      Nat.cast_le]
  rw [getLatencyPercentile, histogramTotal_last hlatencies]
  have hscan := percentileLoop_eq hreached (Nat.zero_le target)
    (show target < 0 + numLatencyHistogramBuckets by rw [numLatencyHistogramBuckets]; omega)
  rw [htarget]
  exact congrArg (fun i : ℕ => getAvgLatencyAtHistogramIdx i) hscan

end Scan

/-- **Percentiles from the histogram are the true percentiles up to the width of a bucket.** -/
theorem getLatencyPercentile_true (startTime : AprTime) {latencies : List AprTime}
    (hne : latencies ≠ []) (hlatencies : ∀ x ∈ latencies, 0 ≤ x)
    (hlength : latencies.length < 2 ^ 64) :
    TruePercentiles latencies (getLatencyPercentile (latencyCounter startTime latencies)) := by
  have heq {p : ℚ} (hpos : 0 < p) (hle : p ≤ 100) :=
    @getLatencyPercentile_eq p latencies startTime hne hlatencies hlength hpos hle
  refine ⟨fun p hpos hle => heq hpos hle, fun p q hpos hpq hle => ?_⟩
  obtain ⟨x, hrankx, hx⟩ := heq hpos (hpq.trans hle)
  obtain ⟨y, hranky, hy⟩ := heq (hpos.trans_le hpq) hle
  rw [hx, hy]
  exact getAvg_latencyBucket_mono (hlatencies x (NearestRank.mem_of_ofRank hrankx))
    (NearestRank.ofRank_le (NearestRank.rank_mono _ hpq) hrankx hranky)

/-- Three latencies, of which the second one is the median. -/
theorem getLatencyPercentile_three : TruePercentiles [100, 300, 200]
    (getLatencyPercentile (latencyCounter 0 [100, 300, 200])) :=
  getLatencyPercentile_true 0 (by simp) (by simp) (by decide)

/-- After a multiple of `2^64` requests of one kind the histogram is empty. -/
theorem not_truePercentiles_of_dvd {n : ℕ} (hdvd : 2 ^ 64 ∣ n) :
    ¬TruePercentiles (List.replicate n 0)
      (getLatencyPercentile (latencyCounter 0 (List.replicate n 0))) := by
  intro h
  have hzero : ∀ x ∈ List.replicate n (0 : AprTime), x = 0 :=
    fun x hx => List.eq_of_mem_replicate hx
  have htotal (i : ℕ) : histogramTotal (latencyCounter 0 (List.replicate n 0)).latencyHistogram i =
      0 := by
    rw [histogramTotal_latencyCounter fun x hx => (hzero x hx).ge, List.countP_replicate]
    split
    · exact ofNat_eq_zero_iff.mpr hdvd
    · rfl
  obtain ⟨latency, hrank, hresult⟩ := h.nearestRank 50 (by norm_num) (by norm_num)
  rw [hzero latency (NearestRank.mem_of_ofRank hrank), getLatencyPercentile, htotal] at hresult
  have hscan := @percentileLoop_eq_last (latencyCounter 0 (List.replicate n 0)).latencyHistogram
    0 50 numLatencyHistogramBuckets 0 fun i => by rw [htotal]; rfl
  rw [htotal] at hscan
  rw [hscan] at hresult
  exact absurd hresult (by decide)

/-- A counter of `2^64` requests without a latency: none of them is in its histogram, and the scan
ends behind the last bucket. -/
theorem percentile_of_wrapped_counts :
    List.replicate (2 ^ 64) (0 : AprTime) ≠ [] ∧
      (∀ latency ∈ List.replicate (2 ^ 64) (0 : AprTime), 0 ≤ latency) ∧
      ¬TruePercentiles (List.replicate (2 ^ 64) 0)
        (getLatencyPercentile (latencyCounter 0 (List.replicate (2 ^ 64) 0))) := by
  refine ⟨?_, fun latency h => (List.eq_of_mem_replicate h).ge,
    not_truePercentiles_of_dvd (Nat.dvd_refl _)⟩
  rw [Ne, List.replicate_eq_nil_iff]
  exact (Nat.two_pow_pos 64).ne'

end DiskBench
