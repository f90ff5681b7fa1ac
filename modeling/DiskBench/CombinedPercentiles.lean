import DiskBench.CombinedCounters
import DiskBench.Foundations.FirstPlace
import DiskBench.Percentiles

/-!
# Percentiles of combined counters

`combine_request_counters` adds up the histograms of two counters, and `get_latency_percentile`
scans the sum. The scan stops between the buckets at which it stops for the two counters, also when
one of them has no requests in its histogram.
-/

namespace DiskBench

open FirstPlace

/-- The number of requests in the first `n` buckets, as it is without overflow. -/
def requestsBelow (latencyHistogram : ℤ → UInt64) (n : ℕ) : ℕ :=
  ((List.range n).map fun i : ℕ => (latencyHistogram i).toNat).sum

section Scan

variable {latencyHistogram : ℤ → UInt64} {percentile : ℚ} {i k n : ℕ}

theorem requestsBelow_succ : requestsBelow latencyHistogram (n + 1) =
    requestsBelow latencyHistogram n + (latencyHistogram n).toNat := by
  simp [requestsBelow, List.range_succ]

theorem requestsBelow_mono (h : k ≤ n) :
    requestsBelow latencyHistogram k ≤ requestsBelow latencyHistogram n := by
  induction h with
  | refl => exact Nat.le_refl _
  | step _ ih =>
    rw [requestsBelow_succ]
    exact ih.trans (Nat.le_add_right _ _)

theorem toNat_histogramTotal (h : requestsBelow latencyHistogram n < 2 ^ 64) :
    (histogramTotal latencyHistogram n).toNat = requestsBelow latencyHistogram n := by
  induction n with
  | zero => rfl
  | succ n ih =>
    rw [requestsBelow_succ] at h
    rw [histogramTotal_succ, UInt64.toNat_add, ih (by omega), requestsBelow_succ,
      Nat.mod_eq_of_lt h]

/-- The test of the scan asks for a share of the requests. -/
theorem percentileReached_iff_reached (h : requestsBelow latencyHistogram n < 2 ^ 64)
    (hk : k ≤ n) :
    percentileReached (histogramTotal latencyHistogram k) (histogramTotal latencyHistogram n)
        percentile ↔
      Reached (percentile / 100) (requestsBelow latencyHistogram k)
        (requestsBelow latencyHistogram n) := by
  have hpart := @requestsBelow_mono latencyHistogram _ _ hk
  have htotal := toNat_histogramTotal h
  have haccumulated := toNat_histogramTotal (hpart.trans_lt h)
  rw [Reached, ← htotal, ← haccumulated, percentileReached]
  split
  next hzero =>
    rw [hzero, UInt64.toNat_zero] at htotal
    have hnone : histogramTotal latencyHistogram k = 0 := by
      apply UInt64.toNat_inj.mp
      rw [haccumulated, UInt64.toNat_zero]
      omega
    simp [hzero, hnone]
  next hne =>
    have hpos : (0 : ℚ) < (histogramTotal latencyHistogram n).toNat := by
      rw [Nat.cast_pos, Nat.pos_iff_ne_zero]
      exact fun hzero => hne (UInt64.toNat_inj.mp hzero)
    rw [decide_eq_true_iff, ge_iff_le, le_div_iff₀ hpos, div_mul_eq_mul_div,
      div_le_iff₀ (by norm_num), mul_comm (100 : ℚ)]
    exact (and_iff_right (Nat.cast_pos.mp hpos).ne').symm

/-- The scan from a bucket on stops at the first one up to which the share is reached. -/
theorem percentileLoop_le_iff {total : ℕ} (h : requestsBelow latencyHistogram total < 2 ^ 64)
    (hn : i + n = total) :
    let stop := percentileLoop latencyHistogram (histogramTotal latencyHistogram total) percentile
      n i (histogramTotal latencyHistogram i)
    i ≤ stop ∧ stop ≤ total ∧ ∀ k, i ≤ k → k < total → (stop ≤ k ↔
      Reached (percentile / 100) (requestsBelow latencyHistogram (k + 1))
        (requestsBelow latencyHistogram total)) := by
  induction n generalizing i with
  | zero =>
    refine ⟨Nat.le_refl i, hn.le, fun k hik hk => ?_⟩
    omega
  | succ n ih =>
    obtain ⟨hfirst, hlast, hscan⟩ := ih (i := i + 1) (by omega)
    have htest := @percentileReached_iff_reached latencyHistogram percentile (i + 1) total h
      (by omega)
    dsimp only
    rw [percentileLoop, ← histogramTotal_succ]
    split
    next hreached =>
      refine ⟨Nat.le_refl i, by omega, fun k hik hk => iff_of_true hik ?_⟩
      exact (htest.mp hreached).mono (requestsBelow_mono (Nat.succ_le_succ hik))
    next hnot =>
      refine ⟨Nat.le_of_succ_le hfirst, hlast, fun k hik hk => ?_⟩
      obtain rfl | hlt := hik.eq_or_lt
      · exact iff_of_false (by omega) fun hreached => hnot (htest.mpr hreached)
      · exact hscan k hlt hk

/-- `get_latency_percentile` looks for the first bucket that reaches the share. -/
theorem getLatencyPercentile_isFirst {counter : IoRequestCounter}
    (h : requestsBelow counter.latencyHistogram numLatencyHistogramBuckets < 2 ^ 64) :
    ∃ stop : ℕ, getLatencyPercentile counter percentile = getAvgLatencyAtHistogramIdx stop ∧
      IsFirst numLatencyHistogramBuckets
        (fun k => Reached (percentile / 100) (requestsBelow counter.latencyHistogram (k + 1))
          (requestsBelow counter.latencyHistogram numLatencyHistogramBuckets)) stop := by
  obtain ⟨-, hle, hfirst⟩ := @percentileLoop_le_iff _ percentile 0 _ _ h (Nat.zero_add _)
  exact ⟨_, rfl, hle, fun k hk => hfirst k (Nat.zero_le k) hk⟩

end Scan

/-- The representatives grow with the buckets, and the one behind the last bucket is its own. -/
theorem getAvgLatencyAtHistogramIdx_mono {i j : ℕ} (hij : i ≤ j)
    (hj : j ≤ numLatencyHistogramBuckets) :
    getAvgLatencyAtHistogramIdx i ≤ getAvgLatencyAtHistogramIdx j := by
  have hnext : ∀ i < numLatencyHistogramBuckets,
      getAvgLatencyAtHistogramIdx i ≤ getAvgLatencyAtHistogramIdx (i + 1 : ℕ) := by
    decide +kernel
  induction hij with
  | refl => exact Int.le_refl _
  | step _ ih => exact (ih (by omega)).trans (hnext _ hj)

section Combination

variable {a b : FinishedCounter}

/-- The counts of a combined counter are those of its parts together. -/
theorem requestsBelow_combine (ha : 0 < a.requests) (hb : 0 < b.requests)
    (hcount : requestsBelow a.latencyHistogram numLatencyHistogramBuckets +
      requestsBelow b.latencyHistogram numLatencyHistogramBuckets < 2 ^ 64) {n : ℕ}
    (hn : n ≤ numLatencyHistogramBuckets) :
    requestsBelow (combineRequestCounters a b).latencyHistogram n =
      requestsBelow a.latencyHistogram n + requestsBelow b.latencyHistogram n := by
  induction n with
  | zero => rfl
  | succ n ih =>
    have hsum : (combineRequestCounters a b).latencyHistogram n =
        a.latencyHistogram n + b.latencyHistogram n := by
      have hbucket : (0 : ℤ) ≤ n ∧ (n : ℤ) < 18 * 64 := by
        rw [numLatencyHistogramBuckets] at hn
        omega
      have hpos : a.requests > 0 ∧ b.requests > 0 := ⟨ha, hb⟩
      simp only [combineRequestCounters, if_pos hpos, if_pos hbucket]
    have hpart := @requestsBelow_mono a.latencyHistogram _ _ hn
    have hpart' := @requestsBelow_mono b.latencyHistogram _ _ hn
    rw [requestsBelow_succ] at hpart hpart'
    rw [requestsBelow_succ, ih (by omega), hsum, UInt64.toNat_add, Nat.mod_eq_of_lt (by omega),
      requestsBelow_succ, requestsBelow_succ]
    omega

/-- **Percentiles of combined counters.** For any two counters whose histograms one word can count
together, and for any percentage, the percentile of the combined counter is not below those of both
counters, and not above those of both. -/
theorem combined_percentile_between (percentile : ℚ)
    (hcount : requestsBelow a.latencyHistogram numLatencyHistogramBuckets +
      requestsBelow b.latencyHistogram numLatencyHistogramBuckets < 2 ^ 64) :
    min (getLatencyPercentile a.toIoRequestCounter percentile)
        (getLatencyPercentile b.toIoRequestCounter percentile) ≤
      getLatencyPercentile (combineRequestCounters a b).toIoRequestCounter percentile ∧
    getLatencyPercentile (combineRequestCounters a b).toIoRequestCounter percentile ≤
      max (getLatencyPercentile a.toIoRequestCounter percentile)
        (getLatencyPercentile b.toIoRequestCounter percentile) := by
  by_cases hboth : a.requests > 0 ∧ b.requests > 0
  · obtain ⟨ha, hb⟩ := hboth
    have htotal := requestsBelow_combine ha hb hcount (Nat.le_refl _)
    obtain ⟨i, hi, hfirst⟩ := @getLatencyPercentile_isFirst percentile a.toIoRequestCounter
      (by omega)
    obtain ⟨j, hj, hfirst'⟩ := @getLatencyPercentile_isFirst percentile b.toIoRequestCounter
      (by omega)
    obtain ⟨k, hk, hfirst''⟩ := @getLatencyPercentile_isFirst percentile
      (combineRequestCounters a b).toIoRequestCounter (by omega)
    obtain ⟨hmin, hmax⟩ := hfirst.between hfirst' hfirst''
      (fun k hk hreached hreached' => by
        rw [htotal, requestsBelow_combine ha hb hcount hk]
        exact hreached.add hreached')
      (fun k hk hreached => by
        rw [htotal, requestsBelow_combine ha hb hcount hk] at hreached
        exact hreached.of_add (requestsBelow_mono hk) (requestsBelow_mono hk))
    rw [hi, hj, hk]
    constructor
    · rw [min_le_iff]
      exact (min_le_iff.mp hmin).imp (getAvgLatencyAtHistogramIdx_mono · hfirst''.le)
        (getAvgLatencyAtHistogramIdx_mono · hfirst''.le)
    · rw [le_max_iff]
      exact (le_max_iff.mp hmax).imp (getAvgLatencyAtHistogramIdx_mono · hfirst.le)
        (getAvgLatencyAtHistogramIdx_mono · hfirst'.le)
  · -- One of the counters has no requests, and the result is the other one.
    rw [combineRequestCounters, if_neg hboth]
    split
    · exact ⟨min_le_left _ _, le_max_left _ _⟩
    · exact ⟨min_le_right _ _, le_max_right _ _⟩

end Combination

/-- A request of 10 microseconds and one of 30. -/
theorem combined_percentile_between_two :
    10 ≤ getLatencyPercentile (combineRequestCounters (finishedCounter oneSecond [⟨512, 0, 10⟩])
        (finishedCounter oneSecond [⟨512, 0, 30⟩])).toIoRequestCounter 75 ∧
      getLatencyPercentile (combineRequestCounters (finishedCounter oneSecond [⟨512, 0, 10⟩])
        (finishedCounter oneSecond [⟨512, 0, 30⟩])).toIoRequestCounter 75 ≤ 30 := by
  have hbetween := @combined_percentile_between (finishedCounter oneSecond [⟨512, 0, 10⟩])
    (finishedCounter oneSecond [⟨512, 0, 30⟩]) 75 (by decide +kernel)
  have hleast : getLatencyPercentile
      (finishedCounter oneSecond [⟨512, 0, 10⟩]).toIoRequestCounter 75 = 10 := by
    decide +kernel
  have hgreatest : getLatencyPercentile
      (finishedCounter oneSecond [⟨512, 0, 30⟩]).toIoRequestCounter 75 = 30 := by
    decide +kernel
  rw [hleast, hgreatest] at hbetween
  exact hbetween

end DiskBench
