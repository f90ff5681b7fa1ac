import DiskBench.FinishedCounter

/-!
# Combined counters

`combine_request_counters` of `diskBenchStat.c` on finished counters. Numbers, bytes and totals are
added up and the moments are pooled as those of populations. The variances of finished counters are
those of samples, so the combined one is the variance of all requests only where the distance of the
means makes up for it.
-/

namespace DiskBench

open Deviations

/-- `combine_request_counters`. The fields that are not assigned are cleared, `wall_elapsed` among
them. -/
def combineRequestCounters (a b : FinishedCounter) : FinishedCounter :=
  if a.requests > 0 ∧ b.requests > 0 then
    let bytes := a.bytes + b.bytes
    let requests := a.requests + b.requests
    let combinedMean : ℚ := (a.requests.toNat * a.meanLatency + b.requests.toNat * b.meanLatency) /
      requests.toNat
    let wallElapsed : AprTime := 0
    let overlap : Bool := a.startTime ≤ b.sampleTime ∧ a.endTime ≥ b.sampleTime
    let bytesPerSecond := (quotient bytes.toNat wallElapsed).map (· * 1000000)
    let weight := if overlap then (a.weight + b.weight) / 2 else a.weight + b.weight
    { startTime := minTime a.startTime b.startTime
      endTime := maxTime a.endTime b.endTime
      sampleTime := 0
      wallElapsed := wallElapsed
      requests := requests
      bytes := bytes
      totalLatency := a.totalLatency + b.totalLatency
      minLatency := if a.minLatency < b.minLatency then a.minLatency else b.minLatency
      maxLatency := if a.maxLatency > b.maxLatency then a.maxLatency else b.maxLatency
      meanLatency := combinedMean
      m2Latency := 0
      varianceLatency := (a.requests.toNat * (a.varianceLatency +
          (a.meanLatency - combinedMean) * (a.meanLatency - combinedMean)) +
        b.requests.toNat * (b.varianceLatency +
          (b.meanLatency - combinedMean) * (b.meanLatency - combinedMean))) / requests.toNat
      latencyHistogram := fun i =>
        if 0 ≤ i ∧ i < 18 * 64 then a.latencyHistogram i + b.latencyHistogram i else 0
      bytesPerIo := quotient bytes.toNat requests.toNat
      bytesPerSecond := bytesPerSecond
      iops := (quotient requests.toNat wallElapsed).map (· * 1000000)
      maxActive := if overlap then a.maxActive + b.maxActive else max a.maxActive b.maxActive
      weight := weight
      weightedBytesPerSecond :=
        if overlap then bytesPerSecond.map (· * weight)
        else a.weightedBytesPerSecond.bind fun x => b.weightedBytesPerSecond.map (x + ·) }
  else if a.requests > 0 then a
  else b

/-- Two counters are the same in what they count. -/
structure FinishedCounter.SameCounts (c d : FinishedCounter) : Prop where
  requests : c.requests = d.requests
  bytes : c.bytes = d.bytes
  totalLatency : c.totalLatency = d.totalLatency
  minLatency : c.minLatency = d.minLatency
  maxLatency : c.maxLatency = d.maxLatency
  meanLatency : c.meanLatency = d.meanLatency
  varianceLatency : c.varianceLatency = d.varianceLatency
  latencyHistogram : ∀ i, 0 ≤ i → i < 18 * 64 → c.latencyHistogram i = d.latencyHistogram i

/-- The moments that are combined. -/
def FinishedCounter.moments (c : FinishedCounter) : Moments ℚ :=
  ⟨c.requests.toNat, c.meanLatency, c.varianceLatency⟩

/-- What the combination of two counters holds of them. -/
structure FinishedCounter.Combines (c a b : FinishedCounter) : Prop where
  requests : c.requests = a.requests + b.requests
  bytes : c.bytes = a.bytes + b.bytes
  totalLatency : c.totalLatency = a.totalLatency + b.totalLatency
  minLatency : c.minLatency = min a.minLatency b.minLatency
  maxLatency : c.maxLatency = max a.maxLatency b.maxLatency
  moments : c.moments = a.moments.pool b.moments
  latencyHistogram : ∀ i, 0 ≤ i → i < 18 * 64 →
    c.latencyHistogram i = a.latencyHistogram i + b.latencyHistogram i

section Combination

variable {a b c d : FinishedCounter}

theorem toNat_add_requests (hsum : a.requests.toNat + b.requests.toNat < 2 ^ 64) :
    (a.requests + b.requests).toNat = a.requests.toNat + b.requests.toNat := by
  rw [UInt64.toNat_add, Nat.mod_eq_of_lt hsum]

/-- Counters of requests that one word can count together are combined field by field. -/
theorem combineRequestCounters_combines (ha : 0 < a.requests) (hb : 0 < b.requests)
    (hsum : a.requests.toNat + b.requests.toNat < 2 ^ 64) :
    (combineRequestCounters a b).Combines a b := by
  have hcount := toNat_add_requests hsum
  have hpos : a.requests > 0 ∧ b.requests > 0 := ⟨ha, hb⟩
  rw [combineRequestCounters, if_pos hpos]
  refine ⟨rfl, rfl, rfl, (min_def_lt _ _).symm, ?_, ?_, fun i hi hi' => if_pos ⟨hi, hi'⟩⟩
  · exact (max_comm _ _).trans (max_def_lt _ _) |>.symm
  · simp only [FinishedCounter.moments, Moments.pool, hcount, Nat.cast_add]

/-- Counters that are combined of the same fields are the same in what they count. -/
theorem FinishedCounter.Combines.comm (hc : c.Combines a b) (hd : d.Combines b a) :
    c.SameCounts d := by
  have hmoments : c.moments = d.moments := by
    rw [hc.moments, hd.moments, Moments.pool_comm]
  exact {
    requests := by rw [hc.requests, hd.requests, UInt64.add_comm]
    bytes := by rw [hc.bytes, hd.bytes, UInt64.add_comm]
    totalLatency := by rw [hc.totalLatency, hd.totalLatency, Int.add_comm]
    minLatency := by rw [hc.minLatency, hd.minLatency, min_comm]
    maxLatency := by rw [hc.maxLatency, hd.maxLatency, max_comm]
    meanLatency := congrArg Moments.mean hmoments
    varianceLatency := congrArg Moments.variance hmoments
    latencyHistogram := fun i hi hi' => by
      rw [hc.latencyHistogram i hi hi', hd.latencyHistogram i hi hi', UInt64.add_comm] }

/-- Three counters may be combined from the left or from the right. -/
theorem FinishedCounter.Combines.assoc {ab bc : FinishedCounter} (hab : ab.Combines a b)
    (hbc : bc.Combines b c) (hd : d.Combines ab c) {e : FinishedCounter} (he : e.Combines a bc)
    (ha : 0 < a.requests.toNat) (hb : 0 < b.requests.toNat) : d.SameCounts e := by
  have ha' : (0 : ℚ) < a.moments.weight := Nat.cast_pos.mpr ha
  have hb' : (0 : ℚ) < b.moments.weight := Nat.cast_pos.mpr hb
  have hc' : (0 : ℚ) ≤ c.moments.weight := Nat.cast_nonneg _
  have hmoments : d.moments = e.moments := by
    rw [hd.moments, hab.moments, he.moments, hbc.moments]
    exact Moments.pool_assoc (by positivity) (by positivity) (by positivity)
  exact {
    requests := by rw [hd.requests, hab.requests, he.requests, hbc.requests, UInt64.add_assoc]
    bytes := by rw [hd.bytes, hab.bytes, he.bytes, hbc.bytes, UInt64.add_assoc]
    totalLatency := by
      rw [hd.totalLatency, hab.totalLatency, he.totalLatency, hbc.totalLatency, Int.add_assoc]
    minLatency := by
      rw [hd.minLatency, hab.minLatency, he.minLatency, hbc.minLatency, min_assoc]
    maxLatency := by
      rw [hd.maxLatency, hab.maxLatency, he.maxLatency, hbc.maxLatency, max_assoc]
    meanLatency := congrArg Moments.mean hmoments
    varianceLatency := congrArg Moments.variance hmoments
    latencyHistogram := fun i hi hi' => by
      rw [hd.latencyHistogram i hi hi', hab.latencyHistogram i hi hi',
        he.latencyHistogram i hi hi', hbc.latencyHistogram i hi hi', UInt64.add_assoc] }

end Combination

section Signs

variable {m n : ℕ}

/-- Totals are added up without an overflow exactly when the sum is an `apr_time_t`. -/
theorem signed_add_iff :
    signed m + signed n = signed (m + n) ↔
      -2 ^ 63 ≤ signed m + signed n ∧ signed m + signed n < 2 ^ 63 := by
  obtain ⟨x, hx, -, hm⟩ := exists_signed_eq m
  obtain ⟨y, hy, -, hn⟩ := exists_signed_eq n
  obtain ⟨z, hz, hbounds, hboth⟩ := exists_signed_eq (m + n)
  rw [hx, hy, hz]
  change x + y = z ↔ -2 ^ 63 ≤ x + y ∧ x + y < 2 ^ 63
  omega

theorem signed_of_lt (h : n < 2 ^ 64) :
    signed n = if n < 2 ^ 63 then (n : ℤ) else n - 2 ^ 64 := by
  obtain ⟨x, hx, hbounds, hmod⟩ := exists_signed_eq n
  rw [hx]
  change x = if n < 2 ^ 63 then (n : ℤ) else n - 2 ^ 64
  split_ifs <;> omega

/-- The lesser of two words is so with a sign exactly when they have the same one. -/
theorem min_signed_iff (hm : m < 2 ^ 64) (hn : n < 2 ^ 64) :
    min (signed m) (signed n) = signed (min m n) ↔ (m < 2 ^ 63 ↔ n < 2 ^ 63) := by
  rw [signed_of_lt hm, signed_of_lt hn, signed_of_lt (min_lt_of_left_lt hm)]
  change min (_ : ℤ) _ = _ ↔ _
  split_ifs <;> omega

/-- The same for the greater one. -/
theorem max_signed_iff (hm : m < 2 ^ 64) (hn : n < 2 ^ 64) :
    max (signed m) (signed n) = signed (max m n) ↔ (m < 2 ^ 63 ↔ n < 2 ^ 63) := by
  rw [signed_of_lt hm, signed_of_lt hn, signed_of_lt (max_lt hm hn)]
  change max (_ : ℤ) _ = _ ↔ _
  split_ifs <;> omega

end Signs

/-- The mean that is computed on finish, of a total that is an `apr_time_t`. -/
def totalMean (stats : List IoRequestStat) : ℚ :=
  signed (latencyWords stats).sum / (stats.length : ℚ)

/-- The variance of the latencies as those of a sample. -/
def sampleVariance (stats : List IoRequestStat) : ℚ :=
  squares (latencyValues stats) / ((stats.length : ℚ) - 1)

/-- The requests whose counters are combined to that of all of them. The totals fit together in an
`apr_time_t`, latencies of either sign are in both lists or in none, and the distance of the means
makes up for the variances, which are those of samples. -/
structure CombinesExactly (stats stats' : List IoRequestStat) : Prop where
  total : -2 ^ 63 ≤ signed (latencyWords stats).sum + signed (latencyWords stats').sum ∧
    signed (latencyWords stats).sum + signed (latencyWords stats').sum < 2 ^ 63
  nonneg : (∃ x ∈ latencyWords stats, x < 2 ^ 63) ↔ ∃ x ∈ latencyWords stats', x < 2 ^ 63
  negative : (∀ x ∈ latencyWords stats, x < 2 ^ 63) ↔ ∀ x ∈ latencyWords stats', x < 2 ^ 63
  spread : (stats.length + stats'.length) *
        (stats'.length * sampleVariance stats + stats.length * sampleVariance stats') +
      (stats.length + stats'.length - 1) *
        (stats.length * stats'.length * (totalMean stats - totalMean stats') ^ 2) =
    (stats.length + stats'.length) * (stats.length * stats'.length *
      (mean (latencyValues stats) - mean (latencyValues stats')) ^ 2)

section Concatenation

variable {a b c d : FinishedCounter} {stats stats' : List IoRequestStat}

theorem latencyWords_append :
    latencyWords (stats ++ stats') = latencyWords stats ++ latencyWords stats' :=
  List.map_append

theorem latencyValues_append :
    latencyValues (stats ++ stats') = latencyValues stats ++ latencyValues stats' := by
  rw [latencyValues, latencyWords_append, List.map_append]
  rfl

theorem length_latencyValues : (latencyValues stats).length = stats.length := by
  rw [latencyValues, latencyWords, List.length_map, List.length_map]

theorem mem_latencyWords_append :
    {x | x ∈ latencyWords (stats ++ stats')} =
      {x | x ∈ latencyWords stats} ∪ {x | x ∈ latencyWords stats'} := by
  ext x
  rw [latencyWords_append]
  exact List.mem_append

/-- The moments of a counter are those of a sample. -/
theorem FinishedCounter.Counts.moments (h : a.Counts stats) (hlength : stats.length < 2 ^ 64) :
    a.moments = sample (latencyValues stats) (totalMean stats) := by
  rw [FinishedCounter.moments, sample, length_latencyValues, h.requests, h.meanLatency,
    h.varianceLatency, UInt64.toNat_ofNat_of_lt' hlength]
  rfl

theorem totalLatency_iff (hc : c.Combines a b) (ha : a.Counts stats) (hb : b.Counts stats')
    (hd : d.Counts (stats ++ stats')) :
    c.totalLatency = d.totalLatency ↔
      -2 ^ 63 ≤ signed (latencyWords stats).sum + signed (latencyWords stats').sum ∧
        signed (latencyWords stats).sum + signed (latencyWords stats').sum < 2 ^ 63 := by
  rw [hc.totalLatency, ha.totalLatency, hb.totalLatency, hd.totalLatency, latencyWords_append,
    List.sum_append]
  exact signed_add_iff

/-- The least latency is compared with a sign in the combination. -/
theorem minLatency_iff (hc : c.Combines a b) (ha : a.Counts stats) (hb : b.Counts stats')
    (hd : d.Counts (stats ++ stats')) :
    c.minLatency = d.minLatency ↔
      ((∃ x ∈ latencyWords stats, x < 2 ^ 63) ↔ ∃ x ∈ latencyWords stats', x < 2 ^ 63) := by
  obtain ⟨m, hm, hleast⟩ := ha.minLatency
  obtain ⟨n, hn, hleast'⟩ := hb.minLatency
  obtain ⟨k, hk, hboth⟩ := hd.minLatency
  rw [mem_latencyWords_append] at hboth
  rw [hc.minLatency, hm, hn, hk, hboth.unique (hleast.union hleast'),
    min_signed_iff (lt_two_pow_of_mem hleast.1) (lt_two_pow_of_mem hleast'.1)]
  exact iff_congr (isGLB_lt_iff hleast.isGLB) (isGLB_lt_iff hleast'.isGLB)

/-- The same for the greatest one. -/
theorem maxLatency_iff (hc : c.Combines a b) (ha : a.Counts stats) (hb : b.Counts stats')
    (hd : d.Counts (stats ++ stats')) :
    c.maxLatency = d.maxLatency ↔
      ((∀ x ∈ latencyWords stats, x < 2 ^ 63) ↔ ∀ x ∈ latencyWords stats', x < 2 ^ 63) := by
  obtain ⟨m, hm, hgreatest⟩ := ha.maxLatency
  obtain ⟨n, hn, hgreatest'⟩ := hb.maxLatency
  obtain ⟨k, hk, hboth⟩ := hd.maxLatency
  rw [mem_latencyWords_append] at hboth
  rw [hc.maxLatency, hm, hn, hk, hboth.unique (hgreatest.union hgreatest'),
    max_signed_iff (lt_two_pow_of_mem hgreatest.1) (lt_two_pow_of_mem hgreatest'.1)]
  exact iff_congr hgreatest.lt_iff hgreatest'.lt_iff

theorem length_mul_totalMean (h : 0 < stats.length) :
    stats.length * totalMean stats = (signed (latencyWords stats).sum : ℚ) :=
  mul_div_cancel₀ _ (Nat.cast_ne_zero.mpr h.ne')

/-- The combined mean is that of the combined total. -/
theorem meanLatency_eq (hc : c.Combines a b) (ha : a.Counts stats) (hb : b.Counts stats')
    (hd : d.Counts (stats ++ stats')) (h : 0 < stats.length) (h' : 0 < stats'.length)
    (hlength : stats.length + stats'.length < 2 ^ 64)
    (htotal : c.totalLatency = d.totalLatency) : c.meanLatency = d.meanLatency := by
  have hcombined : c.meanLatency = (stats.length * totalMean stats +
      stats'.length * totalMean stats') / (stats.length + stats'.length) := by
    have hmean := congrArg Moments.mean hc.moments
    rw [ha.moments (by omega), hb.moments (by omega)] at hmean
    simpa only [FinishedCounter.moments, Moments.pool, sample, length_latencyValues] using hmean
  rw [hcombined, length_mul_totalMean h, length_mul_totalMean h', hd.meanLatency,
    ← hd.totalLatency, ← htotal, hc.totalLatency, ha.totalLatency, hb.totalLatency,
    List.length_append, Int.cast_add, Nat.cast_add]

/-- The combined variance is that of all requests exactly when the distance of the means makes up
for the degrees of freedom. -/
theorem varianceLatency_iff (hc : c.Combines a b) (ha : a.Counts stats) (hb : b.Counts stats')
    (hd : d.Counts (stats ++ stats')) (h : 2 ≤ stats.length) (h' : 2 ≤ stats'.length)
    (hlength : stats.length + stats'.length < 2 ^ 64) :
    c.varianceLatency = d.varianceLatency ↔
      (stats.length + stats'.length) *
            (stats'.length * sampleVariance stats + stats.length * sampleVariance stats') +
          (stats.length + stats'.length - 1) *
            (stats.length * stats'.length * (totalMean stats - totalMean stats') ^ 2) =
        (stats.length + stats'.length) * (stats.length * stats'.length *
          (mean (latencyValues stats) - mean (latencyValues stats')) ^ 2) := by
  have hcombined : c.varianceLatency = ((sample (latencyValues stats) (totalMean stats)).pool
      (sample (latencyValues stats') (totalMean stats'))).variance := by
    rw [← ha.moments (by omega), ← hb.moments (by omega), ← hc.moments]
    rfl
  have hwhole : d.varianceLatency =
      (sample (latencyValues stats ++ latencyValues stats') 0).variance := by
    rw [← latencyValues_append, sample, length_latencyValues]
    exact hd.varianceLatency
  have hiff := variance_pool_sample_iff (length_latencyValues.symm ▸ h)
    (length_latencyValues.symm ▸ h') (totalMean stats) (totalMean stats')
  rw [hcombined, hwhole, hiff]
  simp only [sample, sampleVariance, length_latencyValues]

/-- The latencies of both lists are counted in the sum of their buckets. -/
theorem latencyHistogram_eq (ha : a.Counts stats) (hb : b.Counts stats')
    (hd : d.Counts (stats ++ stats')) (i : ℤ) :
    a.latencyHistogram i + b.latencyHistogram i = d.latencyHistogram i := by
  rw [ha.latencyHistogram, hb.latencyHistogram, hd.latencyHistogram, List.countP_append,
    UInt64.ofNat_add]

/-- The combination of two counters is that of all requests. -/
theorem FinishedCounter.Combines.sameCounts_iff (hc : c.Combines a b) (ha : a.Counts stats)
    (hb : b.Counts stats') (hd : d.Counts (stats ++ stats')) (h : 2 ≤ stats.length)
    (h' : 2 ≤ stats'.length) (hlength : stats.length + stats'.length < 2 ^ 64) :
    c.SameCounts d ↔ CombinesExactly stats stats' := by
  have htotal := totalLatency_iff hc ha hb hd
  have hleast := minLatency_iff hc ha hb hd
  have hgreatest := maxLatency_iff hc ha hb hd
  have hspread := varianceLatency_iff hc ha hb hd h h' hlength
  constructor
  · intro hsame
    exact ⟨htotal.mp hsame.totalLatency, hleast.mp hsame.minLatency,
      hgreatest.mp hsame.maxLatency, hspread.mp hsame.varianceLatency⟩
  · intro hexactly
    have htotal' := htotal.mpr hexactly.total
    exact {
      requests := by
        rw [hc.requests, ha.requests, hb.requests, hd.requests, List.length_append,
          UInt64.ofNat_add]
      bytes := by
        rw [hc.bytes, ha.bytes, hb.bytes, hd.bytes, List.map_append, List.sum_append,
          UInt64.ofNat_add]
      totalLatency := htotal'
      minLatency := hleast.mpr hexactly.nonneg
      maxLatency := hgreatest.mpr hexactly.negative
      meanLatency := meanLatency_eq hc ha hb hd (by omega) (by omega) hlength htotal'
      varianceLatency := hspread.mpr hexactly.spread
      latencyHistogram := fun i hi hi' =>
        (hc.latencyHistogram i hi hi').trans (latencyHistogram_eq ha hb hd i) }

end Concatenation

section Nonneg

variable {stats stats' : List IoRequestStat}

theorem word_lt_of_nonneg (h : ∀ stat ∈ stats, 0 ≤ stat.latency ∧ stat.latency < 2 ^ 63) :
    ∀ x ∈ latencyWords stats, x < 2 ^ 63 := by
  intro x hx
  obtain ⟨stat, hstat, rfl⟩ := List.mem_map.mp hx
  have hword := word_eq_latency (h stat hstat)
  have hlt := (h stat hstat).2
  rw [← hword] at hlt
  exact_mod_cast hlt

theorem exists_word_lt (hne : 0 < stats.length)
    (h : ∀ stat ∈ stats, 0 ≤ stat.latency ∧ stat.latency < 2 ^ 63) :
    ∃ x ∈ latencyWords stats, x < 2 ^ 63 := by
  have hmem := List.getElem_mem hne
  exact ⟨_, List.mem_map_of_mem hmem, word_lt_of_nonneg h _ (List.mem_map_of_mem hmem)⟩

/-- The mean of a total below `2 ^ 63` is that of the latencies. -/
theorem totalMean_eq (h : (latencyWords stats).sum < 2 ^ 63) :
    totalMean stats = mean (latencyValues stats) := by
  rw [totalMean, signed_eq_iff.mpr h, mean, length_latencyValues, latencyValues,
    ← Nat.cast_list_sum]
  rfl

/-- For latencies that are not negative, whose total is an `apr_time_t`, the variances decide. -/
theorem combinesExactly_iff (h : 0 < stats.length) (h' : 0 < stats'.length)
    (hstats : ∀ stat ∈ stats ++ stats', 0 ≤ stat.latency ∧ stat.latency < 2 ^ 63)
    (hsum : ((stats ++ stats').map IoRequestStat.latency).sum < 2 ^ 63) :
    CombinesExactly stats stats' ↔
      stats.length * stats'.length *
          (mean (exactLatencies stats) - mean (exactLatencies stats')) ^ 2 =
        (stats.length + stats'.length) *
          (stats'.length * (squares (exactLatencies stats) / (stats.length - 1)) +
            stats.length * (squares (exactLatencies stats') / (stats'.length - 1))) := by
  have hleft : ∀ stat ∈ stats, 0 ≤ stat.latency ∧ stat.latency < 2 ^ 63 :=
    fun stat hstat => hstats stat (List.mem_append_left _ hstat)
  have hright : ∀ stat ∈ stats', 0 ≤ stat.latency ∧ stat.latency < 2 ^ 63 :=
    fun stat hstat => hstats stat (List.mem_append_right _ hstat)
  have htotal : (latencyWords stats).sum + (latencyWords stats').sum < 2 ^ 63 := by
    rw [← sum_latencyWords hstats, latencyWords_append, List.sum_append] at hsum
    exact_mod_cast hsum
  have hfirst := Nat.lt_of_le_of_lt (Nat.le_add_right _ _) htotal
  have hlast := Nat.lt_of_le_of_lt (Nat.le_add_left _ _) htotal
  have hmean := totalMean_eq hfirst
  have hmean' := totalMean_eq hlast
  have hfits : -2 ^ 63 ≤ signed (latencyWords stats).sum + signed (latencyWords stats').sum ∧
      signed (latencyWords stats).sum + signed (latencyWords stats').sum < 2 ^ 63 := by
    rw [signed_eq_iff.mpr hfirst, signed_eq_iff.mpr hlast]
    constructor
    · exact Int.le_trans (by decide) (Int.natCast_nonneg (_ + _))
    · exact_mod_cast htotal
  rw [← latencyValues_eq hleft, ← latencyValues_eq hright]
  constructor
  · intro hexactly
    have hspread := hexactly.spread
    rw [hmean, hmean', sampleVariance, sampleVariance] at hspread
    linear_combination -hspread
  · intro heq
    refine ⟨hfits, iff_of_true (exists_word_lt h hleft) (exists_word_lt h' hright),
      iff_of_true (word_lt_of_nonneg hleft) (word_lt_of_nonneg hright), ?_⟩
    rw [hmean, hmean', sampleVariance, sampleVariance]
    linear_combination -heq

end Nonneg

/-- The finished counters of two lists of requests, combined. -/
def combinedCounter (workload workload' : IoWorkload) (stats stats' : List IoRequestStat) :
    FinishedCounter :=
  combineRequestCounters (finishedCounter workload stats) (finishedCounter workload' stats')

section Lists

variable {a b c : FinishedCounter} {stats stats' stats'' : List IoRequestStat}

theorem FinishedCounter.Counts.toNat_requests (h : a.Counts stats)
    (hlength : stats.length < 2 ^ 64) : a.requests.toNat = stats.length := by
  rw [h.requests, UInt64.toNat_ofNat_of_lt' hlength]

theorem FinishedCounter.Combines.toNat_requests (h : c.Combines a b)
    (hsum : a.requests.toNat + b.requests.toNat < 2 ^ 64) :
    c.requests.toNat = a.requests.toNat + b.requests.toNat := by
  rw [h.requests, toNat_add_requests hsum]

theorem combinedCounter_combines (workload workload' : IoWorkload) (h : 2 ≤ stats.length)
    (h' : 2 ≤ stats'.length) (hlength : stats.length + stats'.length < 2 ^ 64) :
    (combinedCounter workload workload' stats stats').Combines (finishedCounter workload stats)
      (finishedCounter workload' stats') := by
  have hcount := (finishedCounter_counts workload h (by omega)).toNat_requests (by omega)
  have hcount' := (finishedCounter_counts workload' h' (by omega)).toNat_requests (by omega)
  apply combineRequestCounters_combines
  · rw [UInt64.lt_iff_toNat_lt, hcount]
    exact Nat.lt_of_lt_of_le two_pos h
  · rw [UInt64.lt_iff_toNat_lt, hcount']
    exact Nat.lt_of_lt_of_le two_pos h'
  · rw [hcount, hcount']
    exact hlength

/-- Three lists may be combined from the left or from the right. -/
theorem combinedCounter_assoc (workload workload' workload'' : IoWorkload) (h : 2 ≤ stats.length)
    (h' : 2 ≤ stats'.length) (h'' : 2 ≤ stats''.length)
    (hlength : stats.length + stats'.length + stats''.length < 2 ^ 64) :
    (combineRequestCounters (combinedCounter workload workload' stats stats')
        (finishedCounter workload'' stats'')).SameCounts
      (combineRequestCounters (finishedCounter workload stats)
        (combinedCounter workload' workload'' stats' stats'')) := by
  have hab := combinedCounter_combines workload workload' h h' (by omega)
  have hbc := combinedCounter_combines workload' workload'' h' h'' (by omega)
  have hcount := (finishedCounter_counts workload h (by omega)).toNat_requests (by omega)
  have hcount' := (finishedCounter_counts workload' h' (by omega)).toNat_requests (by omega)
  have hcount'' := (finishedCounter_counts workload'' h'' (by omega)).toNat_requests (by omega)
  have hfirst := hab.toNat_requests (by omega)
  have hlast := hbc.toNat_requests (by omega)
  refine hab.assoc hbc (combineRequestCounters_combines ?_ ?_ (by omega))
    (combineRequestCounters_combines ?_ ?_ (by omega)) (by omega) (by omega)
  all_goals
    rw [UInt64.lt_iff_toNat_lt, UInt64.toNat_zero]
    omega

/-- **Combined counters are those of all requests only where the means make up for the variances.**
Each is finished with the variance of a sample and combined with that of a population. The other
fields agree for latencies that are not negative whose total is an `apr_time_t`, the buckets are
added up, and neither the order nor the grouping of the lists matters. -/
theorem combinedCounter_sameCounts_iff (workload workload' whole : IoWorkload)
    {stats stats' : List IoRequestStat} (h : 2 ≤ stats.length) (h' : 2 ≤ stats'.length)
    (hlength : stats.length + stats'.length < 2 ^ 64) :
    ((combinedCounter workload workload' stats stats').SameCounts
          (finishedCounter whole (stats ++ stats')) ∧
        (∀ i, 0 ≤ i → i < 18 * 64 →
          (combinedCounter workload workload' stats stats').latencyHistogram i =
            (finishedCounter workload stats).latencyHistogram i +
              (finishedCounter workload' stats').latencyHistogram i) ↔
      CombinesExactly stats stats') ∧
    ((∀ stat ∈ stats ++ stats', 0 ≤ stat.latency ∧ stat.latency < 2 ^ 63) →
      ((stats ++ stats').map IoRequestStat.latency).sum < 2 ^ 63 →
      (CombinesExactly stats stats' ↔
        stats.length * stats'.length *
            (mean (exactLatencies stats) - mean (exactLatencies stats')) ^ 2 =
          (stats.length + stats'.length) *
            (stats'.length * (squares (exactLatencies stats) / (stats.length - 1)) +
              stats.length * (squares (exactLatencies stats') / (stats'.length - 1))))) ∧
    (combinedCounter workload workload' stats stats').SameCounts
      (combinedCounter workload' workload stats' stats) ∧
    ∀ (workload'' : IoWorkload) (stats'' : List IoRequestStat), 2 ≤ stats''.length →
      stats.length + stats'.length + stats''.length < 2 ^ 64 →
      (combineRequestCounters (combinedCounter workload workload' stats stats')
          (finishedCounter workload'' stats'')).SameCounts
        (combineRequestCounters (finishedCounter workload stats)
          (combinedCounter workload' workload'' stats' stats'')) := by
  have hcombines := combinedCounter_combines workload workload' h h' hlength
  have hcombines' := combinedCounter_combines workload' workload h' h (by omega)
  have hcounts := finishedCounter_counts workload h (by omega)
  have hcounts' := finishedCounter_counts workload' h' (by omega)
  have hwhole : (finishedCounter whole (stats ++ stats')).Counts (stats ++ stats') :=
    finishedCounter_counts whole (by rw [List.length_append]; omega)
      (by rw [List.length_append]; omega)
  have hiff := hcombines.sameCounts_iff hcounts hcounts' hwhole h h' hlength
  refine ⟨?_, combinesExactly_iff (by omega) (by omega), hcombines.comm hcombines',
    fun workload'' stats'' h'' =>
      combinedCounter_assoc workload workload' workload'' h h' h''⟩
  rw [and_iff_left hcombines.latencyHistogram]
  exact hiff

/-- Two requests without a latency and two of 1 and 3 microseconds. -/
theorem combinedCounter_sameCounts_four :
    (combinedCounter oneSecond oneSecond [⟨512, 0, 0⟩, ⟨512, 0, 0⟩]
      [⟨512, 0, 1⟩, ⟨512, 0, 3⟩]).SameCounts
        (finishedCounter oneSecond [⟨512, 0, 0⟩, ⟨512, 0, 0⟩, ⟨512, 0, 1⟩, ⟨512, 0, 3⟩]) := by
  obtain ⟨hiff, hnonneg, -⟩ := @combinedCounter_sameCounts_iff oneSecond oneSecond oneSecond
    [⟨512, 0, 0⟩, ⟨512, 0, 0⟩] [⟨512, 0, 1⟩, ⟨512, 0, 3⟩] (by decide) (by decide) (by decide)
  refine (hiff.mpr ((hnonneg ?_ ?_).mpr ?_)).1
  · simp [IoRequestStat.latency]
  · decide
  · norm_num [exactLatencies, IoRequestStat.latency, mean, squares]

/-- Two requests of 100 and 102 microseconds. -/
def twoRequests : List IoRequestStat := [⟨512, 0, 100⟩, ⟨512, 0, 102⟩]

theorem latencyValues_twoRequests : latencyValues twoRequests = [100, 102] := by
  rw [latencyValues_eq (by simp [twoRequests, IoRequestStat.latency])]
  simp [exactLatencies, twoRequests, IoRequestStat.latency]

/-- Twice two requests are combined to a variance of 2, and that of all four is 4/3. -/
theorem combinedCounter_twoRequests :
    (combinedCounter oneSecond oneSecond twoRequests twoRequests).varianceLatency = 2 ∧
      (finishedCounter oneSecond (twoRequests ++ twoRequests)).varianceLatency = 4 / 3 ∧
      ¬(combinedCounter oneSecond oneSecond twoRequests twoRequests).SameCounts
        (finishedCounter oneSecond (twoRequests ++ twoRequests)) := by
  have hvalues := latencyValues_twoRequests
  have hmean : totalMean twoRequests = 101 := by
    rw [totalMean_eq (by decide), hvalues]
    norm_num [mean]
  have hcounts : (finishedCounter oneSecond twoRequests).Counts twoRequests :=
    finishedCounter_counts oneSecond (by decide) (by decide)
  have hcombines := @combinedCounter_combines twoRequests twoRequests oneSecond oneSecond
    (by decide) (by decide) (by decide)
  have hcombined :
      (combinedCounter oneSecond oneSecond twoRequests twoRequests).varianceLatency = 2 := by
    have hmoments := congrArg Moments.variance hcombines.moments
    rw [hcounts.moments (by decide), hmean, hvalues] at hmoments
    refine hmoments.trans ?_
    norm_num [Moments.pool, sample, squares, mean]
  have hwhole : (finishedCounter oneSecond (twoRequests ++ twoRequests)).varianceLatency =
      4 / 3 := by
    rw [(finishedCounter_counts oneSecond (by decide) (by decide)).varianceLatency,
      latencyValues_append, hvalues]
    norm_num [squares, mean, twoRequests]
  refine ⟨hcombined, hwhole, fun hsame => ?_⟩
  have hvariance := hsame.varianceLatency
  rw [hcombined, hwhole] at hvariance
  norm_num at hvariance

end Lists

end DiskBench
