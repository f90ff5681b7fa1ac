import Mathlib.Data.Rat.Floor
import DiskBench.Histogram

/-!
# The counters of requests

`struct io_request_counter` of `diskBenchStat.h` with the two updates of its histogram. The doubles
are rational numbers, and the array of the histogram is a function of the index. The update of
`add_latency_to_histogram` counts each latency in its bucket. That of `add_request_to_counter` has
its mask in another place and masks the whole index.
-/

namespace DiskBench

open LogBuckets

/-- `struct io_request_stat`. -/
structure IoRequestStat where
  reqsize : UInt64
  ioSubmit : AprTime
  ioComplete : AprTime

/-- The time between submission and completion. -/
def IoRequestStat.latency (stat : IoRequestStat) : AprTime := stat.ioComplete - stat.ioSubmit

/-- `struct io_request_counter`. -/
structure IoRequestCounter where
  startTime : AprTime
  requests : UInt64
  bytes : UInt64
  totalLatency : AprTime
  minLatency : AprTime
  maxLatency : AprTime
  meanLatency : ℚ
  m2Latency : ℚ
  varianceLatency : ℚ
  /-- The number of requests of each bucket. -/
  latencyHistogram : ℤ → UInt64

/-- `start_request_counter`, with the start time of the workload. -/
def startRequestCounter (startTime : AprTime) : IoRequestCounter where
  startTime := startTime
  requests := 0
  bytes := 0
  totalLatency := 0
  minLatency := 0
  maxLatency := 0
  meanLatency := 0
  m2Latency := 0
  varianceLatency := 0
  latencyHistogram := fun _ => 0

/-- `latency_histogram[bucket] = latency_histogram[bucket] + 1`. -/
def countBucket (latencyHistogram : ℤ → UInt64) (bucket : ℤ) : ℤ → UInt64 :=
  Function.update latencyHistogram bucket (latencyHistogram bucket + 1)

/-- `add_latency_to_histogram`. -/
def addLatencyToHistogram (counter : IoRequestCounter) (latency : AprTime) : IoRequestCounter :=
  { counter with
    latencyHistogram := countBucket counter.latencyHistogram (latencyBucket latency) }

/-- The conversion of a `uint64_t` to `apr_time_t`. -/
def toAprTime (x : UInt64) : AprTime := x.toInt64.toInt

/-- The bin of `add_request_to_counter`. A sum is formed before its bits are masked. -/
def latencyBin (totalLatency : UInt64) : ℤ :=
  let loop :=
    shiftLoop (fun tmp : AprTime => tmp > 64) (· >>> (1 : ℕ)) 18 0 (toAprTime totalLatency)
  let i := loop.1
  let sum := UInt64.ofNat (i * 64) + (totalLatency >>> UInt64.ofNat (if i < 1 then i else i - 1))
  (sum &&& (64 - 1)).toNat

/-- The counters and the moments of `add_request_to_counter`, without its histogram. -/
def updateMoments (counter : IoRequestCounter) (reqsize totalLatency : UInt64) :
    IoRequestCounter :=
  let requests := counter.requests + 1
  if requests = 1 then
    { counter with
      requests := requests
      minLatency := toAprTime totalLatency
      maxLatency := toAprTime totalLatency
      meanLatency := totalLatency.toNat
      totalLatency := toAprTime totalLatency
      bytes := reqsize }
  else
    let delta := totalLatency.toNat - counter.meanLatency
    let meanLatency := counter.meanLatency + delta / requests.toNat
    { counter with
      requests := requests
      meanLatency := meanLatency
      m2Latency := counter.m2Latency + delta * (totalLatency.toNat - meanLatency)
      minLatency :=
        if totalLatency < UInt64.ofInt counter.minLatency then toAprTime totalLatency
        else counter.minLatency
      maxLatency :=
        if totalLatency > UInt64.ofInt counter.maxLatency then toAprTime totalLatency
        else counter.maxLatency
      bytes := counter.bytes + reqsize
      totalLatency := toAprTime (UInt64.ofInt counter.totalLatency + totalLatency) }

/-- `add_request_to_counter`. -/
def addRequestToCounter (counter : IoRequestCounter) (stat : IoRequestStat) : IoRequestCounter :=
  let totalLatency := UInt64.ofInt stat.latency
  let counter := updateMoments counter stat.reqsize totalLatency
  { counter with
    latencyHistogram := countBucket counter.latencyHistogram (latencyBin totalLatency) }

section Counts

theorem countBucket_apply (latencyHistogram : ℤ → UInt64) (bucket b : ℤ) :
    countBucket latencyHistogram bucket b =
      latencyHistogram b + if bucket = b then 1 else 0 := by
  rw [countBucket, Function.update_apply]
  split_ifs with h h' h'
  · rw [h]
  · exact absurd h.symm h'
  · exact absurd h'.symm h
  · exact (UInt64.add_zero _).symm

/-- Updates that count one bucket each add the number of those that count it to a bucket. -/
theorem foldl_latencyHistogram {α : Type*} {add : IoRequestCounter → α → IoRequestCounter}
    {index : α → ℤ} (hadd : ∀ counter a, (add counter a).latencyHistogram =
      countBucket counter.latencyHistogram (index a)) (l : List α) (counter : IoRequestCounter)
    (b : ℤ) : (l.foldl add counter).latencyHistogram b =
      counter.latencyHistogram b + UInt64.ofNat (l.countP fun a => index a = b) := by
  induction l generalizing counter with
  | nil => exact (UInt64.add_zero _).symm
  | cons a l ih =>
    rw [List.foldl_cons, ih, hadd, countBucket_apply, List.countP_cons, UInt64.ofNat_add,
      UInt64.add_assoc, UInt64.add_comm (UInt64.ofNat _)]
    congr 2
    by_cases h : index a = b
    · simp [h]
    · simp [h]

variable (startTime : AprTime)

/-- The histogram of a started counter with latencies. -/
theorem addLatencies_latencyHistogram (latencies : List AprTime) (b : ℤ) :
    (latencies.foldl addLatencyToHistogram (startRequestCounter startTime)).latencyHistogram b =
      UInt64.ofNat (latencies.countP fun latency => latencyBucket latency = b) := by
  rw [foldl_latencyHistogram fun _ _ => rfl]
  exact UInt64.zero_add _

theorem updateMoments_latencyHistogram (counter : IoRequestCounter)
    (reqsize totalLatency : UInt64) :
    (updateMoments counter reqsize totalLatency).latencyHistogram = counter.latencyHistogram := by
  unfold updateMoments
  dsimp only
  split <;> rfl

/-- The histogram of a started counter with requests. -/
theorem addRequests_latencyHistogram (stats : List IoRequestStat) (b : ℤ) :
    (stats.foldl addRequestToCounter (startRequestCounter startTime)).latencyHistogram b =
      UInt64.ofNat (stats.countP fun stat => latencyBin (UInt64.ofInt stat.latency) = b) := by
  have hadd (counter : IoRequestCounter) (stat : IoRequestStat) :
      (addRequestToCounter counter stat).latencyHistogram =
        countBucket counter.latencyHistogram (latencyBin (UInt64.ofInt stat.latency)) := by
    rw [addRequestToCounter, updateMoments_latencyHistogram]
  rw [foldl_latencyHistogram hadd]
  exact UInt64.zero_add _

end Counts

section Agreement

/-- The bits that `add_request_to_counter` drops behind the six of its bin. -/
def binShift (x : ℕ) : ℕ :=
  min 17 (if mantissa 6 x = 64 then exponent 6 x - 1 else exponent 6 x)

variable {x : ℕ}

/-- The loop of `add_request_to_counter` shifts once more than the bits that are dropped. -/
theorem sub_one_eq_binShift {k : ℕ} (hk : k ≤ 18) (hle : ∀ j < k, 65 ≤ x / 2 ^ j)
    (hlt : k < 18 → x / 2 ^ k < 65) : k - 1 = binShift x := by
  rw [binShift]
  by_cases hx : 65 ≤ x
  · obtain ⟨hmantissa, -, hnext⟩ := mantissa_bounds (show 64 ≤ x by omega)
    by_cases hfirst : mantissa 6 x = 64
    · have hne : exponent 6 x ≠ 0 := by
        intro he
        rw [mantissa, he, Nat.pow_zero, Nat.div_one] at hfirst
        omega
      have hbefore : 64 = x / 2 ^ (exponent 6 x - 1) / 2 := by
        rw [Nat.div_div_eq_div_mul, ← Nat.pow_succ, Nat.succ_eq_add_one, Nat.sub_add_cancel
          (Nat.pos_of_ne_zero hne)]
        exact hfirst.symm
      have hshifts : k = min 18 (exponent 6 x) :=
        shifts_eq hk hle hlt (hfirst.trans_lt (by decide)) fun _ => by omega
      rw [if_pos hfirst]
      omega
    · have hshifts : k = min 18 (exponent 6 x + 1) := by
        refine shifts_eq hk hle hlt (hnext.trans (by decide)) fun _ => ?_
        rw [Nat.add_sub_cancel]
        exact Nat.lt_of_le_of_ne hmantissa (Ne.symm hfirst)
      rw [if_neg hfirst]
      omega
  · have hsmall : x < 2 ^ (6 + 1) := (Nat.lt_of_not_le hx).trans (by decide)
    have hzero : k = 0 := by
      by_contra hne
      have hbig := hle 0 (by omega)
      rw [Nat.pow_zero, Nat.div_one] at hbig
      exact hx hbig
    simp [exponent_of_lt hsmall, hzero]

theorem toAprTime_ofInt (hx : x < 2 ^ 63) : toAprTime (UInt64.ofInt x) = x := by
  have hword : (UInt64.ofInt x).toNat = x := toNat_ofInt (by omega)
  rw [toAprTime, toInt_toInt64 (by omega), hword]

/-- The bin is made of six bits of the latency, and the number of the shifts is lost. -/
theorem latencyBin_eq (hx : x < 2 ^ 63) :
    latencyBin (UInt64.ofInt x) = (x / 2 ^ binShift x % 64 : ℕ) := by
  have hlarge (tmp : ℤ) : tmp > 64 ↔ 65 ≤ tmp.toNat := by omega
  obtain ⟨k, hk, hfirst, -, hle, hlt⟩ :=
    shiftLoop_spec hlarge toNat_shiftRight_one 18 0 (x : ℤ)
  rw [Int.toNat_natCast] at hle hlt
  rw [Nat.zero_add] at hfirst
  have hshift : (if k < 1 then k else k - 1) = k - 1 := by
    split <;> omega
  have hmask (sum : UInt64) : (sum &&& (64 - 1)).toNat = sum.toNat % 64 :=
    Nat.and_two_pow_sub_one_eq_mod _ 6
  have hword : (UInt64.ofInt x >>> UInt64.ofNat (k - 1)).toNat = x / 2 ^ (k - 1) := by
    rw [UInt64.toNat_shiftRight, UInt64.toNat_ofNat', toNat_ofInt (by omega),
      Nat.shiftRight_eq_div_pow, Nat.mod_mod_of_dvd _ (by decide),
      Nat.mod_eq_of_lt (by omega : k - 1 < 64)]
  rw [latencyBin, toAprTime_ofInt hx]
  simp only [hfirst, hshift, hmask]
  rw [UInt64.toNat_add, UInt64.toNat_ofNat', hword, ← sub_one_eq_binShift hk hle hlt]
  congr 1
  omega

/-- Below 64 both indices are the latency itself. -/
theorem latencyBin_of_lt (hx : x < 64) :
    latencyBin (UInt64.ofInt x) = x ∧ latencyBucket x = x := by
  have hexponent : exponent 6 x = 0 := exponent_of_lt (hx.trans (by decide))
  constructor
  · rw [latencyBin_eq (by omega), binShift, hexponent]
    simp [Nat.mod_eq_of_lt hx]
  · rw [latencyBucket_eq, Nat.min_eq_left (by omega), bucket_of_lt (hx.trans (by decide))]

/-- The elements of a kind and the others. -/
theorem countP_split {α : Type*} (l : List α) (p q : α → Prop) [DecidablePred p]
    [DecidablePred q] : l.countP (fun a => p a) =
      l.countP (fun a => ¬q a ∧ p a) + l.countP (fun a => q a ∧ p a) := by
  induction l with
  | nil => rfl
  | cons a l ih =>
    simp only [List.countP_cons, ih, decide_eq_true_iff]
    split_ifs <;> first | omega | tauto

/-- A word counts to 0 exactly after multiples of its size. -/
theorem ofNat_eq_zero_iff {n : ℕ} : UInt64.ofNat n = 0 ↔ 2 ^ 64 ∣ n := by
  rw [← UInt64.toNat_inj, UInt64.toNat_ofNat', UInt64.toNat_zero, Nat.dvd_iff_mod_eq_zero]

/-- The number of the latencies of at least 64 microseconds in a class. -/
def largeCount (stats : List IoRequestStat) (index : ℕ → ℕ) (b : ℤ) : ℕ :=
  stats.countP fun stat => 64 ≤ stat.latency ∧ (index stat.latency.toNat : ℤ) = b

/-- The histogram of `add_request_to_counter` is that of `add_latency_to_histogram`. -/
def HistogramsAgree (startTime : AprTime) (stats : List IoRequestStat) : Prop :=
  (stats.foldl addRequestToCounter (startRequestCounter startTime)).latencyHistogram =
    ((stats.map IoRequestStat.latency).foldl addLatencyToHistogram
      (startRequestCounter startTime)).latencyHistogram

/-- The six bits of a latency that are left. -/
def droppedBin (x : ℕ) : ℕ := x / 2 ^ binShift x % 64

/-- The bucket of a latency, cut off at the last one. -/
def logBucket (x : ℕ) : ℕ := bucket 6 (min x (2 ^ 23 - 1))

variable {startTime : AprTime} {stats : List IoRequestStat}

/-- The histograms agree when the large latencies are counted to 0 in both. -/
theorem histogramsAgree_iff_largeCount
    (hstats : ∀ stat ∈ stats, 0 ≤ stat.latency ∧ stat.latency < 2 ^ 63) :
    HistogramsAgree startTime stats ↔ ∀ b,
      UInt64.ofNat (largeCount stats droppedBin b) =
        UInt64.ofNat (largeCount stats logBucket b) := by
  have hnat : ∀ stat ∈ stats, ∃ x : ℕ, stat.latency = x ∧ x < 2 ^ 63 := by
    intro stat hstat
    obtain ⟨hle, hlt⟩ := hstats stat hstat
    exact ⟨stat.latency.toNat, (Int.toNat_of_nonneg hle).symm, (Int.toNat_lt hle).mpr hlt⟩
  rw [HistogramsAgree, funext_iff]
  refine forall_congr' fun b => ?_
  have hbin : stats.countP (fun stat => 64 ≤ stat.latency ∧
      latencyBin (UInt64.ofInt stat.latency) = b) = largeCount stats droppedBin b := by
    refine List.countP_congr fun stat hstat => ?_
    obtain ⟨x, hx, hlt⟩ := hnat stat hstat
    rw [hx, latencyBin_eq hlt, Int.toNat_natCast]
    rfl
  have hbucket : stats.countP (fun stat => 64 ≤ stat.latency ∧ latencyBucket stat.latency = b) =
      largeCount stats logBucket b := by
    refine List.countP_congr fun stat hstat => ?_
    obtain ⟨x, hx, -⟩ := hnat stat hstat
    rw [hx, latencyBucket_eq, Int.toNat_natCast]
    rfl
  have hsmall : stats.countP (fun stat => ¬64 ≤ stat.latency ∧
      latencyBin (UInt64.ofInt stat.latency) = b) =
        stats.countP fun stat => ¬64 ≤ stat.latency ∧ latencyBucket stat.latency = b := by
    refine List.countP_congr fun stat hstat => ?_
    obtain ⟨x, hx, -⟩ := hnat stat hstat
    rw [hx, decide_eq_true_iff, decide_eq_true_iff]
    refine and_congr_right fun (hlt : ¬(64 : ℤ) ≤ x) => ?_
    obtain ⟨hbin, hbucket⟩ := latencyBin_of_lt (show x < 64 by omega)
    rw [hbin, hbucket]
  rw [addRequests_latencyHistogram, addLatencies_latencyHistogram, List.countP_map,
    countP_split stats _ fun stat => 64 ≤ stat.latency, hsmall, hbin]
  simp only [Function.comp_def]
  rw [countP_split stats (fun stat => latencyBucket stat.latency = b) fun stat => 64 ≤ stat.latency,
    hbucket, UInt64.ofNat_add, UInt64.ofNat_add, UInt64.add_right_inj]

theorem largeCount_eq_zero {index : ℕ → ℕ} {b : ℤ}
    (h : ∀ stat ∈ stats, 64 ≤ stat.latency → (index stat.latency.toNat : ℤ) ≠ b) :
    largeCount stats index b = 0 := by
  rw [largeCount, List.countP_eq_zero]
  intro stat hstat
  rw [decide_eq_true_iff]
  exact fun hmem => h stat hstat hmem.1 hmem.2

theorem largeCount_droppedBin {b : ℤ} (hb : b < 0 ∨ 64 ≤ b) :
    largeCount stats droppedBin b = 0 := by
  refine largeCount_eq_zero fun stat _ _ => ?_
  rw [droppedBin]
  omega

theorem largeCount_logBucket {b : ℤ} (hb : b < 64) : largeCount stats logBucket b = 0 := by
  refine largeCount_eq_zero fun stat _ (hlatency : (64 : ℤ) ≤ stat.latency) => ?_
  have hle : 64 ≤ stat.latency.toNat := (Int.le_toNat (by omega)).mpr hlatency
  have hmono := bucket_monotone 6 (show 64 ≤ min stat.latency.toNat (2 ^ 23 - 1) by omega)
  rw [bucket_of_lt (by decide : 64 < 2 ^ (6 + 1))] at hmono
  rw [logBucket]
  omega

/-- The classes of the two histograms meet nowhere, so both counts are 0. -/
theorem largeCount_eq_iff :
    (∀ b, UInt64.ofNat (largeCount stats droppedBin b) =
      UInt64.ofNat (largeCount stats logBucket b)) ↔
    ∀ b : ℕ, 2 ^ 64 ∣ largeCount stats droppedBin b ∧ 2 ^ 64 ∣ largeCount stats logBucket b := by
  constructor
  · intro h b
    obtain hlow | hhigh := Nat.lt_or_ge b 64
    · have hbucket := @largeCount_logBucket stats b (by omega)
      have heq := h b
      rw [hbucket] at heq ⊢
      exact ⟨ofNat_eq_zero_iff.mp heq, Nat.dvd_zero _⟩
    · have hbin := @largeCount_droppedBin stats b (by omega)
      have heq := h b
      rw [hbin] at heq ⊢
      exact ⟨Nat.dvd_zero _, ofNat_eq_zero_iff.mp heq.symm⟩
  · intro h b
    obtain hneg | hpos := Int.lt_or_le b 0
    · rw [largeCount_droppedBin (Or.inl hneg), largeCount_logBucket (by omega)]
    · obtain ⟨hbin, hbucket⟩ := h b.toNat
      rw [Int.toNat_of_nonneg hpos] at hbin hbucket
      rw [ofNat_eq_zero_iff.mpr hbin, ofNat_eq_zero_iff.mpr hbucket]

/-- Counts below the size of a word are 0 only without large latencies. -/
theorem forall_dvd_largeCount_iff (hlength : stats.length < 2 ^ 64) :
    (∀ b : ℕ, 2 ^ 64 ∣ largeCount stats droppedBin b ∧ 2 ^ 64 ∣ largeCount stats logBucket b) ↔
      ∀ stat ∈ stats, stat.latency < 64 := by
  constructor
  · intro h stat hstat
    by_contra hlarge
    obtain ⟨hdvd, -⟩ := h (droppedBin stat.latency.toNat)
    have hcount : largeCount stats droppedBin (droppedBin stat.latency.toNat) < 2 ^ 64 :=
      List.countP_le_length.trans_lt hlength
    have hzero := Nat.eq_zero_of_dvd_of_lt hdvd hcount
    rw [largeCount, List.countP_eq_zero] at hzero
    exact hzero stat hstat (decide_eq_true ⟨not_lt.mp hlarge, rfl⟩)
  · intro h b
    have hzero (index : ℕ → ℕ) : largeCount stats index b = 0 :=
      largeCount_eq_zero fun stat hstat hlarge => absurd (h stat hstat) (not_lt.mpr hlarge)
    rw [hzero, hzero]
    exact ⟨Nat.dvd_zero _, Nat.dvd_zero _⟩

/-- **The two updates of the histogram agree up to 63 microseconds.** From 64 on a latency is
counted in a bin below 64 by one of them, and in a bucket above by the other. The counts are words,
and the histograms are equal again only when all of these counts have come back to 0. -/
theorem addRequest_histogram_iff (startTime : AprTime) {stats : List IoRequestStat}
    (hstats : ∀ stat ∈ stats, 0 ≤ stat.latency ∧ stat.latency < 2 ^ 63) :
    (HistogramsAgree startTime stats ↔ ∀ b : ℕ,
      2 ^ 64 ∣ largeCount stats droppedBin b ∧ 2 ^ 64 ∣ largeCount stats logBucket b) ∧
    (stats.length < 2 ^ 64 →
      (HistogramsAgree startTime stats ↔ ∀ stat ∈ stats, stat.latency < 64)) := by
  have hdvd := (@histogramsAgree_iff_largeCount startTime stats hstats).trans largeCount_eq_iff
  exact ⟨hdvd, fun hlength => hdvd.trans (forall_dvd_largeCount_iff hlength)⟩

/-- Two requests of 63 and 64 microseconds. -/
def fastRequests : List IoRequestStat := [⟨4096, 100, 163⟩, ⟨4096, 200, 264⟩]

theorem addRequest_histogram_fast :
    ¬HistogramsAgree 0 fastRequests ∧ HistogramsAgree 0 [⟨4096, 100, 163⟩] := by
  have hstats : ∀ stat ∈ fastRequests, 0 ≤ stat.latency ∧ stat.latency < 2 ^ 63 := by
    simp [fastRequests, IoRequestStat.latency]
  have hstats' : ∀ stat ∈ [IoRequestStat.mk 4096 100 163],
      0 ≤ stat.latency ∧ stat.latency < 2 ^ 63 := by
    simp [IoRequestStat.latency]
  constructor
  · rw [(addRequest_histogram_iff 0 hstats).2 (by decide)]
    simp [fastRequests, IoRequestStat.latency]
  · rw [(addRequest_histogram_iff 0 hstats').2 (by decide)]
    simp [IoRequestStat.latency]

/-- A request of 64 microseconds is counted with those of 0. -/
theorem slow_request_counted_as_fast :
    ¬HistogramsAgree 0 [⟨4096, 0, 64⟩] ∧
      (addRequestToCounter (startRequestCounter 0) ⟨4096, 0, 64⟩).latencyHistogram 0 = 1 ∧
      (addLatencyToHistogram (startRequestCounter 0) 64).latencyHistogram 0 = 0 ∧
      (addLatencyToHistogram (startRequestCounter 0) 64).latencyHistogram 64 = 1 := by
  have hbin :
      (addRequestToCounter (startRequestCounter 0) ⟨4096, 0, 64⟩).latencyHistogram 0 = 1 := by
    decide
  have hbucket : (addLatencyToHistogram (startRequestCounter 0) 64).latencyHistogram 0 = 0 := by
    decide
  refine ⟨fun h => ?_, hbin, hbucket, by decide⟩
  have heq : (1 : UInt64) = 0 := hbin.symm.trans ((congrFun h 0).trans hbucket)
  exact absurd heq (by decide)

end Agreement

end DiskBench
