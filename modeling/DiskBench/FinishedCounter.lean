import Mathlib.Algebra.BigOperators.Ring.Finset
import DiskBench.Foundations.Deviations
import DiskBench.RequestCounter
import DiskBench.Statistics

/-!
# Finished counters

`finish_request_counter` of `diskBenchStat.c`, and what the requests have left in the counter by
then. The mean and the squared deviations are kept request by request; at the end the mean is
computed again from the total latency, which is an `apr_time_t`.
-/

namespace DiskBench

open Deviations

/-- The fields of `struct io_request_counter` that are computed on finish. A quotient of doubles
has no value when its divisor is 0. -/
structure FinishedCounter extends IoRequestCounter where
  sampleTime : AprTime
  endTime : AprTime
  wallElapsed : AprTime
  bytesPerIo : Option ℚ
  bytesPerSecond : Option ℚ
  iops : Option ℚ
  maxActive : Int32
  weight : ℚ
  weightedBytesPerSecond : Option ℚ

/-- A quotient of doubles. -/
def quotient (x y : ℚ) : Option ℚ := if y = 0 then none else some (x / y)

/-- `finish_request_counter`. The fields that nothing has assigned are still cleared, `end_time`
among them. -/
def finishRequestCounter (workload : IoWorkload) (counter : IoRequestCounter) : FinishedCounter :=
  let finished : FinishedCounter :=
    { counter with
      sampleTime := workload.endTime
      endTime := 0
      wallElapsed := workload.endTime - counter.startTime
      bytesPerIo := some 0
      bytesPerSecond := some 0
      iops := some 0
      maxActive := 0
      weight := 0
      weightedBytesPerSecond := some 0 }
  let finished :=
    if counter.requests > 1 then
      { finished with
        varianceLatency := counter.m2Latency / (counter.requests - 1).toNat
        meanLatency := counter.totalLatency / counter.requests.toNat }
    else finished
  if counter.requests > 0 then
    let elapsed : ℚ := finished.endTime - counter.startTime
    { finished with
      bytesPerIo := quotient counter.bytes.toNat counter.requests.toNat
      bytesPerSecond := (quotient counter.bytes.toNat elapsed).map (· * 1000000)
      iops := (quotient counter.requests.toNat elapsed).map (· * 1000000)
      maxActive := workload.maxActive }
  else finished

/-- The counter of a workload with its requests. -/
def requestCounter (workload : IoWorkload) (stats : List IoRequestStat) : IoRequestCounter :=
  stats.foldl addRequestToCounter (startRequestCounter workload.startTime)

/-- The same when it is finished. -/
def finishedCounter (workload : IoWorkload) (stats : List IoRequestStat) : FinishedCounter :=
  finishRequestCounter workload (requestCounter workload stats)

/-- The latency as `add_request_to_counter` has it, without a sign. -/
def IoRequestStat.word (stat : IoRequestStat) : ℕ := (UInt64.ofInt stat.latency).toNat

/-- The latencies of requests, without a sign. -/
def latencyWords (stats : List IoRequestStat) : List ℕ := stats.map IoRequestStat.word

/-- The same in exact arithmetic. -/
def latencyValues (stats : List IoRequestStat) : List ℚ :=
  (latencyWords stats).map fun word : ℕ => (word : ℚ)

/-- A number as an `apr_time_t`. -/
def signed (n : ℕ) : AprTime := toAprTime (UInt64.ofNat n)

/-- What a counter holds of its requests. -/
structure IoRequestCounter.Counts (counter : IoRequestCounter) (stats : List IoRequestStat) :
    Prop where
  requests : counter.requests = UInt64.ofNat stats.length
  bytes : counter.bytes = UInt64.ofNat (stats.map fun stat => stat.reqsize.toNat).sum
  totalLatency : counter.totalLatency = signed (latencyWords stats).sum
  minLatency : ∃ m, counter.minLatency = signed m ∧ IsLeast {x | x ∈ latencyWords stats} m
  maxLatency : ∃ m, counter.maxLatency = signed m ∧ IsGreatest {x | x ∈ latencyWords stats} m
  meanLatency : counter.meanLatency = mean (latencyValues stats)
  m2Latency : counter.m2Latency = squares (latencyValues stats)

section Words

variable {stats : List IoRequestStat} {stat : IoRequestStat}

theorem toAprTime_eq_bmod (x : UInt64) : toAprTime x = (x.toNat : ℤ).bmod (2 ^ 64) :=
  BitVec.toInt_eq_toNat_bmod x.toBitVec

/-- A word goes to `apr_time_t` and back. -/
theorem ofInt_toAprTime (x : UInt64) : UInt64.ofInt (toAprTime x) = x := by
  have hlt := x.toNat_lt
  have hmod : (x.toNat : ℤ).bmod (2 ^ 64) % 2 ^ 64 = x.toNat := by
    rw [show (2 ^ 64 : ℤ) = (2 ^ 64 : ℕ) by rfl, Int.bmod_emod]
    omega
  rw [toAprTime_eq_bmod, ← UInt64.toNat_inj, UInt64.ofInt, UInt64.toNat_ofNat', hmod]
  omega

theorem ofInt_signed (n : ℕ) : UInt64.ofInt (signed n) = UInt64.ofNat n := ofInt_toAprTime _

theorem IoRequestStat.word_lt (stat : IoRequestStat) : stat.word < 2 ^ 64 :=
  (UInt64.ofInt stat.latency).toNat_lt

theorem IoRequestStat.ofNat_word (stat : IoRequestStat) :
    UInt64.ofNat stat.word = UInt64.ofInt stat.latency :=
  UInt64.ofNat_toNat

theorem latencyWords_concat :
    latencyWords (stats ++ [stat]) = latencyWords stats ++ [stat.word] :=
  List.map_append

theorem latencyValues_concat :
    latencyValues (stats ++ [stat]) = latencyValues stats ++ [(stat.word : ℚ)] := by
  rw [latencyValues, latencyWords_concat, List.map_append]
  rfl

theorem mem_latencyWords_concat :
    {x | x ∈ latencyWords (stats ++ [stat])} = insert stat.word {x | x ∈ latencyWords stats} := by
  ext x
  rw [latencyWords_concat, Set.mem_ofPred_eq, Set.mem_insert_iff, Set.mem_ofPred_eq,
    List.mem_append, List.mem_singleton]
  exact or_comm

theorem lt_two_pow_of_mem {n : ℕ} (h : n ∈ latencyWords stats) : n < 2 ^ 64 := by
  obtain ⟨stat, -, rfl⟩ := List.mem_map.mp h
  exact stat.word_lt

end Words

section Requests

variable {counter : IoRequestCounter} {stats : List IoRequestStat}

/-- The counter after the first request. -/
theorem counts_singleton (startTime : AprTime) (stat : IoRequestStat) :
    (addRequestToCounter (startRequestCounter startTime) stat).Counts [stat] := by
  have hadd : addRequestToCounter (startRequestCounter startTime) stat =
      { startRequestCounter startTime with
        requests := 1
        minLatency := signed stat.word
        maxLatency := signed stat.word
        meanLatency := stat.word
        totalLatency := signed stat.word
        bytes := stat.reqsize
        latencyHistogram :=
          countBucket (fun _ => 0) (latencyBin (UInt64.ofInt stat.latency)) } := by
    rw [signed, stat.ofNat_word]
    rfl
  have hword : latencyWords [stat] = [stat.word] := rfl
  have hvalue : latencyValues [stat] = [(stat.word : ℚ)] := rfl
  rw [hadd]
  refine ⟨rfl, ?_, ?_, ⟨stat.word, rfl, ?_⟩, ⟨stat.word, rfl, ?_⟩, ?_, ?_⟩
  · simp
  · simp [hword]
  · simp [hword, IsLeast, lowerBounds]
  · simp [hword, IsGreatest, upperBounds]
  · simp [hvalue, mean]
  · simp [hvalue, mean, squares, startRequestCounter]

theorem ofNat_lt_ofNat_iff {m n : ℕ} (hm : m < 2 ^ 64) (hn : n < 2 ^ 64) :
    UInt64.ofNat m < UInt64.ofNat n ↔ m < n := by
  rw [UInt64.lt_iff_toNat_lt, UInt64.toNat_ofNat_of_lt' hm, UInt64.toNat_ofNat_of_lt' hn]

/-- The least latency with one more, as the comparison of words finds it. -/
theorem least_concat {m : ℕ} (hm : IsLeast {x | x ∈ latencyWords stats} m) (stat : IoRequestStat) :
    ∃ n, (if UInt64.ofInt stat.latency < UInt64.ofInt (signed m) then
        toAprTime (UInt64.ofInt stat.latency) else signed m) = signed n ∧
      IsLeast {x | x ∈ latencyWords (stats ++ [stat])} n := by
  have hiff := ofNat_lt_ofNat_iff stat.word_lt (lt_two_pow_of_mem hm.1)
  refine ⟨min stat.word m, ?_, mem_latencyWords_concat ▸ hm.insert stat.word⟩
  rw [ofInt_signed, ← stat.ofNat_word]
  split
  · rename_i hlt
    rw [min_eq_left (hiff.mp hlt).le, signed]
  · rename_i hnot
    rw [min_eq_right (not_lt.mp (mt hiff.mpr hnot))]

/-- The same for the greatest one. -/
theorem greatest_concat {m : ℕ} (hm : IsGreatest {x | x ∈ latencyWords stats} m)
    (stat : IoRequestStat) :
    ∃ n, (if UInt64.ofInt stat.latency > UInt64.ofInt (signed m) then
        toAprTime (UInt64.ofInt stat.latency) else signed m) = signed n ∧
      IsGreatest {x | x ∈ latencyWords (stats ++ [stat])} n := by
  have hiff := ofNat_lt_ofNat_iff (lt_two_pow_of_mem hm.1) stat.word_lt
  refine ⟨max stat.word m, ?_, mem_latencyWords_concat ▸ hm.insert stat.word⟩
  rw [ofInt_signed, ← stat.ofNat_word]
  split
  · rename_i hlt
    rw [max_eq_left (hiff.mp hlt).le, signed]
  · rename_i hnot
    rw [max_eq_right (not_lt.mp (mt hiff.mpr hnot))]

/-- The counter after one more request. -/
theorem IoRequestCounter.Counts.add (h : counter.Counts stats) (hne : stats ≠ [])
    (hlength : stats.length + 1 < 2 ^ 64) (stat : IoRequestStat) :
    (addRequestToCounter counter stat).Counts (stats ++ [stat]) := by
  have hpos := List.length_pos_iff.mpr hne
  have hrequests : counter.requests + 1 = UInt64.ofNat (stats.length + 1) := by
    rw [h.requests, UInt64.ofNat_add]
    rfl
  have hcount : (counter.requests + 1).toNat = stats.length + 1 := by
    rw [hrequests, UInt64.toNat_ofNat_of_lt' hlength]
  have hlater : counter.requests + 1 ≠ 1 := by
    intro heq
    rw [heq] at hcount
    exact absurd hcount.symm (by simpa using hpos.ne')
  have hvalues : latencyValues stats ≠ [] := by
    simp [latencyValues, latencyWords, hne]
  have hlength' : ((latencyValues stats).length : ℚ) = stats.length := by
    simp [latencyValues, latencyWords]
  have hmean : counter.meanLatency + (stat.word - counter.meanLatency) /
      (counter.requests + 1).toNat = mean (latencyValues (stats ++ [stat])) := by
    rw [latencyValues_concat, mean_concat hvalues, hlength', h.meanLatency, hcount, Nat.cast_add,
      Nat.cast_one]
  obtain ⟨m, hm, hleast⟩ := h.minLatency
  obtain ⟨n, hn, hgreatest⟩ := h.maxLatency
  simp only [addRequestToCounter, updateMoments, if_neg hlater]
  refine ⟨?_, ?_, ?_, ?_, ?_, hmean, ?_⟩
  · rw [hrequests, List.length_append, List.length_singleton]
  · rw [h.bytes, List.map_append, List.sum_append, UInt64.ofNat_add]
    simp
  · rw [h.totalLatency, ofInt_signed, latencyWords_concat, List.sum_append, signed,
      UInt64.ofNat_add, ← stat.ofNat_word]
    simp
  · rw [hm]
    exact least_concat hleast stat
  · rw [hn]
    exact greatest_concat hgreatest stat
  · rw [latencyValues_concat, squares_concat hvalues, ← latencyValues_concat, ← hmean,
      ← h.m2Latency, ← h.meanLatency]
    rfl

/-- The counter of a list of requests that it can count. -/
theorem requestCounter_counts (workload : IoWorkload) (hne : stats ≠ [])
    (hlength : stats.length < 2 ^ 64) : (requestCounter workload stats).Counts stats := by
  induction stats using List.reverseRecOn with
  | nil => exact absurd rfl hne
  | append_singleton stats stat ih =>
    rw [List.length_append, List.length_singleton] at hlength
    rw [requestCounter, List.foldl_append, List.foldl_cons, List.foldl_nil]
    by_cases hstats : stats = []
    · subst hstats
      exact counts_singleton workload.startTime stat
    · exact (ih hstats (by omega)).add hstats hlength stat

end Requests

section Finish

variable {counter : IoRequestCounter} {workload : IoWorkload} {stats : List IoRequestStat}

/-- What a finished counter holds of its requests. -/
structure FinishedCounter.Counts (counter : FinishedCounter) (stats : List IoRequestStat) :
    Prop where
  requests : counter.requests = UInt64.ofNat stats.length
  bytes : counter.bytes = UInt64.ofNat (stats.map fun stat => stat.reqsize.toNat).sum
  totalLatency : counter.totalLatency = signed (latencyWords stats).sum
  minLatency : ∃ m, counter.minLatency = signed m ∧ IsLeast {x | x ∈ latencyWords stats} m
  maxLatency : ∃ m, counter.maxLatency = signed m ∧ IsGreatest {x | x ∈ latencyWords stats} m
  meanLatency : counter.meanLatency = signed (latencyWords stats).sum / (stats.length : ℚ)
  m2Latency : counter.m2Latency = squares (latencyValues stats)
  varianceLatency :
    counter.varianceLatency = squares (latencyValues stats) / ((stats.length : ℚ) - 1)
  latencyHistogram : ∀ b, counter.latencyHistogram b =
    UInt64.ofNat (stats.countP fun stat => latencyBin (UInt64.ofInt stat.latency) = b)

/-- The fields of a counter of several requests after its finish. -/
theorem finishRequestCounter_of_lt (h : 1 < counter.requests) :
    ∃ finished : FinishedCounter, finishRequestCounter workload counter = finished ∧
      finished.toIoRequestCounter = { counter with
        varianceLatency := counter.m2Latency / (counter.requests - 1).toNat
        meanLatency := counter.totalLatency / counter.requests.toNat } := by
  have hpos : counter.requests > 0 := UInt64.lt_trans (by decide) h
  refine ⟨_, rfl, ?_⟩
  simp only [finishRequestCounter, if_pos h, if_pos hpos]

/-- The finished counter of a list of requests that it can count. -/
theorem finishedCounter_counts (workload : IoWorkload) (h : 2 ≤ stats.length)
    (hlength : stats.length < 2 ^ 64) : (finishedCounter workload stats).Counts stats := by
  have hne : stats ≠ [] := List.length_pos_iff.mp (by omega)
  obtain ⟨hrequests, hbytes, htotal, ⟨m, hmin, hleast⟩, ⟨n, hmax, hgreatest⟩, -, hm2⟩ :=
    requestCounter_counts workload hne hlength
  have hcount : (requestCounter workload stats).requests.toNat = stats.length := by
    rw [hrequests, UInt64.toNat_ofNat_of_lt' hlength]
  have hseveral : 1 < (requestCounter workload stats).requests := by
    rw [UInt64.lt_iff_toNat_lt, hcount]
    exact h
  have hless : ((requestCounter workload stats).requests - 1).toNat = stats.length - 1 := by
    rw [UInt64.toNat_sub_of_le _ _ (UInt64.le_of_lt hseveral), hcount]
    rfl
  obtain ⟨finished, hfinished, hfields⟩ := @finishRequestCounter_of_lt _ workload hseveral
  rw [hless, hcount, htotal, hm2, Nat.cast_sub (by omega), Nat.cast_one] at hfields
  rw [finishedCounter, hfinished]
  exact {
    requests := (congrArg IoRequestCounter.requests hfields).trans hrequests
    bytes := (congrArg IoRequestCounter.bytes hfields).trans hbytes
    totalLatency := congrArg IoRequestCounter.totalLatency hfields
    minLatency := ⟨m, (congrArg IoRequestCounter.minLatency hfields).trans hmin, hleast⟩
    maxLatency := ⟨n, (congrArg IoRequestCounter.maxLatency hfields).trans hmax, hgreatest⟩
    meanLatency := congrArg IoRequestCounter.meanLatency hfields
    m2Latency := congrArg IoRequestCounter.m2Latency hfields
    varianceLatency := congrArg IoRequestCounter.varianceLatency hfields
    latencyHistogram := fun b =>
      (congrFun (congrArg IoRequestCounter.latencyHistogram hfields) b).trans
        (addRequests_latencyHistogram workload.startTime stats b) }

end Finish

section Sample

/-- The latencies of requests in exact arithmetic. -/
def exactLatencies (stats : List IoRequestStat) : List ℚ :=
  stats.map fun stat => (stat.latency : ℚ)

/-- The mean, the squared deviations and the variance of a counter are those of a sample. -/
structure FinishedCounter.Describes (counter : FinishedCounter) (sample : List ℚ) : Prop where
  meanLatency : counter.meanLatency = mean sample
  m2Latency : counter.m2Latency = squares sample
  varianceLatency : counter.varianceLatency = squares sample / (sample.length - 1)

variable {workload : IoWorkload} {stats stats' : List IoRequestStat}

/-- An `apr_time_t` is a word with a sign. -/
theorem exists_signed_eq (n : ℕ) :
    ∃ x : ℤ, signed n = x ∧ (-2 ^ 63 ≤ x ∧ x < 2 ^ 63) ∧ x % 2 ^ 64 = n % 2 ^ 64 := by
  refine ⟨(n : ℤ).bmod (2 ^ 64), ?_, ⟨?_, ?_⟩, Int.bmod_emod⟩
  · rw [signed, toAprTime_eq_bmod, UInt64.toNat_ofNat', Int.natCast_emod, Int.emod_bmod]
  · exact Int.le_bmod (by decide)
  · exact Int.bmod_lt (by decide)

/-- A number keeps its value as an `apr_time_t` exactly below `2 ^ 63`. -/
theorem signed_eq_iff {n : ℕ} : signed n = n ↔ n < 2 ^ 63 := by
  obtain ⟨x, hx, hbounds, hmod⟩ := exists_signed_eq n
  rw [hx]
  change x = (n : ℤ) ↔ n < 2 ^ 63
  omega

theorem word_eq_latency {stat : IoRequestStat} (h : 0 ≤ stat.latency ∧ stat.latency < 2 ^ 63) :
    (stat.word : ℤ) = stat.latency := by
  obtain ⟨x, hx⟩ := Int.eq_ofNat_of_zero_le h.1
  have hlt : (x : ℤ) < 2 ^ 63 := hx ▸ h.2
  rw [IoRequestStat.word, hx]
  exact congrArg Nat.cast (toNat_ofInt (by omega))

/-- Latencies that are not negative are their words. -/
theorem latencyValues_eq (h : ∀ stat ∈ stats, 0 ≤ stat.latency ∧ stat.latency < 2 ^ 63) :
    latencyValues stats = exactLatencies stats := by
  rw [latencyValues, latencyWords, exactLatencies, List.map_map]
  refine List.map_congr_left fun stat hstat => ?_
  rw [← word_eq_latency (h stat hstat)]
  rfl

theorem sum_latencyWords (h : ∀ stat ∈ stats, 0 ≤ stat.latency ∧ stat.latency < 2 ^ 63) :
    ((latencyWords stats).sum : ℤ) = (stats.map IoRequestStat.latency).sum := by
  rw [Nat.cast_list_sum, latencyWords, List.map_map]
  exact congrArg List.sum (List.map_congr_left fun stat hstat => word_eq_latency (h stat hstat))

theorem sum_exactLatencies :
    (exactLatencies stats).sum = ((stats.map IoRequestStat.latency).sum : ℤ) := by
  rw [Int.cast_list_sum, List.map_map]
  rfl

theorem latencyValues_perm (h : stats.Perm stats') :
    (latencyValues stats).Perm (latencyValues stats') :=
  (h.map _).map _

/-- The mean, the squared deviations and the variance do not depend on the order. -/
theorem finishedCounter_perm (workload : IoWorkload) (h : 2 ≤ stats.length)
    (hlength : stats.length < 2 ^ 64) (hperm : stats.Perm stats') :
    (finishedCounter workload stats').meanLatency = (finishedCounter workload stats).meanLatency ∧
      (finishedCounter workload stats').m2Latency = (finishedCounter workload stats).m2Latency ∧
      (finishedCounter workload stats').varianceLatency =
        (finishedCounter workload stats).varianceLatency := by
  have hcounts := finishedCounter_counts workload h hlength
  have hcounts' : (finishedCounter workload stats').Counts stats' :=
    finishedCounter_counts workload (hperm.length_eq ▸ h) (hperm.length_eq ▸ hlength)
  have hsum : (latencyWords stats').sum = (latencyWords stats).sum := (hperm.symm.map _).sum_eq
  have hsquares : squares (latencyValues stats') = squares (latencyValues stats) :=
    squares_perm (latencyValues_perm hperm.symm)
  refine ⟨?_, ?_, ?_⟩
  · rw [hcounts.meanLatency, hcounts'.meanLatency, hsum, hperm.length_eq]
  · rw [hcounts.m2Latency, hcounts'.m2Latency, hsquares]
  · rw [hcounts.varianceLatency, hcounts'.varianceLatency, hsquares, hperm.length_eq]

/-- The mean is that of the latencies as long as their total is an `apr_time_t`. -/
theorem finishedCounter_mean_iff (h : 2 ≤ stats.length) (hlength : stats.length < 2 ^ 64)
    (hstats : ∀ stat ∈ stats, 0 ≤ stat.latency ∧ stat.latency < 2 ^ 63) :
    (finishedCounter workload stats).meanLatency = mean (exactLatencies stats) ↔
      (stats.map IoRequestStat.latency).sum < 2 ^ 63 := by
  have hcount : (exactLatencies stats).length = stats.length := List.length_map _
  have hne : (stats.length : ℚ) ≠ 0 := by
    rw [Nat.cast_ne_zero]
    omega
  rw [(finishedCounter_counts workload h hlength).meanLatency, mean, hcount, div_left_inj' hne,
    sum_exactLatencies, ← sum_latencyWords hstats, Int.cast_inj, signed_eq_iff]
  exact_mod_cast Iff.rfl

/-- **The online variance is the sample variance.** The mean is that of the latencies as long as
their total is an `apr_time_t`, and none of the three depends on the order of the requests. -/
theorem finishedCounter_moments (workload : IoWorkload) {stats : List IoRequestStat}
    (h : 2 ≤ stats.length) (hlength : stats.length < 2 ^ 64)
    (hstats : ∀ stat ∈ stats, 0 ≤ stat.latency ∧ stat.latency < 2 ^ 63) :
    ((finishedCounter workload stats).m2Latency = squares (exactLatencies stats) ∧
      (finishedCounter workload stats).varianceLatency =
        squares (exactLatencies stats) / ((exactLatencies stats).length - 1)) ∧
    ((finishedCounter workload stats).meanLatency = mean (exactLatencies stats) ↔
      (stats.map IoRequestStat.latency).sum < 2 ^ 63) ∧
    ∀ stats', stats.Perm stats' →
      (finishedCounter workload stats').meanLatency = (finishedCounter workload stats).meanLatency ∧
      (finishedCounter workload stats').m2Latency = (finishedCounter workload stats).m2Latency ∧
      (finishedCounter workload stats').varianceLatency =
        (finishedCounter workload stats).varianceLatency := by
  have hcounts := finishedCounter_counts workload h hlength
  have hcount : (exactLatencies stats).length = stats.length := List.length_map _
  refine ⟨⟨?_, ?_⟩, finishedCounter_mean_iff h hlength hstats,
    fun stats' hperm => finishedCounter_perm workload h hlength hperm⟩
  · rw [hcounts.m2Latency, latencyValues_eq hstats]
  · rw [hcounts.varianceLatency, latencyValues_eq hstats, hcount]

/-- A workload that has run for a second. -/
def oneSecond : IoWorkload := ⟨0, .zero, .zero, 5000000, 6000000, 1, 1⟩

/-- Three requests of 100, 300 and 200 microseconds. -/
theorem finishedCounter_moments_three :
    (finishedCounter oneSecond [⟨512, 0, 100⟩, ⟨512, 0, 300⟩, ⟨512, 0, 200⟩]).Describes
      [100, 300, 200] := by
  obtain ⟨⟨hm2, hvariance⟩, hmean, -⟩ := @finishedCounter_moments oneSecond
    [⟨512, 0, 100⟩, ⟨512, 0, 300⟩, ⟨512, 0, 200⟩] (by decide) (by decide)
    (by simp [IoRequestStat.latency])
  have hlatencies :
      exactLatencies [⟨512, 0, 100⟩, ⟨512, 0, 300⟩, ⟨512, 0, 200⟩] = [100, 300, 200] := by
    simp [exactLatencies, IoRequestStat.latency]
  rw [hlatencies] at hm2 hvariance hmean
  exact ⟨hmean.mpr (by decide), hm2, hvariance⟩

/-- A counter is finished without a variance when its number of requests has come back to 0. -/
theorem varianceLatency_of_requests_eq_zero {counter : IoRequestCounter}
    (h : counter.requests = 0) :
    (finishRequestCounter workload counter).varianceLatency = counter.varianceLatency := by
  have hnot : ¬counter.requests > 1 := by
    rw [h]
    decide
  have hnot' : ¬counter.requests > 0 := by
    rw [h]
    decide
  simp only [finishRequestCounter, if_neg hnot, if_neg hnot']

theorem updateMoments_requests (counter : IoRequestCounter) (reqsize totalLatency : UInt64) :
    (updateMoments counter reqsize totalLatency).requests = counter.requests + 1 ∧
      (updateMoments counter reqsize totalLatency).varianceLatency = counter.varianceLatency := by
  unfold updateMoments
  dsimp only
  split <;> exact ⟨rfl, rfl⟩

/-- Any number of requests is counted in a word, and the variance is left. -/
theorem requestCounter_requests (workload : IoWorkload) (stats : List IoRequestStat) :
    (requestCounter workload stats).requests = UInt64.ofNat stats.length ∧
      (requestCounter workload stats).varianceLatency = 0 := by
  induction stats using List.reverseRecOn with
  | nil => exact ⟨rfl, rfl⟩
  | append_singleton stats stat ih =>
    obtain ⟨hrequests, hvariance⟩ := updateMoments_requests (requestCounter workload stats)
      stat.reqsize (UInt64.ofInt stat.latency)
    rw [ih.1] at hrequests
    rw [ih.2] at hvariance
    rw [requestCounter, List.foldl_append, List.foldl_cons, List.foldl_nil, List.length_append,
      List.length_singleton, UInt64.ofNat_add]
    exact ⟨hrequests, hvariance⟩

/-- After a multiple of `2 ^ 64` requests that are not all alike there is no variance. -/
theorem not_describes_of_dvd {n : ℕ} (hdvd : 2 ^ 64 ∣ n + 1) :
    ¬(finishedCounter workload (⟨512, 0, 1⟩ :: List.replicate n ⟨512, 0, 0⟩)).Describes
      (exactLatencies (⟨512, 0, 1⟩ :: List.replicate n ⟨512, 0, 0⟩)) := by
  intro h
  have hn : 0 < n := by
    have hle := Nat.le_of_dvd n.succ_pos hdvd
    omega
  have hvalues : exactLatencies (⟨512, 0, 1⟩ :: List.replicate n ⟨512, 0, 0⟩) =
      1 :: List.replicate n 0 := by
    simp [exactLatencies, IoRequestStat.latency]
  have hlength : (⟨512, 0, 1⟩ :: List.replicate n ⟨512, 0, 0⟩ : List IoRequestStat).length =
      n + 1 := by
    rw [List.length_cons, List.length_replicate]
  obtain ⟨hrequests, hcleared⟩ :=
    requestCounter_requests workload (⟨512, 0, 1⟩ :: List.replicate n ⟨512, 0, 0⟩)
  rw [hlength, ofNat_eq_zero_iff.mpr hdvd] at hrequests
  have hvariance := h.varianceLatency
  rw [finishedCounter, varianceLatency_of_requests_eq_zero hrequests, hcleared, hvalues,
    List.length_cons, List.length_replicate, Nat.cast_add, Nat.cast_one,
    add_sub_cancel_right] at hvariance
  have hsquares : squares (1 :: List.replicate n (0 : ℚ)) = 0 :=
    (div_eq_zero_iff.mp hvariance.symm).resolve_right (Nat.cast_ne_zero.mpr hn.ne')
  have hone := eq_mean_of_squares_eq_zero hsquares List.mem_cons_self
  have hzero := eq_mean_of_squares_eq_zero hsquares
    (List.mem_cons_of_mem 1 (List.mem_replicate.mpr ⟨hn.ne', rfl⟩))
  exact one_ne_zero (hone.trans hzero.symm)

/-- What the types of the counter leave out: two latencies with a total of `2 ^ 63`, a request that
completes before its submission, and `2 ^ 64` requests. -/
theorem finishedCounter_limits :
    ¬(finishedCounter oneSecond [⟨512, 0, 2 ^ 62⟩, ⟨512, 0, 2 ^ 62⟩]).Describes
        (exactLatencies [⟨512, 0, 2 ^ 62⟩, ⟨512, 0, 2 ^ 62⟩]) ∧
      ¬(finishedCounter oneSecond [⟨512, 1, 0⟩, ⟨512, 0, 0⟩]).Describes
        (exactLatencies [⟨512, 1, 0⟩, ⟨512, 0, 0⟩]) ∧
      ¬(finishedCounter oneSecond
          (⟨512, 0, 1⟩ :: List.replicate (2 ^ 64 - 1) ⟨512, 0, 0⟩)).Describes
        (exactLatencies (⟨512, 0, 1⟩ :: List.replicate (2 ^ 64 - 1) ⟨512, 0, 0⟩)) := by
  refine ⟨fun h => ?_, fun h => ?_, not_describes_of_dvd ⟨1, by omega⟩⟩
  · have hfits := (finishedCounter_mean_iff (by decide) (by decide)
      (by simp [IoRequestStat.latency])).mp h.meanLatency
    exact absurd hfits (by decide)
  · have hm2 := h.m2Latency
    rw [(finishedCounter_counts oneSecond (by decide) (by decide)).m2Latency] at hm2
    have hwords : latencyValues [⟨512, 1, 0⟩, ⟨512, 0, 0⟩] = [18446744073709551615, 0] := by
      have hlist : latencyWords [⟨512, 1, 0⟩, ⟨512, 0, 0⟩] = [18446744073709551615, 0] := by
        decide
      simp [latencyValues, hlist]
    have hlatencies : exactLatencies [⟨512, 1, 0⟩, ⟨512, 0, 0⟩] = [-1, 0] := by
      simp [exactLatencies, IoRequestStat.latency]
    rw [hwords, hlatencies] at hm2
    norm_num [squares, mean] at hm2

end Sample

end DiskBench
