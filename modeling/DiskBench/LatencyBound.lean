import Mathlib.Algebra.Order.Ring.Int
import DiskBench.Foundations.Occupancy
import DiskBench.Slots

/-!
# The latencies of a workload

Every request of a workload stays between `pre_submission` and `completed`, and never more than
`max_active` of them are present. So the latencies that the callbacks add up are bounded by
`max_active` times the duration of the workload, whatever the device does.
-/

namespace DiskBench

open Occupancy Transition

variable {γ : Type} {config : Config} {G : Generator γ}

/-- The readings of the clock in an action, in their order. -/
def Action.readings : Action γ → List AprTime
  | .launch l => [l.now]
  | .iterate clock _ => [clock.now, clock.preSubmission, clock.postSubmission]
  | .effect _ _ => []
  | .reap _ _ now => [now]
  | .waitReturn _ => []
  | .finish now => [now]

/-- From `now` on the clock never goes back. -/
def Chronological (now : AprTime) (as : List (Action γ)) : Prop :=
  (now :: as.flatMap Action.readings).Pairwise (· ≤ ·)

instance (now : AprTime) (as : List (Action γ)) : Decidable (Chronological now as) :=
  inferInstanceAs (Decidable (List.Pairwise _ _))

/-- The time after an action. -/
def Action.after (now : AprTime) (a : Action γ) : AprTime := a.readings.getLastD now

/-- The readings of the first action are in order, and the rest starts behind them. -/
theorem Chronological.cons {now : AprTime} {a : Action γ} {as : List (Action γ)}
    (h : Chronological now (a :: as)) :
    (now :: a.readings).Pairwise (· ≤ ·) ∧ Chronological (a.after now) as := by
  unfold Chronological at h ⊢
  rw [List.flatMap_cons, ← List.cons_append, List.pairwise_append] at h
  obtain ⟨hfirst, hrest, hcross⟩ := h
  refine ⟨hfirst, List.pairwise_cons.mpr ⟨fun b hb => hcross _ ?_ b hb, hrest⟩⟩
  rw [Action.after, List.getLastD_eq_getLast?]
  cases hlast : a.readings.getLast? with
  | none => exact List.mem_cons_self
  | some last => exact List.mem_cons_of_mem _ (List.mem_of_getLast? hlast)

/-- The times at which the requests in flight have been prepared. -/
def IoState.arrivals (s : IoState γ) : List AprTime :=
  s.device.inflight.map fun i => (s.queue.ioaqes i).request.preSubmission

/-- The smallest and the greatest latency that have been counted lie between 0 and a duration, and
the sum of all of them is not negative. -/
structure IoCounters.LieWithin (counters : IoCounters) (duration : AprTime) : Prop where
  elapsed : 0 ≤ counters.elapsed
  min : 0 ≤ counters.minLatency
  min_le : counters.minLatency ≤ duration
  max_nonneg : 0 ≤ counters.maxLatency
  max : counters.maxLatency ≤ duration

/-- What the latencies of a workload have to do with its duration until `now`. -/
structure IoWorkload.Accounted (workload : IoWorkload) (now : AprTime) : Prop where
  start_le : workload.startTime ≤ now
  maxActive : 0 ≤ workload.maxActive.toInt
  maxActive_le : workload.maxActive ≤ workload.queueDepth
  read : workload.read.LieWithin (now - workload.startTime)
  write : workload.write.LieWithin (now - workload.startTime)
  total : workload.read.elapsed + workload.write.elapsed ≤
    workload.maxActive.toInt * (now - workload.startTime)

theorem IoCounters.LieWithin.zero {duration : AprTime} (h : 0 ≤ duration) :
    IoCounters.zero.LieWithin duration :=
  ⟨le_refl 0, le_refl 0, h, le_refl 0, h⟩

theorem IoCounters.LieWithin.mono {counters : IoCounters} {duration duration' : AprTime}
    (h : counters.LieWithin duration) (hle : duration ≤ duration') : counters.LieWithin duration' :=
  { h with min_le := h.min_le.trans hle, max := h.max.trans hle }

/-- One more latency is counted. -/
theorem IoCounters.LieWithin.record {counters : IoCounters} {duration elapsed : AprTime}
    {size : UInt64} (h : counters.LieWithin duration) (hnonneg : 0 ≤ elapsed)
    (hle : elapsed ≤ duration) : (counters.record elapsed size).LieWithin duration where
  elapsed := add_nonneg h.elapsed hnonneg
  min := by
    simp only [IoCounters.record]
    split
    · exact hnonneg
    · exact h.min
  min_le := by
    simp only [IoCounters.record]
    split
    · exact hle
    · exact h.min_le
  max_nonneg := by
    simp only [IoCounters.record]
    split
    · exact hnonneg
    · exact h.max_nonneg
  max := by
    simp only [IoCounters.record]
    split
    · exact hle
    · exact h.max

@[simp] theorem prepareEntry_preSubmission (worker : IoWorker) (entry : AsyncQueueEntry)
    (seed : UInt64) (target : Target) (now : AprTime) :
    (prepareEntry config worker entry seed target now).1.request.preSubmission = now := by
  unfold prepareEntry
  split <;> rfl

/-- A change of a queue that keeps the times of preparation keeps the arrivals. -/
theorem arrivals_congr {queue queue' : AsyncQueue} {inflight : List ℕ}
    (h : ∀ j ∈ inflight, (queue'.ioaqes j).request.preSubmission =
      (queue.ioaqes j).request.preSubmission) :
    (inflight.map fun j => (queue'.ioaqes j).request.preSubmission) =
      inflight.map fun j => (queue.ioaqes j).request.preSubmission :=
  List.map_congr_left h

/-- The requests in flight have places below `max_active`, which account for all latencies. -/
structure LatencyInv (s : IoState γ) (now : AprTime) : Prop where
  maxActive : 0 ≤ s.workload.maxActive.toInt
  within : Within s.workload.maxActive.toInt.toNat s.workload.startTime now s.arrivals
    (s.workload.read.elapsed + s.workload.write.elapsed)
  read : s.workload.read.LieWithin (now - s.workload.startTime)
  write : s.workload.write.LieWithin (now - s.workload.startTime)

theorem LatencyInv.initial {worker : IoWorker} {generator : γ} {disk : Memory} {now : AprTime}
    (hnow : 0 ≤ now) : LatencyInv (IoState.initial worker generator disk) now where
  maxActive := le_refl 0
  within := (Within.open 0 (0 : AprTime)).wait hnow
  read := .zero (sub_nonneg.mpr hnow)
  write := .zero (sub_nonneg.mpr hnow)

/-- Time passes. -/
theorem LatencyInv.wait {s : IoState γ} {now now' : AprTime} (h : LatencyInv s now)
    (hle : now ≤ now') : LatencyInv s now' where
  maxActive := h.maxActive
  within := h.within.wait hle
  read := h.read.mono (sub_le_sub_right hle _)
  write := h.write.mono (sub_le_sub_right hle _)

theorem LatencyInv.start {s : IoState γ} {l : Launch γ} {queue : AsyncQueue} :
    LatencyInv (s.start l queue) l.now where
  maxActive := le_refl 0
  within := Within.open 0 l.now
  read := .zero (sub_nonneg.mpr (le_refl l.now))
  write := .zero (sub_nonneg.mpr (le_refl l.now))

/-- A step that keeps the counters of the workload, the requests in flight and their entries. -/
theorem LatencyInv.congr {s t : IoState γ} {now : AprTime} (h : LatencyInv s now)
    (hworkload : t.workload = s.workload) (harrivals : t.arrivals = s.arrivals) :
    LatencyInv t now where
  maxActive := hworkload ▸ h.maxActive
  within := by
    rw [hworkload, harrivals]
    exact h.within
  read := hworkload ▸ h.read
  write := hworkload ▸ h.write

theorem LatencyInv.effect {s : IoState γ} {i k : ℕ} {now : AprTime} (h : LatencyInv s now) :
    LatencyInv (s.effect i k) now := by
  refine h.congr (effect_workload s i k) ?_
  unfold IoState.arrivals
  rw [effect_inflight]
  refine arrivals_congr fun j _ => ?_
  obtain ⟨buf, hentry⟩ := effect_entry s i k j
  rw [hentry]
  rfl

/-- An `int` that is not negative is the same number as a word. -/
theorem toNat_toUInt32_of_nonneg {x : Int32} (h : 0 ≤ x.toInt) :
    (x.toUInt32.toNat : ℤ) = x.toInt := by
  have hlt := x.toUInt32.toNat_lt
  have hcond : x.toInt = if 2 * x.toUInt32.toNat < 2 ^ 32 then
      (x.toUInt32.toNat : ℤ) else (x.toUInt32.toNat : ℤ) - (2 ^ 32 : ℕ) :=
    BitVec.toInt_eq_toNat_cond x.toBitVec
  split at hcond <;> omega

/-- The update of `max_active` by a number of active entries that fits an `int`. -/
theorem toInt_updateMax {active : UInt32} {maxActive : Int32} (hactive : active.toNat < 2 ^ 31)
    (hmax : 0 ≤ maxActive.toInt) :
    (if active > maxActive.toUInt32 then active.toInt32 else maxActive).toInt =
      max (active.toNat : ℤ) maxActive.toInt := by
  have hword := toNat_toUInt32_of_nonneg hmax
  split
  · rename_i hgt
    rw [toInt_toInt32 hactive, max_eq_left]
    have hnat := UInt32.lt_iff_toNat_lt.mp hgt
    omega
  · rename_i hle
    rw [max_eq_right]
    have hnat := UInt32.le_iff_toNat_le.mp (UInt32.not_lt.mp hle)
    omega

/-- A submission takes one of the places, if need be a new one. -/
theorem LatencyInv.submit {s : IoState γ} {i : ℕ} {rest : List ℕ} {data : γ} {seed : UInt64}
    {target : Target} {clock : Clock} (hslots : SlotInv s) (hready : s.queue.ready = i :: rest)
    (h : LatencyInv s clock.preSubmission) :
    LatencyInv (s.submit config i rest data seed target clock true) clock.preSubmission := by
  have hconserved : Conserved (s.submit config i rest data seed target clock true).queue
    (s.device.inflight ++ [i]) := hslots.conserved.submit hready
  have hactive : s.device.inflight.length + 1 = (s.queue.active + 1).toNat := by
    have hlength := hconserved.active_eq
    rw [List.length_append, List.length_singleton] at hlength
    exact hlength
  have hlimit : (s.queue.active + 1).toNat < 2 ^ 31 := by
    have hadd : (s.queue.free - 1).toNat + (s.queue.active + 1).toNat = s.queue.total.toNat :=
      hconserved.add
    have htotal := hslots.total_eq
    have hdepth := s.workload.queueDepth.toInt_lt
    omega
  have hmax : (s.submit config i rest data seed target clock true).workload.maxActive.toInt =
      max ((s.queue.active + 1).toNat : ℤ) s.workload.maxActive.toInt :=
    toInt_updateMax hlimit h.maxActive
  have harrivals : (s.submit config i rest data seed target clock true).arrivals =
      s.arrivals ++ [clock.preSubmission] := by
    have hnot := first_notMem_inflight hslots.conserved.nodup hready
    show ((s.device.inflight ++ [i]).map _) = _
    rw [List.map_append, List.map_singleton]
    congr 1
    · refine arrivals_congr fun j hj => ?_
      have hne : j ≠ i := fun heq => hnot (heq ▸ hj)
      rw [submit_entry_of_ne hne]
    · simp [IoState.submit]
  refine ⟨?_, ?_, h.read, h.write⟩
  · rw [hmax]
    exact h.maxActive.trans (le_max_right _ _)
  · rw [hmax, harrivals]
    refine Within.perm (Within.arrive (h.within.mono ?_) ?_) (List.perm_append_singleton _ _).symm
    · omega
    · rw [IoState.arrivals, List.length_map]
      omega

/-- A completion gives its place back, and its latency is counted. -/
theorem LatencyInv.notify {s : IoState γ} {i : ℕ} {transfer : Transfer} {now : AprTime} {pc : Pc}
    {worker : IoWorker} {workload : IoWorkload} {queue : AsyncQueue} (hi : i ∈ s.device.inflight)
    (hnotify : genericQueueNotify config s.worker s.workload s.queue i now =
      .ok (worker, workload, queue)) (h : LatencyInv s now) :
    LatencyInv { s with
      worker := worker
      workload := workload
      queue := queue
      pc := pc
      device := s.device.complete i (s.queue.ioaqes i).request transfer } now := by
  obtain ⟨hqueue, hcallback⟩ := genericQueueNotify_ok hnotify
  set pre := (s.queue.ioaqes i).request.preSubmission with hpre
  have harrivals : (IoState.arrivals { s with
      worker := worker, workload := workload, queue := queue, pc := pc
      device := s.device.complete i (s.queue.ioaqes i).request transfer }) =
      (s.device.inflight.erase i).map fun j => (s.queue.ioaqes j).request.preSubmission := by
    refine arrivals_congr fun j _ => ?_
    obtain ⟨now', hentry⟩ := notified_entry s.queue i now j
    rw [hqueue, hentry]
    rfl
  have hperm : s.arrivals.Perm (pre ::
      (s.device.inflight.erase i).map fun j => (s.queue.ioaqes j).request.preSubmission) :=
    (List.perm_cons_erase hi).map _
  have hstay := h.within.perm hperm
  obtain ⟨hstart, hnow⟩ := hstay.arrived pre List.mem_cons_self
  have hnonneg : 0 ≤ now - pre := sub_nonneg.mpr hnow
  have hle : now - pre ≤ now - s.workload.startTime := sub_le_sub_left hstart now
  rcases hcallback with ⟨_, _, _, rfl⟩ | ⟨_, _, rfl⟩
  · refine ⟨h.maxActive, ?_, h.read.record hnonneg hle, h.write⟩
    rw [harrivals]
    show Within _ _ _ _ (s.workload.read.elapsed + (now - pre) + s.workload.write.elapsed)
    rw [add_right_comm]
    exact hstay.depart
  · refine ⟨h.maxActive, ?_, h.read, h.write.record hnonneg hle⟩
    rw [harrivals]
    show Within _ _ _ _ (s.workload.read.elapsed + (s.workload.write.elapsed + (now - pre)))
    rw [← add_assoc]
    exact hstay.depart

/-- Every step on a cooperative platform keeps the invariant, at the time after it. -/
theorem LatencyInv.of_step {s t : IoState γ} {a : Action γ} {now : AprTime} (hslots : SlotInv s)
    (hco : Cooperative config s a) (hclock : (now :: a.readings).Pairwise (· ≤ ·))
    (h : LatencyInv s now) (hstep : step config G s a = some t) : LatencyInv t (a.after now) := by
  have hread : ∀ x ∈ a.readings, now ≤ x := (List.pairwise_cons.mp hclock).1
  cases step_next hstep with
  | start l queue hpc hcreate => exact LatencyInv.start
  | startFails l reason hreason =>
    exact (h.wait (hread l.now List.mem_cons_self)).congr rfl rfl
  | timeout clock accepted hpc htime =>
    exact (h.wait (hread clock.postSubmission (by simp [Action.readings]))).congr rfl rfl
  | sentinel clock accepted hpc hready =>
    exact (h.wait (hread clock.postSubmission (by simp [Action.readings]))).congr rfl rfl
  | stop clock accepted i rest hpc hready hlimit =>
    exact (h.wait (hread clock.postSubmission (by simp [Action.readings]))).congr rfl rfl
  | submitFails clock accepted reason hpc hreason =>
    exact (h.wait (hread clock.postSubmission (by simp [Action.readings]))).congr rfl rfl
  | submit clock accepted i rest data seed target hpc htime hready hlimit hfill hassert =>
    obtain rfl : accepted = true := hco
    have hlast : clock.preSubmission ≤ clock.postSubmission := by
      have hpair := (List.pairwise_cons.mp (List.pairwise_cons.mp hclock).2).2
      exact (List.pairwise_cons.mp hpair).1 _ List.mem_cons_self
    have hpre := h.wait (hread clock.preSubmission (by simp [Action.readings]))
    exact (hpre.submit hslots hready).wait hlast
  | effect i k hi hk => exact h.effect
  | notify i transfer now' caller events received oldActive block worker workload queue hpc hi
      hnotifies hnotify =>
    exact (h.wait (hread now' List.mem_cons_self)).notify hi hnotify
  | notifyFails i transfer now' reason hi hnotify =>
    exact (h.wait (hread now' List.mem_cons_self)).congr rfl rfl
  | drop i transfer now' caller events received oldActive block hpc hi hnotifies =>
    exact (hco.not_dropped hnotifies).elim
  | waitReturn ok caller events received oldActive block hpc hok => exact h.congr rfl rfl
  | finish now' hpc =>
    have hwait := h.wait (hread now' List.mem_cons_self)
    exact ⟨hwait.maxActive, hwait.within, hwait.read, hwait.write⟩

/-- The places account for the latencies that have been counted. -/
theorem LatencyInv.accounted {s : IoState γ} {now : AprTime} (hslots : SlotInv s)
    (h : LatencyInv s now) : s.workload.Accounted now where
  start_le := h.within.start_le
  maxActive := h.maxActive
  maxActive_le := hslots.maxActive_le
  read := h.read
  write := h.write
  total := by
    have htotal := h.within.departed_le
    have hcast : ((s.workload.maxActive.toInt.toNat : ℕ) : AprTime) = s.workload.maxActive.toInt :=
      Int.toNat_of_nonneg h.maxActive
    rw [hcast] at htotal
    exact htotal

/-- A thread that ends leaves a workload that is accounted for. -/
theorem accounted_of_step {s t : IoState γ} {a : Action γ} {now : AprTime} (hslots : SlotInv s)
    (hclock : (now :: a.readings).Pairwise (· ≤ ·)) (h : LatencyInv s now)
    (hended : s.pc = .done → s.workload.Accounted s.workload.endTime)
    (hstep : step config G s a = some t) (ht : t.pc = .done) :
    t.workload.Accounted t.workload.endTime := by
  rcases step_done hstep ht with ⟨now', _, rfl, rfl⟩ | ⟨hpc, i, k, rfl, rfl⟩
  · have hle : now ≤ now' := (List.pairwise_cons.mp hclock).1 now' List.mem_cons_self
    exact { (h.wait hle).accounted hslots with }
  · rw [effect_workload]
    exact hended hpc

theorem accounted_of_exec {s t : IoState γ} {as : List (Action γ)} {now : AprTime}
    (hrun : exec (step config G) s as = some t)
    (hco : Along (step config G) (Cooperative config) s as) (hclock : Chronological now as)
    (hslots : SlotInv s) (h : LatencyInv s now)
    (hended : s.pc = .done → s.workload.Accounted s.workload.endTime) (ht : t.pc = .done) :
    t.workload.Accounted t.workload.endTime := by
  induction as generalizing s now with
  | nil =>
    obtain rfl : s = t := by simpa using hrun
    exact hended ht
  | cons a as ih =>
    obtain ⟨u, hu, hrest⟩ := exec_cons_eq_some.mp hrun
    obtain ⟨hfirst, hlater⟩ := hclock.cons
    exact ih hrest (hco.2 u hu) hlater (hslots.of_step hco.1 hu) (h.of_step hslots hco.1 hfirst hu)
      (accounted_of_step hslots hfirst h hended hu)

/-- **Little's law for a worker.** In every cooperative run with a clock that never goes back, of
any number of workloads, in every order of completions: when a thread has ended, the smallest and
the greatest latency of its workload lie between 0 and its duration, for reads and for writes, and
all latencies together are at most `max_active` times the duration, where `max_active` is at most
the queue depth. -/
theorem latencies_accounted {worker : IoWorker} {generator : γ} {disk : Memory}
    {as : List (Action γ)} {t : IoState γ}
    (hrun : exec (step config G) (IoState.initial worker generator disk) as = some t)
    (hco : Along (step config G) (Cooperative config) (IoState.initial worker generator disk) as)
    (hclock : Chronological 0 as) (hdone : t.pc = .done) :
    t.workload.Accounted t.workload.endTime :=
  accounted_of_exec hrun hco hclock SlotInv.initial (LatencyInv.initial (le_refl 0))
    (fun h => by cases h) hdone

/-- The two writes of the example run wait for one microsecond each in a workload of six. -/
theorem latencies_accounted_two_writes : ∃ t, exec (step ⟨false, .linux, 4096, true⟩ workloads)
    (IoState.initial ⟨0, 8192, 0, 0, 0, 88172645463325252, true⟩ (.sequential ⟨true, 0, 512⟩)
      fun _ => 0) twoWrites = some t ∧ t.workload.write.elapsed = 2 ∧
    t.workload.read.elapsed + t.workload.write.elapsed ≤
      t.workload.maxActive.toInt * (t.workload.endTime - t.workload.startTime) := by
  have hrun : exec (step ⟨false, .linux, 4096, true⟩ workloads)
    (IoState.initial ⟨0, 8192, 0, 0, 0, 88172645463325252, true⟩ (.sequential ⟨true, 0, 512⟩)
      fun _ => 0) twoWrites = some _ := rfl
  exact ⟨_, hrun, rfl, (latencies_accounted hrun (by decide) (by decide) rfl).total⟩

end DiskBench
