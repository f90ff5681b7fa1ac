import Mathlib.Algebra.BigOperators.Ring.Finset
import DiskBench.Foundations.Peak
import DiskBench.LatencyBound
import DiskBench.Threads

/-!
# The depth that a test has reached

`max_active` of a workload is what a test reports as its depth, and `dump_statistics` adds it up
over the workers. The thread raises it after a submission only, and it waits for a completion in its
loop only when no entry of its queue is free.
-/

namespace DiskBench

open Sharing Transition

variable {γ : Type} {config : Config} {G : Generator γ}

/-- `max_active` as a number. -/
def IoState.mark (s : IoState γ) : ℕ := s.workload.maxActive.toInt.toNat

/-- The number of requests in flight. -/
def IoState.parallel (s : IoState γ) : ℕ := s.device.inflight.length

/-- What the place of the thread says about the depth `m` that has been reached: a wait has started
with at most so many requests, and one that blocks the loop of `ioworker` with all entries. -/
def Pc.Reached (total : UInt32) (m : ℕ) : Pc → Prop
  | .wait caller events _ oldActive block =>
    oldActive.toNat ≤ m ∧ (caller = .ioworker → events = 0 ∧ (block = true → oldActive = total))
  | _ => True

/-- No more requests than `max_active` are in flight. -/
structure DepthInv (s : IoState γ) : Prop where
  slots : SlotInv s
  nonneg : 0 ≤ s.workload.maxActive.toInt
  parallel_le : s.parallel ≤ s.mark
  reached : s.pc.Reached s.queue.total s.mark

section Places

variable {queue : AsyncQueue} {caller : Caller} {events received m : ℕ} {oldActive : UInt32}
  {block ok : Bool}

theorem waitLoop_reached (hadd : queue.free.toNat + queue.active.toNat = queue.total.toNat)
    (hactive : queue.active.toNat ≤ m) (hevents : caller = .ioworker → events = 0) :
    (waitLoop queue caller events received).Reached queue.total m := by
  unfold waitLoop
  split
  · refine ⟨hactive, fun hcaller => ⟨hevents hcaller, fun hblock => ?_⟩⟩
    rw [hevents hcaller] at hblock
    have hfree : queue.free = 0 := by simpa using hblock
    rw [hfree, UInt32.toNat_zero, Nat.zero_add] at hadd
    exact UInt32.toNat_inj.mp hadd
  · cases caller <;> trivial

theorem waitReturned_reached (hadd : queue.free.toNat + queue.active.toNat = queue.total.toNat)
    (hactive : queue.active.toNat ≤ m)
    (hwait : (Pc.wait caller events received oldActive block).Reached queue.total m) :
    (waitReturned config queue caller events received oldActive ok).Reached queue.total m := by
  unfold waitReturned
  split
  · trivial
  split
  · cases caller <;> trivial
  · exact waitLoop_reached hadd hactive fun hcaller => (hwait.2 hcaller).1

theorem afterNotify_reached (hadd : queue.free.toNat + queue.active.toNat = queue.total.toNat)
    (hactive : queue.active.toNat ≤ m)
    (hwait : (Pc.wait caller events received oldActive block).Reached queue.total m) :
    (afterNotify config queue (.wait caller events received oldActive block) caller events received
      oldActive).Reached queue.total m := by
  unfold afterNotify
  split
  · exact hwait
  · exact waitReturned_reached hadd hactive hwait

end Places

/-- A step that keeps `max_active` and adds no request to those in flight. -/
theorem DepthInv.keep {s t : IoState γ} (h : DepthInv s) (hslots : SlotInv t)
    (hmax : t.workload.maxActive = s.workload.maxActive) (hparallel : t.parallel ≤ s.parallel)
    (hreached : t.pc.Reached t.queue.total s.mark) :
    DepthInv t ∧ t.mark = max s.mark t.parallel := by
  have hmark : t.mark = s.mark := by rw [IoState.mark, hmax, IoState.mark]
  have hle : t.parallel ≤ s.mark := hparallel.trans h.parallel_le
  exact ⟨⟨hslots, hmax ▸ h.nonneg, hmark ▸ hle, hmark ▸ hreached⟩,
    hmark.trans (Nat.max_eq_left hle).symm⟩

/-- A step that keeps the counters and the requests in flight. -/
theorem DepthInv.congr {s t : IoState γ} (h : DepthInv s) (hslots : SlotInv t)
    (hworkload : t.workload = s.workload) (hinflight : t.device.inflight = s.device.inflight)
    (hreached : t.pc.Reached t.queue.total s.mark) :
    DepthInv t ∧ t.mark = max s.mark t.parallel :=
  h.keep hslots (congrArg IoWorkload.maxActive hworkload) (congrArg List.length hinflight).le
    hreached

theorem DepthInv.active_le {s : IoState γ} (h : DepthInv s) : s.queue.active.toNat ≤ s.mark := by
  rw [← h.slots.conserved.active_eq]
  exact h.parallel_le

/-- A submission raises the mark, if need be. -/
theorem DepthInv.submit {s : IoState γ} {i : ℕ} {rest : List ℕ} {data : γ} {seed : UInt64}
    {target : Target} {clock : Clock} (h : DepthInv s)
    (hslots : SlotInv (s.submit config i rest data seed target clock true)) :
    DepthInv (s.submit config i rest data seed target clock true) ∧
      (s.submit config i rest data seed target clock true).mark =
        max s.mark (s.submit config i rest data seed target clock true).parallel := by
  set t := s.submit config i rest data seed target clock true with ht
  have hactive : t.parallel = (s.queue.active + 1).toNat := hslots.conserved.active_eq
  have hlimit : (s.queue.active + 1).toNat < 2 ^ 31 := by
    have hadd := hslots.conserved.add
    have htotal := hslots.total_eq
    have hdepth := t.workload.queueDepth.toInt_lt
    have hlength := hslots.conserved.active_eq
    rw [IoState.parallel] at hactive
    omega
  have hmax : t.workload.maxActive.toInt =
      max ((s.queue.active + 1).toNat : ℤ) s.workload.maxActive.toInt :=
    toInt_updateMax hlimit h.nonneg
  have hmark : t.mark = max s.mark t.parallel := by
    rw [IoState.mark, hmax, hactive, IoState.mark]
    omega
  refine ⟨⟨hslots, ?_, ?_, ?_⟩, hmark⟩
  · rw [hmax]
    exact h.nonneg.trans (le_max_right _ _)
  · rw [hmark]
    exact Nat.le_max_right _ _
  · refine waitLoop_reached hslots.conserved.add ?_ fun _ => rfl
    rw [← hslots.conserved.active_eq, hmark]
    exact Nat.le_max_right _ _

/-- Every step of a workload keeps the invariant, and it raises the mark with the requests in
flight. -/
theorem DepthInv.of_step {s t : IoState γ} {a : Action γ} (h : DepthInv s)
    (hP : DuringWorkload config s a) (hstep : step config G s a = some t) :
    DepthInv t ∧ t.mark = max s.mark t.parallel := by
  have hslots := h.slots.of_step hP.1 hstep
  cases step_next hstep with
  | start l queue hpc hcreate => exact absurd rfl (hP.2 l)
  | startFails l reason hreason => exact absurd rfl (hP.2 l)
  | timeout clock accepted hpc htime =>
    exact h.congr hslots rfl rfl (waitLoop_reached h.slots.conserved.add h.active_le
      fun hcaller => by cases hcaller)
  | sentinel clock accepted hpc hready => exact h.congr hslots rfl rfl trivial
  | stop clock accepted i rest hpc hready hlimit =>
    exact h.congr hslots rfl rfl (waitLoop_reached hslots.conserved.add h.active_le
      fun hcaller => by cases hcaller)
  | submitFails clock accepted reason hpc hreason => exact h.congr hslots rfl rfl trivial
  | submit clock accepted i rest data seed target hpc htime hready hlimit hfill hassert =>
    obtain rfl : accepted = true := hP.1
    exact h.submit hslots
  | effect i k hi hk =>
    obtain ⟨buf, hqueue⟩ := effect_queue s i k
    refine h.congr hslots (effect_workload s i k) (effect_inflight s i k) ?_
    rw [effect_pc, hqueue, AsyncQueue.setRequest_total]
    exact h.reached
  | notify i transfer now caller events received oldActive block worker workload queue hpc hi
      hnotifies hnotify =>
    have hless : (s.device.inflight.erase i).length ≤ s.parallel := List.length_erase_le
    have htotal : queue.total = s.queue.total := by rw [(genericQueueNotify_ok hnotify).1]; rfl
    have hactive : (s.device.inflight.erase i).length = queue.active.toNat :=
      hslots.conserved.active_eq
    have hwait := h.reached
    rw [hpc, ← htotal] at hwait
    refine h.keep hslots (notify_counters hnotify).2.2.2.2 hless ?_
    rw [hpc]
    exact afterNotify_reached hslots.conserved.add (hactive ▸ hless.trans h.parallel_le) hwait
  | notifyFails i transfer now reason hi hnotify => exact h.congr hslots rfl rfl trivial
  | drop i transfer now caller events received oldActive block hpc hi hnotifies =>
    exact (hP.1.not_dropped hnotifies).elim
  | waitReturn ok caller events received oldActive block hpc hok =>
    exact h.congr hslots rfl rfl (waitReturned_reached h.slots.conserved.add h.active_le
      (hpc ▸ h.reached))
  | finish now hpc => exact h.keep hslots rfl (Nat.le_refl _) trivial

theorem DepthInv.start {s : IoState γ} {l : Launch γ} {queue : AsyncQueue}
    (hdepth : 1 ≤ l.queueDepth)
    (hcreate : genericQueueCreate config s.worker l.queueDepth l.memory = .ok queue) :
    DepthInv (s.start l queue) :=
  ⟨SlotInv.start hdepth hcreate, le_refl 0, Nat.le_refl 0, trivial⟩

section Threads

variable {ι φ : Type} [DecidableEq ι] [DecidableEq φ] {file : ι → φ}
  {threads threads' : ι → IoState γ} {as : List (ι × Action γ)}

/-- A file that another thread changes does not matter to the depth. -/
theorem DepthInv.withDisk {s : IoState γ} {disk : Memory} (h : DepthInv s) :
    DepthInv (s.withDisk disk) :=
  ⟨{ h.slots with }, h.nonneg, h.parallel_le, h.reached⟩

/-- A step of any of the threads keeps the invariant of each, and it raises the mark of each with
its requests in flight. -/
theorem depth_of_threadsStep {act : ι × Action γ} (i : ι) (h : DepthInv (threads i))
    (hP : Acting (DuringWorkload config) threads act)
    (hstep : threadsStep config G file threads act = some threads') :
    DepthInv (threads' i) ∧ (threads' i).mark = max (threads i).mark (threads' i).parallel := by
  obtain ⟨rfl, hown⟩ | ⟨_, heq | ⟨disk, heq⟩⟩ := thread_of_together i hstep
  · exact h.of_step hP hown
  · rw [heq]
    exact ⟨h, (Nat.max_eq_left h.parallel_le).symm⟩
  · rw [heq]
    exact ⟨h.withDisk, (Nat.max_eq_left h.parallel_le).symm⟩

/-- **The depth that a test reports is the depth that it has reached.** The threads of a test run in
any interleaving on any files, on a cooperative platform. At any time `max_active` of each workload
is the greatest number of requests that it has had in flight at once, and it is the queue depth when
the thread blocks in the loop of `ioworker`. All threads together never have more requests in flight
than `dump_statistics` adds up. A request that the platform refuses would count in `max_active`
without being in flight. -/
theorem max_active_reached [Fintype ι] {s : ι → IoState γ} {l : ι → Launch γ}
    {queue : ι → AsyncQueue} (hdepth : ∀ i, 1 ≤ (l i).queueDepth)
    (hcreate : ∀ i, genericQueueCreate config (s i).worker (l i).queueDepth (l i).memory =
      .ok (queue i))
    (hrun : exec (threadsStep config G file) (fun i => (s i).start (l i) (queue i)) as =
      some threads')
    (hduring : Along (threadsStep config G file) (Acting (DuringWorkload config))
      (fun i => (s i).start (l i) (queue i)) as) :
    (∀ i, (threads' i).workload.maxActive.toInt =
        peak (threadsStep config G file) (fun threads => (threads i).device.inflight.length)
          (fun i => (s i).start (l i) (queue i)) as ∧
      ∀ events received oldActive,
        (threads' i).pc = .wait .ioworker events received oldActive true →
          (threads' i).workload.maxActive = (threads' i).workload.queueDepth) ∧
      peak (threadsStep config G file) (fun threads => ∑ i, (threads i).device.inflight.length)
          (fun i => (s i).start (l i) (queue i)) as ≤
        ∑ i, (threads' i).workload.maxActive.toInt := by
  have hinv : ∀ i, DepthInv (threads' i) := fun i =>
    exec_invariant (I := fun threads => DepthInv (threads i))
      (fun _ _ _ h hP hstep => (depth_of_threadsStep i h hP hstep).1) hrun hduring
      (DepthInv.start (hdepth i) (hcreate i))
  have hpeak : ∀ i, (threads' i).workload.maxActive.toInt =
      peak (threadsStep config G file) (fun threads => (threads i).device.inflight.length)
        (fun i => (s i).start (l i) (queue i)) as := by
    intro i
    have hmark := mark_eq_peak (I := fun threads : ι → IoState γ => DepthInv (threads i))
      (f := fun threads => (threads i).parallel) (m := fun threads => (threads i).mark)
      (fun _ _ _ h hP hstep => (depth_of_threadsStep i h hP hstep).1)
      (fun _ _ _ h hP hstep _ => (depth_of_threadsStep i h hP hstep).2)
      (DepthInv.start (hdepth i) (hcreate i)) rfl hrun hduring
    have hcast := Int.toNat_of_nonneg (hinv i).nonneg
    rw [← hcast]
    exact congrArg Nat.cast hmark
  refine ⟨fun i => ⟨hpeak i, fun events received oldActive hpc => ?_⟩, ?_⟩
  · -- The wait has blocked with all entries in flight, so the mark is the size of the queue.
    have hreached := (hinv i).reached
    rw [hpc] at hreached
    have htotal := (hreached.2 rfl).2 rfl
    have hle := Int32.le_iff_toInt_le.mp (hinv i).slots.maxActive_le
    have hmark : (threads' i).queue.total.toNat ≤ (threads' i).mark := htotal ▸ hreached.1
    rw [(hinv i).slots.total_eq, IoState.mark] at hmark
    have hnonneg := (hinv i).nonneg
    exact Int32.toInt_inj.mp (by omega)
  · rw [Finset.sum_congr rfl fun i _ => hpeak i, ← Nat.cast_sum]
    exact_mod_cast peak_sum_le fun (i : ι) (threads : ι → IoState γ) =>
      (threads i).device.inflight.length

end Threads

/-- Two threads with two writes each on the same file: each of them reaches its queue depth, and
there are never more than four requests in flight. -/
theorem max_active_reached_pair : ∃ threads, exec
    (threadsStep ⟨false, .linux, 4096, true⟩ workloads fun _ : Bool => ()) (fun _ => pairStart)
      ((pairRun 0 1).flatMap fun a => [(true, a), (false, a)]) = some threads ∧
    (threads true).workload.maxActive = 2 ∧
    peak (threadsStep ⟨false, .linux, 4096, true⟩ workloads fun _ : Bool => ())
      (fun threads => ∑ i, (threads i).device.inflight.length) (fun _ => pairStart)
      ((pairRun 0 1).flatMap fun a => [(true, a), (false, a)]) ≤ (4 : ℤ) := by
  have hrun : exec (threadsStep ⟨false, .linux, 4096, true⟩ workloads fun _ : Bool => ())
    (fun _ => pairStart) ((pairRun 0 1).flatMap fun a => [(true, a), (false, a)]) = some _ := rfl
  have hcreate : genericQueueCreate ⟨false, .linux, 4096, true⟩ pairInitial.worker
    pairLaunch.queueDepth pairLaunch.memory = .ok pairQueue := rfl
  exact ⟨_, hrun, rfl, (max_active_reached (fun _ => by decide) (fun _ => hcreate) hrun
    (by decide)).2⟩

end DiskBench
