import DiskBench.Foundations.Balance
import DiskBench.SlotOrder
import DiskBench.StatisticsLine

/-!
# What a thread reports

The counters that a thread leaves are folds over the requests that its callbacks have counted. A
queue entry passes each request that is handed over to the platform to exactly one callback, the one
of its direction. So the report of a thread is the log of the requests that it has made.
-/

namespace DiskBench

open Transition

variable {γ : Type} {config : Config} {G : Generator γ}

/-- What the counters of a workload depend on in a request. -/
structure Posting where
  offset : Int64
  size : UInt64
  write : Bool
  preSubmission : AprTime
  deriving DecidableEq

/-- The posting of a request. -/
def IoRequest.posting (r : IoRequest) : Posting := ⟨r.offset, r.size, r.write, r.preSubmission⟩

/-- The postings of the requests in flight. -/
def IoState.postings (s : IoState γ) : List Posting :=
  s.device.inflight.map fun i => (s.queue.ioaqes i).request.posting

/-- The request that a step completes, with the time at which its callback counts it. -/
def IoState.counts (config : Config) (s : IoState γ) : Action γ → Option (Posting × AprTime)
  | .reap i transfer now =>
    if config.platform.notifies transfer then
      match genericQueueNotify config s.worker s.workload s.queue i now with
      | .ok _ => some ((s.queue.ioaqes i).request.posting, now)
      | .error _ => none
    else none
  | _ => none

/-- The counters of a workload for one direction. -/
def IoWorkload.counters (workload : IoWorkload) (write : Bool) : IoCounters :=
  if write then workload.write else workload.read

/-- The completed requests of a log in one direction. -/
def completionsOf (write : Bool) (log : List (Posting × AprTime)) : List Completion :=
  (log.filter fun entry => entry.1.write == write).map fun entry =>
    ⟨entry.2 - entry.1.preSubmission, entry.1.size⟩

/-- The counters for one direction after an entry of the log. -/
def IoCounters.post (write : Bool) (counters : IoCounters) (entry : Posting × AprTime) :
    IoCounters :=
  if entry.1.write == write then
    counters.record (entry.2 - entry.1.preSubmission) entry.1.size
  else counters

/-- Every request in flight has the callback of its direction. -/
def CallbacksAgree (s : IoState γ) : Prop :=
  ∀ i ∈ s.device.inflight, (s.queue.ioaqes i).callback =
    if (s.queue.ioaqes i).request.write then .writeComplete else .readComplete

theorem after_completionsOf (write : Bool) (log : List (Posting × AprTime)) :
    IoCounters.after (completionsOf write log) = log.foldl (IoCounters.post write) .zero := by
  rw [IoCounters.after, completionsOf, List.foldl_map, List.foldl_filter]
  rfl

section Steps

variable {s t : IoState γ} {a : Action γ}

theorem CallbacksAgree.of_step (h : CallbacksAgree s) (hstep : step config G s a = some t) :
    CallbacksAgree t := by
  cases step_next hstep with
  | start l queue hpc hcreate => exact fun i hi => absurd hi List.not_mem_nil
  | submit clock accepted i rest data seed target hpc htime hready hlimit hfill hassert =>
    intro j hj
    by_cases hji : j = i
    · subst hji
      obtain ⟨hcallback, _, _, hwrite⟩ :=
        @submit_entry_self γ config s j rest data seed target clock accepted
      rw [hcallback, hwrite]
    · have hold : j ∈ s.device.inflight := by
        cases accepted with
        | false => exact hj
        | true => exact (List.mem_append.mp hj).resolve_right (by simpa using hji)
      rw [submit_entry_of_ne hji]
      exact h j hold
  | effect i k hi hk =>
    intro j hj
    rw [effect_inflight] at hj
    obtain ⟨buf, hentry⟩ := effect_entry s i k j
    rw [hentry]
    exact h j hj
  | notify i transfer now caller events received oldActive block worker workload queue hpc hi
      hnotifies hnotify =>
    intro j hj
    obtain ⟨hqueue, _⟩ := genericQueueNotify_ok hnotify
    obtain ⟨now', hentry⟩ := notified_entry s.queue i now j
    show (queue.ioaqes j).callback = _
    rw [hqueue, hentry]
    exact h j (List.mem_of_mem_erase hj)
  | drop i transfer now caller events received oldActive block hpc hi hnotifies =>
    exact fun j hj => h j (List.mem_of_mem_erase hj)
  | _ => exact h

/-- A completion that the program takes note of is counted. -/
theorem counts_of_ok {i : ℕ} {transfer : Transfer} {now : AprTime}
    {result : IoWorker × IoWorkload × AsyncQueue}
    (hnotifies : config.platform.notifies transfer = true)
    (hnotify : genericQueueNotify config s.worker s.workload s.queue i now = .ok result) :
    s.counts config (.reap i transfer now) = some ((s.queue.ioaqes i).request.posting, now) := by
  simp only [IoState.counts, hnotifies, if_true, hnotify]

/-- A read that ends the process is not counted. -/
theorem counts_of_error {i : ℕ} {transfer : Transfer} {now : AprTime} {reason : Halt}
    (hnotify : genericQueueNotify config s.worker s.workload s.queue i now = .error reason) :
    s.counts config (.reap i transfer now) = none := by
  simp only [IoState.counts, hnotify]
  split <;> rfl

/-- The callbacks count what the log says, each request in its direction. -/
theorem counters_of_step {write : Bool} (h : CallbacksAgree s) (hlaunch : ∀ l, a ≠ .launch l)
    (hstep : step config G s a = some t) :
    t.workload.counters write =
      (s.counts config a).toList.foldl (IoCounters.post write) (s.workload.counters write) := by
  cases step_next hstep with
  | start l queue hpc hcreate => exact absurd rfl (hlaunch l)
  | effect i k hi hk =>
    rw [effect_workload]
    rfl
  | notify i transfer now caller events received oldActive block worker workload queue hpc hi
      hnotifies hnotify =>
    rw [counts_of_ok hnotifies hnotify]
    have hagrees := h i hi
    obtain ⟨_, ⟨hread, _, _, rfl⟩ | ⟨hwrite, _, rfl⟩⟩ := genericQueueNotify_ok hnotify
    · have hdirection : (s.queue.ioaqes i).request.write = false := by
        rw [hread] at hagrees
        split at hagrees
        · cases hagrees
        next hfalse => exact Bool.eq_false_iff.mpr hfalse
      cases write <;> simp [IoWorkload.counters, IoCounters.post, IoRequest.posting, hdirection]
    · have hdirection : (s.queue.ioaqes i).request.write = true := by
        rw [hwrite] at hagrees
        split at hagrees
        next htrue => exact htrue
        · cases hagrees
      cases write <;> simp [IoWorkload.counters, IoCounters.post, IoRequest.posting, hdirection]
  | notifyFails i transfer now reason hi hnotify =>
    rw [counts_of_error hnotify]
    rfl
  | drop i transfer now caller events received oldActive block hpc hi hnotifies =>
    simp only [IoState.counts, hnotifies, Bool.false_eq_true, if_false]
    rfl
  | _ => rfl

/-- On a platform that accepts all requests, what is handed over is submitted. -/
theorem submits_of_handsOver {r : IoRequest} (hduring : DuringWorkload config s a)
    (hsee : s.handsOver config G a = some r) (hstep : step config G s a = some t) :
    ∃ clock i rest data seed target, a = .iterate clock true ∧ s.queue.ready = i :: rest ∧
      r = (prepareEntry config s.worker (s.queue.ioaqes i) seed target
        clock.preSubmission).1.request ∧
      t = s.submit config i rest data seed target clock true := by
  obtain ⟨clock, accepted, _, _, _, _, _, rfl, _, _, hnext⟩ := handsOver_eq_some hsee
  obtain rfl : accepted = true := hduring.1
  cases step_next hstep with
  | timeout clock accepted hpc htime =>
    simp [IoState.handsOver, Int.not_le.mpr htime] at hsee
  | sentinel clock accepted hpc hready => simp [IoState.handsOver, hready] at hsee
  | stop clock accepted i rest hpc hready hlimit =>
    simp [IoState.handsOver, hready, hlimit] at hsee
  | submitFails clock accepted reason hpc hreason =>
    obtain ⟨_, hrejected, _⟩ | hsubmit := hnext _ hstep
    · cases hrejected
    · exact absurd (congrArg IoState.pc hsubmit).symm waitLoop_ne_halted
  | submit clock accepted i rest data seed target hpc htime hready hlimit hfill hassert =>
    rw [handsOver_submit hpc htime hready hlimit hfill, Option.some.injEq] at hsee
    exact ⟨clock, i, rest, data, seed, target, rfl, hready, hsee.symm, rfl⟩

/-- The fields of a workload that `ioworker` sets up or adds to itself. -/
theorem submitted_of_step (hduring : DuringWorkload config s a)
    (hstep : step config G s a = some t) :
    t.workload.submittedBytes = ((s.handsOver config G a).map IoRequest.size).toList.foldl
        (· + ·) s.workload.submittedBytes ∧
      t.workload.startTime = s.workload.startTime ∧
      t.workload.queueDepth = s.workload.queueDepth := by
  cases hsee : s.handsOver config G a with
  | some r =>
    obtain ⟨clock, i, rest, data, seed, target, rfl, _, rfl, rfl⟩ :=
      submits_of_handsOver hduring hsee hstep
    exact ⟨rfl, rfl, rfl⟩
  | none =>
    cases step_next hstep with
    | start l queue hpc hcreate => exact absurd rfl (hduring.2 l)
    | submit clock accepted i rest data seed target hpc htime hready hlimit hfill hassert =>
      rw [handsOver_submit hpc htime hready hlimit hfill] at hsee
      cases hsee
    | effect i k hi hk =>
      rw [effect_workload]
      exact ⟨rfl, rfl, rfl⟩
    | notify i transfer now caller events received oldActive block worker workload queue hpc hi
        hnotifies hnotify =>
      obtain ⟨_, ⟨_, _, _, rfl⟩ | ⟨_, _, rfl⟩⟩ := genericQueueNotify_ok hnotify
      · exact ⟨rfl, rfl, rfl⟩
      · exact ⟨rfl, rfl, rfl⟩
    | _ => exact ⟨rfl, rfl, rfl⟩

/-- A request that is handed over is in flight until its callback counts it. -/
theorem postings_of_step (hslots : SlotInv s) (hduring : DuringWorkload config s a)
    (hstep : step config G s a = some t) :
    (s.postings ++ ((s.handsOver config G a).map IoRequest.posting).toList).Perm
      (((s.counts config a).map Prod.fst).toList ++ t.postings) := by
  cases hsee : s.handsOver config G a with
  | some r =>
    obtain ⟨clock, i, rest, data, seed, target, rfl, hready, rfl, rfl⟩ :=
      submits_of_handsOver hduring hsee hstep
    have hnot := first_notMem_inflight hslots.conserved.nodup hready
    refine List.Perm.of_eq ?_
    show s.postings ++ [_] = (s.device.inflight ++ [i]).map _
    rw [List.map_append, List.map_singleton]
    congr 1
    · refine List.map_congr_left fun j hj => ?_
      have hne : j ≠ i := fun heq => hnot (heq ▸ hj)
      rw [submit_entry_of_ne hne]
    · simp [IoState.submit, IoRequest.posting]
  | none =>
    rw [Option.map_none, Option.toList_none, List.append_nil]
    cases step_next hstep with
    | start l queue hpc hcreate => exact absurd rfl (hduring.2 l)
    | submit clock accepted i rest data seed target hpc htime hready hlimit hfill hassert =>
      rw [handsOver_submit hpc htime hready hlimit hfill] at hsee
      cases hsee
    | effect i k hi hk =>
      refine List.Perm.of_eq ?_
      unfold IoState.postings
      rw [effect_inflight]
      refine List.map_congr_left fun j _ => ?_
      obtain ⟨buf, hentry⟩ := effect_entry s i k j
      rw [hentry]
      rfl
    | notify i transfer now caller events received oldActive block worker workload queue hpc hi
        hnotifies hnotify =>
      rw [counts_of_ok hnotifies hnotify]
      obtain ⟨hqueue, _⟩ := genericQueueNotify_ok hnotify
      have hrest : (s.device.inflight.erase i).map (fun j => (queue.ioaqes j).request.posting) =
          (s.device.inflight.erase i).map fun j => (s.queue.ioaqes j).request.posting := by
        refine List.map_congr_left fun j _ => ?_
        obtain ⟨now', hentry⟩ := notified_entry s.queue i now j
        rw [hqueue, hentry]
        rfl
      show s.postings.Perm ((s.queue.ioaqes i).request.posting ::
        (s.device.inflight.erase i).map fun j => (queue.ioaqes j).request.posting)
      rw [hrest]
      exact (List.perm_cons_erase hi).map _
    | notifyFails i transfer now reason hi hnotify =>
      rw [counts_of_error hnotify]
      exact List.Perm.refl _
    | drop i transfer now caller events received oldActive block hpc hi hnotifies =>
      exact (hduring.1.not_dropped hnotifies).elim
    | _ => exact List.Perm.refl _

end Steps

/-- The report that the log of a thread makes up: the completed requests in both directions, and
what `ioworker` adds to them. -/
def IoState.report (config : Config) (G : Generator GeneratorData) (s : IoState GeneratorData)
    (as : List (Action GeneratorData)) (t : IoState GeneratorData) : ThreadRun where
  reads := completionsOf false (observe (step config G) (IoState.counts config) s as)
  writes := completionsOf true (observe (step config G) (IoState.counts config) s as)
  submittedBytes := ((observe (step config G) (IoState.handsOver config G) s as).map
    IoRequest.size).sum
  startTime := s.workload.startTime
  endTime := t.workload.endTime
  queueDepth := s.workload.queueDepth
  maxActive := t.workload.maxActive
  generator := t.generator

/-- **What a thread reports.** Whatever the order of the completions, a thread that ends on a
cooperative platform leaves the workload of a run whose completed requests are those of its log,
and the log holds every request that has been handed over to the platform exactly once. -/
theorem thread_reports_log {G : Generator GeneratorData} {s t : IoState GeneratorData}
    {l : Launch GeneratorData} {queue : AsyncQueue} {as : List (Action GeneratorData)}
    (hdepth : 1 ≤ l.queueDepth)
    (hcreate : genericQueueCreate config s.worker l.queueDepth l.memory = .ok queue)
    (hrun : exec (step config G) (s.start l queue) as = some t)
    (hduring : Along (step config G) (DuringWorkload config) (s.start l queue) as)
    (hdone : t.pc = .done) :
    ((s.start l queue).report config G as t).finished = ⟨t.workload, t.generator⟩ ∧
      ((observe (step config G) (IoState.handsOver config G) (s.start l queue) as).map
          IoRequest.posting).Perm
        ((observe (step config G) (IoState.counts config) (s.start l queue) as).map Prod.fst) := by
  have hslots : SlotInv (s.start l queue) := SlotInv.start hdepth hcreate
  have hagree : CallbacksAgree (s.start l queue) := fun i hi => absurd hi List.not_mem_nil
  have hcounters : ∀ write, t.workload.counters write = IoCounters.after
      (completionsOf write (observe (step config G) (IoState.counts config)
        (s.start l queue) as)) := by
    intro write
    rw [after_completionsOf, foldl_observe (I := CallbacksAgree)
      (f := fun s => s.workload.counters write)
      (fun _ _ _ hs _ hstep => hs.of_step hstep)
      (fun _ _ _ hs hP hstep => counters_of_step hs hP.2 hstep) hagree hrun hduring]
    cases write <;> rfl
  have hbytes : t.workload.submittedBytes = ((observe (step config G) (IoState.handsOver config G)
      (s.start l queue) as).map IoRequest.size).sum := by
    rw [foldl_observe (I := fun _ => True) (f := fun s => s.workload.submittedBytes)
      (fun _ _ _ _ _ _ => trivial)
      (fun _ _ _ _ hP hstep => (submitted_of_step hP hstep).1) trivial hrun hduring, observe_map,
      List.sum_eq_foldl]
    rfl
  have hsetup : t.workload.startTime = l.now ∧ t.workload.queueDepth = l.queueDepth :=
    exec_invariant (I := fun u => u.workload.startTime = l.now ∧
        u.workload.queueDepth = l.queueDepth)
      (fun u a v hu hP hstep => by
        obtain ⟨_, hstart, hdepth⟩ := submitted_of_step hP hstep
        exact ⟨hstart.trans hu.1, hdepth.trans hu.2⟩) hrun hduring ⟨rfl, rfl⟩
  have hbalance := observe_balance (fun _ _ _ hs hP hstep => hs.of_step hP.1 hstep)
    (fun _ _ _ hs hP hstep => postings_of_step hs hP hstep) hslots hrun hduring
  have hnone : t.postings = [] := by
    have hend : SlotInv t := exec_invariant (fun _ _ _ hs hP hstep => hs.of_step hP.1 hstep)
      hrun hduring hslots
    rw [IoState.postings, hend.inflight_nil (Or.inr hdone), List.map_nil]
  rw [observe_map, observe_map, hnone, List.append_nil] at hbalance
  refine ⟨?_, hbalance⟩
  unfold ThreadRun.finished IoState.report
  rw [← hcounters false, ← hcounters true, ← hbytes]
  show FinishedWorkload.mk ⟨_, t.workload.read, t.workload.write, l.now, _, l.queueDepth, _⟩ _ = _
  rw [← hsetup.1, ← hsetup.2]

/-- The three writes with two entries make up the report of their thread. -/
theorem thread_reports_log_three_writes : ∃ t, exec (step ⟨false, .linux, 4096, true⟩ workloads)
    (pairInitial.start threeLaunch pairQueue) threeWrites = some t ∧
    ((pairInitial.start threeLaunch pairQueue).report ⟨false, .linux, 4096, true⟩ workloads
      threeWrites t).finished = ⟨t.workload, t.generator⟩ := by
  have hrun : exec (step ⟨false, .linux, 4096, true⟩ workloads)
    (pairInitial.start threeLaunch pairQueue) threeWrites = some _ := rfl
  have hcreate : genericQueueCreate ⟨false, .linux, 4096, true⟩ pairInitial.worker
    threeLaunch.queueDepth threeLaunch.memory = .ok pairQueue := rfl
  exact ⟨_, hrun, (thread_reports_log (by decide) hcreate hrun (by decide) rfl).1⟩

end DiskBench
