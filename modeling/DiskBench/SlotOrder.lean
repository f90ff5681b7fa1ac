import DiskBench.Foundations.Rotation
import DiskBench.Reproducible
import DiskBench.Sequential

/-!
# The order of the queue entries

The loop of `ioworker` takes an entry from the front of the ring, and `generic_queue_notify` puts it
back at the end. So an entry rests for as long as possible before its buffer is used again, and on a
device that completes the requests in order the entries are used in turn.
-/

namespace DiskBench

open Rotation Transition

variable {γ : Type} {config : Config} {G : Generator γ}

/-- The entry that a step takes from the ring to submit it. -/
def IoState.takesEntry (config : Config) (G : Generator γ) (s : IoState γ) (a : Action γ) :
    Option ℕ :=
  if (s.handsOver config G a).isSome then s.queue.ready.head? else none

/-- The entry that a step puts back into the ring after its request has completed. -/
def IoState.givesEntry (config : Config) (s : IoState γ) : Action γ → Option ℕ
  | .reap i transfer now =>
    if config.platform.notifies transfer then
      match genericQueueNotify config s.worker s.workload s.queue i now with
      | .ok _ => some i
      | .error _ => none
    else none
  | _ => none

/-- Behind the loop of `ioworker` no entry is taken any more. -/
def Pc.BehindLoop : Pc → Prop
  | .wait caller _ _ _ _ => caller = .barrier
  | .drained | .done | .halted _ => True
  | .idle | .head => False

theorem waitLoop_barrier_behindLoop (queue : AsyncQueue) (events received : ℕ) :
    (waitLoop queue .barrier events received).BehindLoop := by
  unfold waitLoop
  split
  · exact rfl
  · trivial

theorem waitReturned_barrier_behindLoop {queue : AsyncQueue} {events received : ℕ}
    {oldActive : UInt32} {ok : Bool} :
    (waitReturned config queue .barrier events received oldActive ok).BehindLoop := by
  unfold waitReturned
  split
  · trivial
  split
  · trivial
  · exact waitLoop_barrier_behindLoop _ _ _

/-- The thread does not come back to the loop without a new workload. -/
theorem behindLoop_of_step {s t : IoState γ} {a : Action γ} (hlaunch : ∀ l, a ≠ .launch l)
    (h : s.pc.BehindLoop) (hstep : step config G s a = some t) : t.pc.BehindLoop := by
  cases step_next hstep with
  | start l queue hpc hcreate => exact absurd rfl (hlaunch l)
  | startFails l reason hreason => trivial
  | timeout clock accepted hpc htime => exact waitLoop_barrier_behindLoop _ _ _
  | sentinel clock accepted hpc hready => trivial
  | stop clock accepted i rest hpc hready hlimit => exact waitLoop_barrier_behindLoop _ _ _
  | submitFails clock accepted reason hpc hreason => trivial
  | submit clock accepted i rest data seed target hpc htime hready hlimit hfill hassert =>
    rw [hpc] at h
    exact h.elim
  | effect i k hi hk =>
    rw [effect_pc]
    exact h
  | notify i transfer now caller events received oldActive block worker workload queue hpc hi
      hnotifies hnotify =>
    rw [hpc] at h
    obtain rfl : caller = .barrier := h
    show (afterNotify config queue s.pc .barrier events received oldActive).BehindLoop
    unfold afterNotify
    split
    · rw [hpc]
      exact rfl
    · exact waitReturned_barrier_behindLoop
  | notifyFails i transfer now reason hi hnotify => trivial
  | drop i transfer now caller events received oldActive block hpc hi hnotifies =>
    rw [hpc] at h
    obtain rfl : caller = .barrier := h
    exact waitReturned_barrier_behindLoop
  | waitReturn ok caller events received oldActive block hpc hok =>
    rw [hpc] at h
    obtain rfl : caller = .barrier := h
    exact waitReturned_barrier_behindLoop
  | finish now hpc => trivial

/-- Only at the head of the loop an entry is taken. -/
theorem takesEntry_eq_none {s : IoState γ} (a : Action γ) (h : s.pc.BehindLoop) :
    s.takesEntry config G a = none := by
  have hpc : s.pc ≠ .head := fun heq => by
    rw [heq] at h
    exact h
  unfold IoState.takesEntry
  cases a <;> simp [IoState.handsOver, hpc]

/-- A submission hands over the request that has been prepared. -/
theorem handsOver_submit {s : IoState γ} {clock : Clock} {accepted : Bool} {i : ℕ}
    {rest : List ℕ} {data : γ} {seed : UInt64} {target : Target} (hpc : s.pc = .head)
    (htime : clock.now ≤ s.terminateAt) (hready : s.queue.ready = i :: rest)
    (hlimit : s.workload.submittedBytes + (s.queue.ioaqes i).request.size ≤ s.worker.iolimit)
    (hfill : G.fillRequest s.generator s.worker.filesize s.worker.randomSeed =
      some (data, seed, target)) :
    s.handsOver config G (.iterate clock accepted) =
      some (prepareEntry config s.worker (s.queue.ioaqes i) seed target
        clock.preSubmission).1.request := by
  have hnot : ¬s.worker.iolimit < s.workload.submittedBytes + (s.queue.ioaqes i).request.size :=
    UInt64.not_lt.mpr hlimit
  simp [IoState.handsOver, hpc, htime, hready, hnot, hfill]

/-- The entry that is submitted is taken from the front of the ring. -/
theorem takesEntry_submit {s : IoState γ} {clock : Clock} {accepted : Bool} {i : ℕ}
    {rest : List ℕ} {data : γ} {seed : UInt64} {target : Target} (hpc : s.pc = .head)
    (htime : clock.now ≤ s.terminateAt) (hready : s.queue.ready = i :: rest)
    (hlimit : s.workload.submittedBytes + (s.queue.ioaqes i).request.size ≤ s.worker.iolimit)
    (hfill : G.fillRequest s.generator s.worker.filesize s.worker.randomSeed =
      some (data, seed, target)) :
    s.takesEntry config G (.iterate clock accepted) = some i := by
  rw [IoState.takesEntry, handsOver_submit hpc htime hready hlimit hfill, hready]
  rfl

/-- An entry that is taken is the first one. -/
theorem takesEntry_front (s : IoState γ) (a : Action γ) :
    (s.takesEntry config G a).toList <+: s.queue.ready := by
  unfold IoState.takesEntry
  split
  · cases s.queue.ready with
    | nil => exact List.nil_prefix
    | cons i rest => exact ⟨rest, rfl⟩
  · exact List.nil_prefix

/-- A step moves the entries as it is observed, or the thread takes no entry any more. -/
theorem entries_of_step {s t : IoState γ} {a : Action γ} (hlaunch : ∀ l, a ≠ .launch l)
    (hstep : step config G s a = some t) :
    t.pc.BehindLoop ∨
      s.queue.ready ++ (s.givesEntry config a).toList =
        (s.takesEntry config G a).toList ++ t.queue.ready := by
  cases step_next hstep with
  | start l queue hpc hcreate => exact absurd rfl (hlaunch l)
  | startFails l reason hreason => exact Or.inl trivial
  | timeout clock accepted hpc htime => exact Or.inl (waitLoop_barrier_behindLoop _ _ _)
  | sentinel clock accepted hpc hready => exact Or.inl trivial
  | stop clock accepted i rest hpc hready hlimit =>
    exact Or.inl (waitLoop_barrier_behindLoop _ _ _)
  | submitFails clock accepted reason hpc hreason => exact Or.inl trivial
  | submit clock accepted i rest data seed target hpc htime hready hlimit hfill hassert =>
    refine Or.inr ?_
    rw [takesEntry_submit hpc htime hready hlimit hfill, hready]
    exact List.append_nil _
  | effect i k hi hk =>
    refine Or.inr ?_
    obtain ⟨buf, hqueue⟩ := effect_queue s i k
    rw [hqueue]
    exact List.append_nil _
  | notify i transfer now caller events received oldActive block worker workload queue hpc hi
      hnotifies hnotify =>
    refine Or.inr ?_
    simp only [IoState.givesEntry, hnotifies, if_true, hnotify]
    rw [(genericQueueNotify_ok hnotify).1]
    rfl
  | notifyFails i transfer now reason hi hnotify => exact Or.inl trivial
  | drop i transfer now caller events received oldActive block hpc hi hnotifies =>
    refine Or.inr ?_
    simp only [IoState.givesEntry, hnotifies]
    exact List.append_nil _
  | waitReturn ok caller events received oldActive block hpc hok => exact Or.inr (List.append_nil _)
  | finish now hpc => exact Or.inl trivial

/-- The ring of ready entries rotates during a workload. -/
theorem rotates (config : Config) (G : Generator γ) :
    Rotates (step config G) (fun _ a => ∀ l, a ≠ .launch l) (fun s => s.queue.ready)
      (IoState.takesEntry config G) (IoState.givesEntry config) fun s => s.pc.BehindLoop where
  front s a _ _ _ := takesEntry_front s a
  moves _ _ _ hlaunch hstep := entries_of_step hlaunch hstep
  ended _ a _ hlaunch hended hstep :=
    ⟨takesEntry_eq_none a hended, behindLoop_of_step hlaunch hended hstep⟩

/-- The process has ended. -/
def Pc.Ended (pc : Pc) : Prop := ∃ reason, pc = .halted reason

/-- The first of the requests in flight is the one that completes. -/
theorem givesEntry_front {s : IoState γ} {a : Action γ} (horder : CompletesInOrder s a) :
    (s.givesEntry config a).toList <+: s.device.inflight := by
  cases a with
  | reap i transfer now =>
    obtain ⟨rest, hinflight⟩ := List.head?_eq_some_iff.mp horder
    rw [hinflight, IoState.givesEntry]
    split
    · split
      · exact ⟨rest, rfl⟩
      · exact List.nil_prefix
    · exact List.nil_prefix
  | _ => exact List.nil_prefix

/-- The requests in flight are joined by what is taken from the ring, and left by what goes back. -/
theorem inflight_of_step {s t : IoState γ} {a : Action γ} (hduring : DuringWorkload config s a)
    (horder : CompletesInOrder s a) (hstep : step config G s a = some t) :
    t.pc.Ended ∨ s.device.inflight ++ (s.takesEntry config G a).toList =
      (s.givesEntry config a).toList ++ t.device.inflight := by
  cases step_next hstep with
  | start l queue hpc hcreate => exact absurd rfl (hduring.2 l)
  | startFails l reason hreason => exact Or.inl ⟨reason, rfl⟩
  | timeout clock accepted hpc htime =>
    refine Or.inr ?_
    simp [IoState.takesEntry, IoState.handsOver, IoState.givesEntry, hpc, Int.not_le.mpr htime]
  | sentinel clock accepted hpc hready => exact Or.inl ⟨_, rfl⟩
  | stop clock accepted i rest hpc hready hlimit =>
    refine Or.inr ?_
    simp [IoState.takesEntry, IoState.handsOver, IoState.givesEntry, hready, hlimit, IoState.stop]
  | submitFails clock accepted reason hpc hreason => exact Or.inl ⟨reason, rfl⟩
  | submit clock accepted i rest data seed target hpc htime hready hlimit hfill hassert =>
    obtain rfl : accepted = true := hduring.1
    refine Or.inr ?_
    rw [takesEntry_submit hpc htime hready hlimit hfill]
    rfl
  | effect i k hi hk =>
    refine Or.inr ?_
    rw [effect_inflight]
    exact List.append_nil _
  | notify i transfer now caller events received oldActive block worker workload queue hpc hi
      hnotifies hnotify =>
    obtain ⟨rest, hinflight⟩ := List.head?_eq_some_iff.mp horder
    refine Or.inr ?_
    simp only [IoState.givesEntry, hnotifies, if_true, hnotify]
    show s.device.inflight ++ [] = [i] ++ s.device.inflight.erase i
    rw [hinflight, List.erase_cons_head, List.append_nil]
    rfl
  | notifyFails i transfer now reason hi hnotify => exact Or.inl ⟨reason, rfl⟩
  | drop i transfer now caller events received oldActive block hpc hi hnotifies =>
    exact (hduring.1.not_dropped hnotifies).elim
  | waitReturn ok caller events received oldActive block hpc hok => exact Or.inr (List.append_nil _)
  | finish now hpc => exact Or.inr (List.append_nil _)

/-- After the end of the process nothing is given back. -/
theorem ended_of_step {s t : IoState γ} {a : Action γ} (hlaunch : ∀ l, a ≠ .launch l)
    (h : s.pc.Ended) (hstep : step config G s a = some t) :
    s.givesEntry config a = none ∧ t.pc.Ended := by
  obtain ⟨reason, hpc⟩ := h
  cases a with
  | launch l => exact absurd rfl (hlaunch l)
  | effect i k =>
    simp only [step, Option.ite_none_right_eq_some, Option.some.injEq] at hstep
    obtain ⟨_, rfl⟩ := hstep
    exact ⟨rfl, reason, (effect_pc s i k).trans hpc⟩
  | _ => simp [step, hpc] at hstep

/-- The requests in flight rotate too when they complete in order. -/
theorem inflight_rotates (config : Config) (G : Generator γ) :
    Rotates (step config G) (fun s a => DuringWorkload config s a ∧ CompletesInOrder s a)
      (fun s => s.device.inflight) (IoState.givesEntry config) (IoState.takesEntry config G)
      fun s => s.pc.Ended where
  front _ _ _ hP _ := givesEntry_front hP.2
  moves _ _ _ hP hstep := inflight_of_step hP.1 hP.2 hstep
  ended _ _ _ hP hended hstep := ended_of_step hP.1.2 hended hstep

/-- **Entries in turn.** Whatever the platform does, the entries that a workload submits are at
first those of the new ring, and then those that have been given back, in the order in which they
have been given back. If the platform accepts all requests and completes them in the order of their
submission, request `n` uses entry `n` modulo the queue depth. -/
theorem entries_in_turn {s t : IoState γ} {l : Launch γ} {queue : AsyncQueue}
    {as : List (Action γ)}
    (hcreate : genericQueueCreate config s.worker l.queueDepth l.memory = .ok queue)
    (hone : ∀ l, .launch l ∉ as) (hrun : exec (step config G) (s.start l queue) as = some t) :
    observe (step config G) (IoState.takesEntry config G) (s.start l queue) as <+:
        List.range l.queueDepth.toInt.toNat ++
          observe (step config G) (IoState.givesEntry config) (s.start l queue) as ∧
      (1 ≤ l.queueDepth → Along (step config G) (DuringWorkload config) (s.start l queue) as →
        Along (step config G) CompletesInOrder (s.start l queue) as →
        ∀ n < (observe (step config G) (IoState.takesEntry config G) (s.start l queue) as).length,
          (observe (step config G) (IoState.takesEntry config G) (s.start l queue) as)[n]? =
            some (n % l.queueDepth.toInt.toNat)) := by
  have hready : (s.start l queue).queue.ready = List.range l.queueDepth.toInt.toNat := by
    obtain ⟨bufsize, rfl⟩ := genericQueueCreate_ok hcreate
    rfl
  have htaken := (rotates config G).observe_takes hrun
    (along_of_forall fun a ha _ l hl => hone l (hl ▸ ha))
  rw [hready] at htaken
  refine ⟨htaken, fun hdepth hduring horder n hn => ?_⟩
  have hpos := one_le_iff_toInt.mp hdepth
  have hgiven : observe (step config G) (IoState.givesEntry config) (s.start l queue) as <+:
      observe (step config G) (IoState.takesEntry config G) (s.start l queue) as :=
    (inflight_rotates config G).observe_takes hrun (along_and.mpr ⟨hduring, horder⟩)
  have hring : List.range l.queueDepth.toInt.toNat ≠ [] := by
    rw [Ne, List.range_eq_nil]
    omega
  rw [getElem?_eq_mod hring htaken hgiven hn, List.length_range, List.getElem?_range]
  exact Nat.mod_lt _ (by omega)

/-- A sequential write of three sectors with two entries. -/
def threeLaunch : Launch GeneratorData :=
  { pairLaunch with filesize := 1536, iolimit := 1536 }

/-- The first two requests complete in order, and the third one follows. -/
def threeWrites : List (Action GeneratorData) :=
  [.iterate ⟨1, 1, 1⟩ true, .waitReturn true, .iterate ⟨2, 2, 2⟩ true, .effect 0 0, .effect 1 0,
    .reap 0 .full 3, .reap 1 .full 4, .waitReturn true, .iterate ⟨5, 5, 5⟩ true, .effect 0 0,
    .reap 0 .full 6, .waitReturn true, .iterate ⟨7, 7, 7⟩ true, .finish 8]

/-- The third request uses the first entry again. -/
theorem entries_in_turn_three_writes :
    (observe (step ⟨false, .linux, 4096, true⟩ workloads)
      (IoState.takesEntry ⟨false, .linux, 4096, true⟩ workloads)
      (pairInitial.start threeLaunch pairQueue) threeWrites)[2]? = some 0 := by
  have hrun : exec (step ⟨false, .linux, 4096, true⟩ workloads)
    (pairInitial.start threeLaunch pairQueue) threeWrites = some _ := rfl
  have hcreate : genericQueueCreate ⟨false, .linux, 4096, true⟩ pairInitial.worker
    threeLaunch.queueDepth threeLaunch.memory = .ok pairQueue := rfl
  exact (entries_in_turn hcreate (by simp [threeWrites]) hrun).2 (by decide) (by decide)
    (by decide) 2 (by decide)

end DiskBench
