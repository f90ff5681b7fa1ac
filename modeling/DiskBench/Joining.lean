import DiskBench.Draining
import DiskBench.Threads

/-!
# The end of a test

`run_tests` joins its threads one after another. No thread of a test waits for another one, not even
on a shared file: each thread that has not ended can go on by itself. So the test can be brought to
its end from every state, and the actions of its threads are bounded together.
-/

namespace DiskBench

open Sharing Transition

variable {γ : Type} {config : Config} {G : Generator γ}

instance : DecidablePred Pc.BehindLoop
  | .wait caller _ _ _ _ => inferInstanceAs (Decidable (caller = .barrier))
  | .drained | .done | .halted _ => isTrue trivial
  | .idle | .head => isFalse id

/-- The invariant of a thread that has been started. -/
structure AtWork (s : IoState γ) : Prop where
  slots : SlotInv s
  started : s.pc ≠ .idle

/-- The thread has ended, with nothing in flight or with an error. -/
def IoState.Joined (s : IoState γ) : Prop :=
  s.pc.Ended ∨ s.pc = .done ∧ s.device.inflight = []

/-- A step of a workload whose time has passed: no request is handed over any more. -/
def Closing (config : Config) (s : IoState γ) (a : Action γ) : Prop :=
  DuringWorkload config s a ∧
    ∀ clock accepted, a = .iterate clock accepted → s.terminateAt < clock.now

/-- What is left to do when no request is handed over any more. -/
def IoState.closing (s : IoState γ) : ℕ := s.remaining + if s.pc.BehindLoop then 0 else 4

theorem waitLoop_ne_idle {queue : AsyncQueue} {caller : Caller} {events received : ℕ} :
    waitLoop queue caller events received ≠ .idle := by
  unfold waitLoop
  split
  · exact fun h => by cases h
  · cases caller <;> exact fun h => by cases h

theorem waitReturned_ne_idle {queue : AsyncQueue} {caller : Caller} {events received : ℕ}
    {oldActive : UInt32} {ok : Bool} :
    waitReturned config queue caller events received oldActive ok ≠ .idle := by
  unfold waitReturned
  split
  · exact fun h => by cases h
  split
  · cases caller <;> exact fun h => by cases h
  · exact waitLoop_ne_idle

/-- A thread that is at work stays at work, or it ends. -/
theorem AtWork.of_step {s t : IoState γ} {a : Action γ} (h : AtWork s)
    (hP : DuringWorkload config s a) (hstep : step config G s a = some t) : AtWork t := by
  refine ⟨h.slots.of_step hP.1 hstep, ?_⟩
  cases step_next hstep with
  | start l queue hpc hcreate => exact absurd rfl (hP.2 l)
  | startFails l reason hreason => exact absurd rfl (hP.2 l)
  | timeout clock accepted hpc htime => exact waitLoop_ne_idle
  | stop clock accepted i rest hpc hready hlimit => exact waitLoop_ne_idle
  | submit clock accepted i rest data seed target hpc htime hready hlimit hfill hassert =>
    exact waitLoop_ne_idle
  | effect i k hi hk =>
    rw [effect_pc]
    exact h.started
  | notify i transfer now caller events received oldActive block worker workload queue hpc hi
      hnotifies hnotify =>
    show afterNotify config queue s.pc caller events received oldActive ≠ .idle
    unfold afterNotify
    split
    · exact h.started
    · exact waitReturned_ne_idle
  | drop i transfer now caller events received oldActive block hpc hi hnotifies =>
    exact waitReturned_ne_idle
  | waitReturn ok caller events received oldActive block hpc hok => exact waitReturned_ne_idle
  | _ => exact fun hidle => by cases hidle

/-- A step uses up a part of what is left when no request is handed over any more. -/
theorem closing_of_step {s t : IoState γ} {a : Action γ} (h : SlotInv s)
    (hP : Closing config s a) (hstep : step config G s a = some t) :
    t.closing + 1 ≤ s.closing := by
  have hremaining := remaining_of_step hP.1.2 h.conserved.nodup hstep
  unfold IoState.closing
  by_cases hbehind : s.pc.BehindLoop
  · rw [bringsIn_behindLoop hbehind hstep] at hremaining
    rw [if_pos hbehind, if_pos (behindLoop_of_step hP.1.2 hbehind hstep)]
    omega
  · rw [if_neg hbehind]
    cases a with
    | iterate clock accepted =>
      -- The time has passed, so this pass leads to the barrier.
      have htime := hP.2 clock accepted rfl
      simp only [step, Option.ite_none_right_eq_some, Option.some.injEq] at hstep
      obtain ⟨hpc, rfl⟩ := hstep
      have hnone : s.bringsIn config G (.iterate clock accepted) = 4 := by
        simp [IoState.bringsIn, IoState.handsOver, not_le.mpr htime]
      have ht : s.iterate config G clock accepted = { s with pc := genericQueueBarrier s.queue } :=
        if_neg (not_le.mpr htime)
      rw [hnone] at hremaining
      rw [if_pos (ht ▸ waitLoop_barrier_behindLoop _ _ _)]
      omega
    | _ =>
      have hless : t.remaining + 1 ≤ s.remaining := hremaining
      split <;> omega

/-- A thread that has not ended can go on, also when its time has passed. -/
theorem AtWork.not_stuck {s : IoState γ} (h : AtWork s) (hjoined : ¬s.Joined) :
    ∃ a t, Closing config s a ∧ step config G s a = some t := by
  rw [IoState.Joined, not_or] at hjoined
  have hdone : s.pc ≠ .done := fun hdone =>
    hjoined.2 ⟨hdone, h.slots.inflight_nil (Or.inr hdone)⟩
  by_cases hhead : s.pc = .head
  · refine ⟨.iterate ⟨s.terminateAt + 1, 0, 0⟩ true, _, ⟨⟨rfl, fun l hl => by cases hl⟩, ?_⟩,
      if_pos hhead⟩
    intro clock accepted heq
    cases heq
    exact Int.lt_succ s.terminateAt
  · obtain ⟨a, t, hP, ht⟩ :=
      @DiskBench.not_stuck γ config G s h.slots h.started hdone hjoined.1
    refine ⟨a, t, ⟨hP, ?_⟩, ht⟩
    rintro clock accepted rfl
    simp only [step, Option.ite_none_right_eq_some] at ht
    exact absurd ht.1 hhead

theorem AtWork.start {s : IoState γ} {l : Launch γ} {queue : AsyncQueue}
    (hdepth : 1 ≤ l.queueDepth)
    (hcreate : genericQueueCreate config s.worker l.queueDepth l.memory = .ok queue) :
    AtWork (s.start l queue) :=
  ⟨SlotInv.start hdepth hcreate, fun h => by cases h⟩

section Threads

variable {ι φ : Type} [DecidableEq ι] [DecidableEq φ] {file : ι → φ}
  {threads threads' : ι → IoState γ} {as : List (ι × Action γ)}

/-- A file that another thread changes does not matter to the work of a thread. -/
theorem AtWork.withDisk {s : IoState γ} {disk : Memory} (h : AtWork s) :
    AtWork (s.withDisk disk) :=
  ⟨{ h.slots with }, h.started⟩

theorem atWork_of_threadsStep {act : ι × Action γ} (h : ∀ i, AtWork (threads i))
    (hP : Acting (DuringWorkload config) threads act)
    (hstep : threadsStep config G file threads act = some threads') (i : ι) :
    AtWork (threads' i) :=
  thread_invariant (fun _ _ hs => hs.withDisk) (fun _ _ _ hs hP hstep => hs.of_step hP hstep) (h i)
    hP hstep

/-- What a thread can do by itself it can do among the others. -/
theorem threadsStep_isSome (file : ι → φ) {i : ι} {a : Action γ} {t : IoState γ}
    (hstep : step config G (threads i) a = some t) :
    ∃ threads', threadsStep config G file threads (i, a) = some threads' := by
  apply Option.isSome_iff_exists.mp
  rw [threadsStep, together, hstep]
  rfl

/-- What is left to do to all threads is used up by the one that acts. -/
theorem threadsStep_sum_le [Fintype ι] {μ : IoState γ → ℕ} {n : ℕ} {act : ι × Action γ}
    (hdisk : ∀ s disk, μ (s.withDisk disk) = μ s)
    (hown : ∀ t, step config G (threads act.1) act.2 = some t →
      μ t + 1 ≤ μ (threads act.1) + n)
    (hstep : threadsStep config G file threads act = some threads') :
    ∑ i, μ (threads' i) + 1 ≤ ∑ i, μ (threads i) + n :=
  sum_measure_le hdisk hown hstep

theorem atWork_of_exec (h : ∀ i, AtWork (threads i))
    (hrun : exec (threadsStep config G file) threads as = some threads')
    (hduring : Along (threadsStep config G file) (Acting (DuringWorkload config)) threads as) :
    ∀ i, AtWork (threads' i) :=
  exec_invariant (I := fun threads : ι → IoState γ => ∀ i, AtWork (threads i))
    (fun _ _ _ h hP hstep => atWork_of_threadsStep h hP hstep) hrun hduring h

/-- The actions of the threads use up what is left to do at first and what the requests bring in. -/
theorem length_le_of_threads [Fintype ι] (h : ∀ i, AtWork (threads i))
    (hrun : exec (threadsStep config G file) threads as = some threads')
    (hduring : Along (threadsStep config G file) (Acting (DuringWorkload config)) threads as) :
    as.length ≤ ∑ i, (threads i).remaining + (4 * as.countP (fun act => act.2.isPass) +
      ((observe (threadsStep config G file)
        (fun threads act => (threads act.1).handsOver config G act.2) threads as).map
          IoRequest.sectors).sum) := by
  have hlength := length_add_le (I := fun threads : ι → IoState γ => ∀ i, AtWork (threads i))
    (μ := fun threads => ∑ i, (threads i).remaining)
    (f := fun threads act => (threads act.1).bringsIn config G act.2)
    (fun _ _ _ h hP hstep => atWork_of_threadsStep h hP hstep)
    (fun _ act _ h hP hstep => threadsStep_sum_le (μ := IoState.remaining) (fun _ _ => rfl)
      (fun _ ht => remaining_of_step hP.2 (h act.1).slots.conserved.nodup ht) hstep)
    h hrun hduring
  rw [gain_eq_observe (fun threads act => bringsIn_eq (threads act.1) act.2) hrun] at hlength
  exact (Nat.le_add_right _ _).trans hlength

/-- A thread that has not ended can go on among the others, also when its time has passed. -/
theorem AtWork.threads_not_stuck (file : ι → φ) {i : ι} (h : AtWork (threads i))
    (hjoined : ¬(threads i).Joined) :
    ∃ a threads', Closing config (threads i) a ∧
      threadsStep config G file threads (i, a) = some threads' := by
  obtain ⟨a, t, hP, ht⟩ := h.not_stuck hjoined
  obtain ⟨threads', hthreads⟩ := threadsStep_isSome file ht
  exact ⟨a, threads', hP, hthreads⟩

/-- When the time of all threads has passed they come to their end. -/
theorem reaches_joined [Fintype ι] (h : ∀ i, AtWork (threads i)) :
    ∃ threads', Reaches (threadsStep config G file) (Acting (DuringWorkload config)) threads
      threads' ∧ ∀ i, (threads' i).Joined := by
  have hless : ∀ (threads : ι → IoState γ) act threads', (∀ i, AtWork (threads i)) →
      Acting (Closing config) threads act →
      threadsStep config G file threads act = some threads' →
      ∑ i, (threads' i).closing < ∑ i, (threads i).closing := fun _ act _ h hP hstep =>
    threadsStep_sum_le (μ := IoState.closing) (n := 0) (fun _ _ => rfl)
      (fun _ ht => closing_of_step (h act.1).slots hP ht) hstep
  obtain ⟨threads', hreach, hmax⟩ :=
    exists_maximal (I := fun threads : ι → IoState γ => ∀ i, AtWork (threads i))
      (fun _ _ _ h hP hstep => atWork_of_threadsStep h hP.1 hstep) hless h
  have hend := hreach.invariant (I := fun threads : ι → IoState γ => ∀ i, AtWork (threads i))
    (fun _ _ _ h hP hstep => atWork_of_threadsStep h hP.1 hstep) h
  refine ⟨threads', hreach.mono fun _ _ hP => hP.1, fun i => ?_⟩
  by_contra hjoined
  obtain ⟨a, u, hP, hu⟩ := (hend i).threads_not_stuck file hjoined
  rw [hmax (i, a) hP] at hu
  cases hu

/-- **The end of a test.** The threads of a test run in any interleaving on any files, on a
cooperative platform. All their actions together are bounded by the passes through their loops and
the sectors of the requests that they hand over. At any time each thread has ended, or it can go on
by itself whatever the other threads do. And from every state the test can be brought to its end,
where all threads are joined. A wait that failed in the barrier would end a thread with requests in
flight. -/
theorem threads_join [Fintype ι] {s : ι → IoState γ} {l : ι → Launch γ}
    {queue : ι → AsyncQueue} (hdepth : ∀ i, 1 ≤ (l i).queueDepth)
    (hcreate : ∀ i, genericQueueCreate config (s i).worker (l i).queueDepth (l i).memory =
      .ok (queue i))
    (hrun : exec (threadsStep config G file) (fun i => (s i).start (l i) (queue i)) as =
      some threads)
    (hduring : Along (threadsStep config G file) (Acting (DuringWorkload config))
      (fun i => (s i).start (l i) (queue i)) as) :
    as.length ≤ Fintype.card ι + 4 * as.countP (fun act => act.2.isPass) +
        ((observe (threadsStep config G file)
          (fun threads act => (threads act.1).handsOver config G act.2)
          (fun i => (s i).start (l i) (queue i)) as).map IoRequest.sectors).sum ∧
      (∀ i, (threads i).Joined ∨ ∃ a threads', DuringWorkload config (threads i) a ∧
        threadsStep config G file threads (i, a) = some threads') ∧
      ∃ threads', Reaches (threadsStep config G file) (Acting (DuringWorkload config)) threads
        threads' ∧ ∀ i, (threads' i).Joined := by
  have hstart : ∀ i, AtWork ((s i).start (l i) (queue i)) := fun i =>
    AtWork.start (hdepth i) (hcreate i)
  have hatWork := atWork_of_exec hstart hrun hduring
  refine ⟨?_, fun i => ?_, reaches_joined hatWork⟩
  · have hlength := length_le_of_threads hstart hrun hduring
    have hone : ∑ i, ((s i).start (l i) (queue i)).remaining = Fintype.card ι :=
      (Finset.card_eq_sum_ones Finset.univ).symm
    rwa [hone, ← Nat.add_assoc] at hlength
  · by_cases hjoined : (threads i).Joined
    · exact Or.inl hjoined
    · obtain ⟨a, threads', hP, hthreads⟩ := (hatWork i).threads_not_stuck file hjoined
      exact Or.inr ⟨a, threads', hP.1, hthreads⟩

end Threads

/-- The twenty actions of two threads with two writes each on the same file. -/
theorem threads_join_pair : ((pairRun 0 1).flatMap fun a => [(true, a), (false, a)]).length ≤
    2 + 4 * ((pairRun 0 1).flatMap fun a => [(true, a), (false, a)]).countP
      (fun act => act.2.isPass) +
      ((observe (threadsStep ⟨false, .linux, 4096, true⟩ workloads fun _ : Bool => ())
        (fun threads act =>
          (threads act.1).handsOver ⟨false, .linux, 4096, true⟩ workloads act.2)
        (fun _ => pairStart) ((pairRun 0 1).flatMap fun a => [(true, a), (false, a)])).map
          IoRequest.sectors).sum := by
  have hrun : exec (threadsStep ⟨false, .linux, 4096, true⟩ workloads fun _ : Bool => ())
    (fun _ => pairStart) ((pairRun 0 1).flatMap fun a => [(true, a), (false, a)]) = some _ := rfl
  have hcreate : genericQueueCreate ⟨false, .linux, 4096, true⟩ pairInitial.worker
    pairLaunch.queueDepth pairLaunch.memory = .ok pairQueue := rfl
  exact (threads_join (fun _ => by decide) (fun _ => hcreate) hrun (by decide)).1

end DiskBench
