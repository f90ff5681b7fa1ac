import Mathlib.Algebra.Order.BigOperators.Group.List
import Mathlib.Algebra.Order.Group.Nat
import Mathlib.Data.Finset.Card
import Mathlib.Data.Finset.Range
import DiskBench.Foundations.Measure
import DiskBench.SlotOrder

/-!
# The work that is left to a workload

Between two passes through the loop of `ioworker` the device serves sectors, `queue_wait` handles
completions and the waiting loop goes on. All of this uses up what the requests in flight have left
to do. So the thread never spins, the barrier is left after a bounded number of actions, and it is
never stuck on a cooperative platform.
-/

namespace DiskBench

open Transition

variable {γ : Type} {config : Config} {G : Generator γ}

/-- The sectors of the request of entry `i` that have not taken effect. -/
def IoState.unserved (s : IoState γ) (i : ℕ) : Finset ℕ :=
  (Finset.range (s.queue.ioaqes i).request.sectors).filter fun k => s.device.served i k = false

/-- What the requests in flight have left to do, at least two actions for each of them. -/
def IoState.pending (s : IoState γ) : ℕ :=
  (s.device.inflight.map fun i => (s.unserved i).card + 2).sum

/-- What a thread has left to do on its way to the next pass or to its end, with a number of active
entries. -/
def Pc.ahead (active : UInt32) : Pc → ℕ
  | .wait _ _ _ oldActive _ => if active = oldActive then 2 else 3
  | .head | .drained => 1
  | .idle | .done | .halted _ => 0

/-- An upper bound on the number of actions up to the next pass. -/
def IoState.remaining (s : IoState γ) : ℕ := s.pending + s.pc.ahead s.queue.active

/-- What a pass through the loop brings in: the sectors of the request that it hands over, and four
actions. -/
def IoState.bringsIn (config : Config) (G : Generator γ) (s : IoState γ) : Action γ → ℕ
  | .iterate clock accepted =>
    4 + ((s.handsOver config G (.iterate clock accepted)).map IoRequest.sectors).getD 0
  | _ => 0

section Ahead

variable {queue : AsyncQueue} {caller : Caller} {events received : ℕ} {oldActive active : UInt32}
  {block ok : Bool}

theorem waitLoop_ahead : (waitLoop queue caller events received).ahead queue.active ≤ 2 := by
  unfold waitLoop
  split
  · simp [Pc.ahead]
  · cases caller <;> simp [Pc.ahead, Caller.resume]

theorem wait_ahead : 2 ≤ (Pc.wait caller events received oldActive block).ahead active ∧
    (Pc.wait caller events received oldActive block).ahead active ≤ 3 := by
  simp only [Pc.ahead]
  split <;> omega

/-- A return of `queue_wait` uses up a part of the way. -/
theorem waitReturned_ahead :
    (waitReturned config queue caller events received oldActive ok).ahead queue.active <
      (Pc.wait caller events received oldActive block).ahead queue.active := by
  have hwait := (@wait_ahead caller events received oldActive queue.active block).1
  unfold waitReturned
  split
  · exact Nat.lt_of_lt_of_le Nat.two_pos hwait
  split
  · cases caller <;> exact Nat.lt_of_lt_of_le Nat.one_lt_two hwait
  · rename_i hprogress
    have hne : queue.active ≠ oldActive := by
      intro heq
      exact hprogress (by rw [heq, UInt32.sub_self])
    have hloop := @waitLoop_ahead queue caller events
      (received + (oldActive - queue.active).toNat)
    rw [Pc.ahead, if_neg hne]
    omega

/-- A notification leaves at most one action more on the way. -/
theorem afterNotify_ahead :
    (afterNotify config queue (.wait caller events received oldActive block) caller events received
      oldActive).ahead queue.active ≤ 3 := by
  have hwait := (@wait_ahead caller events received oldActive queue.active block).2
  unfold afterNotify
  split
  · exact hwait
  · exact (Nat.le_of_lt waitReturned_ahead).trans hwait

end Ahead

/-- A sector that takes effect is not left any more. -/
theorem effect_unserved {s : IoState γ} {i k : ℕ} (j : ℕ) :
    (s.effect i k).unserved j ⊆ s.unserved j ∧ k ∉ (s.effect i k).unserved i := by
  obtain ⟨buf, hentry⟩ := effect_entry s i k j
  have hserved : ∀ j n, (s.effect i k).device.served j n = true ↔
      s.device.served j n = true ∨ j = i ∧ n = k := by
    intro j n
    rw [effect_served]
    exact Device.serve_eq_true_iff i k
  constructor
  · intro n hn
    simp only [IoState.unserved, hentry, Finset.mem_filter, Finset.mem_range] at hn ⊢
    refine ⟨hn.1, ?_⟩
    by_contra htrue
    have hafter := (hserved j n).mpr (Or.inl (by simpa using htrue))
    rw [hn.2] at hafter
    cases hafter
  · intro hk
    have hfalse := (Finset.mem_filter.mp hk).2
    rw [(hserved i k).mpr (Or.inr ⟨rfl, rfl⟩)] at hfalse
    cases hfalse

theorem effect_pending {s : IoState γ} {i k : ℕ} (hi : i ∈ s.device.inflight)
    (hk : k < (s.queue.ioaqes i).request.sectors) (hserved : ¬s.device.served i k) :
    (s.effect i k).pending < s.pending := by
  unfold IoState.pending
  rw [effect_inflight]
  apply List.sum_lt_sum
  · intro j _
    exact Nat.add_le_add_right (Finset.card_le_card (effect_unserved j).1) 2
  · refine ⟨i, hi, Nat.add_lt_add_right (Finset.card_lt_card ?_) 2⟩
    refine ⟨(effect_unserved i).1, fun hsub => (effect_unserved i).2 (hsub ?_)⟩
    exact Finset.mem_filter.mpr ⟨Finset.mem_range.mpr hk, by simpa using hserved⟩

/-- A request that is delivered has nothing left to do. -/
theorem pending_erase {s t : IoState γ} {i : ℕ} (hi : i ∈ s.device.inflight)
    (hinflight : t.device.inflight = s.device.inflight.erase i)
    (hserved : t.device.served = s.device.served)
    (hsize : ∀ j, (t.queue.ioaqes j).request.size = (s.queue.ioaqes j).request.size) :
    t.pending + 2 ≤ s.pending := by
  have hsame : ∀ j, t.unserved j = s.unserved j := by
    intro j
    unfold IoState.unserved IoRequest.sectors
    rw [hsize, hserved]
  have hsum := List.sum_map_erase (fun j => (s.unserved j).card + 2) hi
  unfold IoState.pending
  simp only [hinflight, hsame]
  omega

/-- A submission brings in the sectors of its request. -/
theorem submit_pending {s : IoState γ} {clock : Clock} {accepted : Bool} {i : ℕ} {rest : List ℕ}
    {data : γ} {seed : UInt64} {target : Target} (hpc : s.pc = .head)
    (htime : clock.now ≤ s.terminateAt) (hready : s.queue.ready = i :: rest)
    (hnot : i ∉ s.device.inflight)
    (hlimit : s.workload.submittedBytes + (s.queue.ioaqes i).request.size ≤ s.worker.iolimit)
    (hfill : G.fillRequest s.generator s.worker.filesize s.worker.randomSeed =
      some (data, seed, target)) :
    (s.submit config i rest data seed target clock accepted).pending + 2 ≤
      s.pending + s.bringsIn config G (.iterate clock accepted) := by
  set t := s.submit config i rest data seed target clock accepted with ht
  have hbrings : s.bringsIn config G (.iterate clock accepted) =
      4 + (t.queue.ioaqes i).request.sectors := by
    rw [IoState.bringsIn, handsOver_submit hpc htime hready hlimit hfill, IoRequest.sectors, ht,
      submit_entry_self.2.2.1]
    simp [IoRequest.sectors]
  have hsame : ∀ j ∈ s.device.inflight, (t.unserved j).card + 2 = (s.unserved j).card + 2 := by
    intro j hj
    have hne : j ≠ i := fun heq => hnot (heq ▸ hj)
    have hserved : t.device.served j = s.device.served j := by
      cases accepted with
      | true => exact Function.update_of_ne hne ..
      | false => rfl
    unfold IoState.unserved
    rw [hserved, ht, submit_entry_of_ne hne]
  have hown : (t.unserved i).card ≤ (t.queue.ioaqes i).request.sectors := by
    refine (Finset.card_filter_le _ _).trans ?_
    rw [Finset.card_range]
  rw [hbrings]
  unfold IoState.pending
  cases accepted with
  | true =>
    have hinflight : t.device.inflight = s.device.inflight ++ [i] := rfl
    rw [hinflight, List.map_append, List.sum_append, List.map_congr_left hsame, List.map_singleton,
      List.sum_singleton]
    omega
  | false =>
    have hinflight : t.device.inflight = s.device.inflight := rfl
    rw [hinflight, List.map_congr_left hsame]
    omega

/-- A pass brings in what it adds. -/
theorem iterate_remaining {s t : IoState γ} {clock : Clock} {accepted : Bool}
    (hpc : s.pc = .head) (hnodup : (s.queue.ready ++ s.device.inflight).Nodup)
    (hnext : Next config G s (.iterate clock accepted) t) :
    t.remaining + 1 ≤ s.remaining + s.bringsIn config G (.iterate clock accepted) := by
  have hfour : 4 ≤ s.bringsIn config G (.iterate clock accepted) := Nat.le_add_right 4 _
  have hahead : s.pc.ahead s.queue.active = 1 := by rw [hpc]; rfl
  cases hnext with
  | timeout _ _ _ htime =>
    have hloop := @waitLoop_ahead s.queue .barrier s.queue.active.toNat 0
    show s.pending + (genericQueueBarrier s.queue).ahead s.queue.active + 1 ≤ _
    rw [IoState.remaining, genericQueueBarrier]
    omega
  | sentinel _ _ _ hready =>
    show s.pending + 0 + 1 ≤ _
    rw [IoState.remaining]
    omega
  | stop _ _ i rest _ hready hlimit =>
    have hloop : (waitLoop (({ s.queue with ready := rest }).insertTail i) .barrier
      s.queue.active.toNat 0).ahead s.queue.active ≤ 2 := waitLoop_ahead
    show s.pending + (waitLoop (({ s.queue with ready := rest }).insertTail i) .barrier
      s.queue.active.toNat 0).ahead s.queue.active + 1 ≤ _
    rw [IoState.remaining]
    omega
  | submitFails _ _ reason _ hreason =>
    show s.pending + 0 + 1 ≤ _
    rw [IoState.remaining]
    omega
  | submit _ _ i rest data seed target _ htime hready hlimit hfill hassert =>
    have hnot := first_notMem_inflight hnodup hready
    have hpending := @submit_pending γ config G s clock accepted i rest data seed target hpc htime
      hready hnot hlimit hfill
    have hloop := @waitLoop_ahead
      (s.submit config i rest data seed target clock accepted).queue .ioworker 0 0
    show (s.submit config i rest data seed target clock accepted).pending +
      (waitLoop (s.submit config i rest data seed target clock accepted).queue .ioworker 0 0).ahead
        (s.submit config i rest data seed target clock accepted).queue.active + 1 ≤ _
    rw [IoState.remaining, hahead]
    omega

/-- A completion that is handled or dropped uses up a request. -/
theorem reap_remaining {s t : IoState γ} {i : ℕ} {transfer : Transfer} {now : AprTime}
    {caller : Caller} {events received : ℕ} {oldActive : UInt32} {block : Bool}
    (hpc : s.pc = .wait caller events received oldActive block)
    (hnext : Next config G s (.reap i transfer now) t) : t.remaining + 1 ≤ s.remaining := by
  have hwait := (@wait_ahead caller events received oldActive s.queue.active block).1
  rw [IoState.remaining, IoState.remaining, hpc]
  cases hnext with
  | notify _ _ _ caller' events' received' oldActive' block' worker workload queue hpc' hi hnotifies
      hnotify =>
    have hafter := @afterNotify_ahead config queue caller events received oldActive block
    rw [hpc] at hpc'
    cases hpc'
    rw [hpc]
    have herase := @pending_erase γ s { s with
      worker := worker
      workload := workload
      queue := queue
      pc := afterNotify config queue (.wait caller events received oldActive block) caller events
        received oldActive
      device := s.device.complete i (s.queue.ioaqes i).request transfer } i hi rfl rfl fun j => by
        obtain ⟨now', hentry⟩ := notified_entry s.queue i now j
        rw [(genericQueueNotify_ok hnotify).1, hentry]
        rfl
    show _ + (afterNotify config queue (.wait caller events received oldActive block) caller events
      received oldActive).ahead queue.active + 1 ≤ _
    omega
  | notifyFails _ _ _ reason hi hnotify =>
    show s.pending + 0 + 1 ≤ _
    omega
  | drop _ _ _ caller' events' received' oldActive' block' hpc' hi hnotifies =>
    have hreturned :=
      @waitReturned_ahead config s.queue caller events received oldActive block false
    rw [hpc] at hpc'
    cases hpc'
    have herase := @pending_erase γ s { s with
      pc := waitReturned config s.queue caller events received oldActive false
      device := s.device.deliver i } i hi rfl rfl fun _ => rfl
    show _ + (waitReturned config s.queue caller events received oldActive false).ahead
      s.queue.active + 1 ≤ _
    omega

/-- Every step but a launch uses up a part of what is left, apart from what a pass brings in. -/
theorem remaining_of_step {s t : IoState γ} {a : Action γ} (hlaunch : ∀ l, a ≠ .launch l)
    (hnodup : (s.queue.ready ++ s.device.inflight).Nodup)
    (hstep : step config G s a = some t) :
    t.remaining + 1 ≤ s.remaining + s.bringsIn config G a := by
  cases a with
  | launch l => exact absurd rfl (hlaunch l)
  | iterate clock accepted =>
    simp only [step, Option.ite_none_right_eq_some, Option.some.injEq] at hstep
    obtain ⟨hpc, rfl⟩ := hstep
    exact iterate_remaining hpc hnodup (iterate_next hpc)
  | effect i k =>
    simp only [step, Option.ite_none_right_eq_some, Option.some.injEq] at hstep
    obtain ⟨⟨hi, hk, hserved⟩, rfl⟩ := hstep
    have hless := effect_pending hi hk hserved
    obtain ⟨buf, hqueue⟩ := effect_queue s i k
    rw [IoState.remaining, IoState.remaining, effect_pc, hqueue, AsyncQueue.setRequest_active]
    omega
  | reap i transfer now =>
    simp only [step] at hstep
    split at hstep
    · rename_i caller events received oldActive block hpc
      simp only [Option.ite_none_right_eq_some, Option.some.injEq] at hstep
      obtain ⟨hi, rfl⟩ := hstep
      exact reap_remaining hpc (@reap_next γ config G s i transfer now _ _ _ _ _ hpc hi)
    · cases hstep
  | waitReturn ok =>
    simp only [step] at hstep
    split at hstep
    · rename_i caller events received oldActive block hpc
      simp only [Option.ite_none_right_eq_some, Option.some.injEq] at hstep
      obtain ⟨_, rfl⟩ := hstep
      have hahead := @waitReturned_ahead config s.queue caller events received oldActive block ok
      rw [← hpc] at hahead
      show s.pending + (waitReturned config s.queue caller events received oldActive ok).ahead
        s.queue.active + 1 ≤ s.pending + s.pc.ahead s.queue.active + 0
      omega
    · cases hstep
  | finish now =>
    simp only [step, Option.ite_none_right_eq_some, Option.some.injEq] at hstep
    obtain ⟨hpc, rfl⟩ := hstep
    show s.pending + 0 + 1 ≤ s.pending + s.pc.ahead s.queue.active + 0
    rw [hpc]
    rfl

/-- Whether an action is a pass through the loop of `ioworker`. -/
def Action.isPass : Action γ → Bool
  | .iterate _ _ => true
  | _ => false

/-- What an action brings in. -/
theorem bringsIn_eq (s : IoState γ) (a : Action γ) : s.bringsIn config G a =
    4 * (if a.isPass then 1 else 0) +
      ((s.handsOver config G a).toList.map IoRequest.sectors).sum := by
  cases a with
  | iterate clock accepted =>
    rw [IoState.bringsIn]
    cases s.handsOver config G (.iterate clock accepted) with
    | none => rfl
    | some r => simp [Action.isPass]
  | _ => rfl

/-- **The thread never spins.** On a cooperative platform the number of actions of a workload is
bounded by its passes through the loop and by the sectors of the requests that it hands over,
whatever the order of the effects and of the completions. -/
theorem workload_actions_bounded {s t : IoState γ} {l : Launch γ} {queue : AsyncQueue}
    {as : List (Action γ)} (hdepth : 1 ≤ l.queueDepth)
    (hcreate : genericQueueCreate config s.worker l.queueDepth l.memory = .ok queue)
    (hrun : exec (step config G) (s.start l queue) as = some t)
    (hduring : Along (step config G) (DuringWorkload config) (s.start l queue) as) :
    as.length ≤ 1 + 4 * as.countP Action.isPass +
      ((observe (step config G) (IoState.handsOver config G) (s.start l queue) as).map
        IoRequest.sectors).sum := by
  have hlength := length_add_le (I := SlotInv)
    (fun _ _ _ hs hP hstep => hs.of_step hP.1 hstep)
    (fun _ _ _ hs hP hstep => remaining_of_step hP.2 hs.conserved.nodup hstep)
    (SlotInv.start hdepth hcreate) hrun hduring
  rw [gain_eq_observe bringsIn_eq hrun] at hlength
  have hstart : (s.start l queue).remaining = 1 := rfl
  omega

/-- The ten actions of the two writes in flight together. -/
theorem workload_actions_bounded_pair : (pairRun 0 1).length ≤ 1 + 4 *
    (pairRun 0 1).countP Action.isPass +
      ((observe (step ⟨false, .linux, 4096, true⟩ workloads)
        (IoState.handsOver ⟨false, .linux, 4096, true⟩ workloads) pairStart (pairRun 0 1)).map
          IoRequest.sectors).sum := by
  have hrun : exec (step ⟨false, .linux, 4096, true⟩ workloads) pairStart (pairRun 0 1) =
    some _ := rfl
  have hcreate : genericQueueCreate ⟨false, .linux, 4096, true⟩ pairInitial.worker
    pairLaunch.queueDepth pairLaunch.memory = .ok pairQueue := rfl
  exact workload_actions_bounded (by decide) hcreate hrun (by decide)

/-- On a cooperative platform a thread that is at work can always go on. -/
theorem not_stuck {s : IoState γ} (h : SlotInv s) (hidle : s.pc ≠ .idle) (hdone : s.pc ≠ .done)
    (hended : ¬s.pc.Ended) : ∃ a t, DuringWorkload config s a ∧ step config G s a = some t := by
  cases hpc : s.pc with
  | idle => exact absurd hpc hidle
  | head =>
    exact ⟨.iterate ⟨0, 0, 0⟩ true, _, ⟨rfl, fun l hl => by cases hl⟩, if_pos hpc⟩
  | wait caller events received oldActive block =>
    cases hinflight : s.device.inflight with
    | nil =>
      -- All requests have been notified, so the wait has made progress.
      have hactive := h.conserved.active_eq
      have hat := h.at_pc
      rw [hpc] at hat
      refine ⟨.waitReturn true, _, ⟨?_, fun l hl => by cases hl⟩, step_waitReturn hpc⟩
      intro caller' events' received' oldActive' hpc' heq
      cases hpc.symm.trans hpc'
      rw [hinflight, heq] at hactive
      exact absurd hat.2.1 (by rw [← hactive]; exact Nat.lt_irrefl 0)
    | cons i rest =>
      have hi : i ∈ s.device.inflight := hinflight ▸ List.mem_cons_self
      refine ⟨.reap i .full 0, s.reap config caller events received oldActive i .full 0,
        ⟨?_, fun l hl => by cases hl⟩, by simp only [step, hpc, hi, if_true]⟩
      show config.platform.notifies .full = true
      cases config.platform <;> rfl
  | drained => exact ⟨.finish 0, _, ⟨trivial, fun l hl => by cases hl⟩, if_pos hpc⟩
  | done => exact absurd hpc hdone
  | halted reason => exact absurd ⟨reason, hpc⟩ hended

/-- Behind the loop nothing is brought in. -/
theorem bringsIn_behindLoop {s t : IoState γ} {a : Action γ} (h : s.pc.BehindLoop)
    (hstep : step config G s a = some t) : s.bringsIn config G a = 0 := by
  cases a with
  | iterate clock accepted =>
    simp only [step, Option.ite_none_right_eq_some] at hstep
    rw [hstep.1] at h
    exact h.elim
  | _ => rfl

/-- **The barrier drains the queue.** On a cooperative platform a thread that has left the loop of
`ioworker` ends after a bounded number of further actions: no run is longer than what is left to
do, the thread can go on in every state of it until it has ended with nothing in flight or with an
error, and such an end can always be reached. -/
theorem barrier_drains {worker : IoWorker} {generator : γ} {disk : Memory}
    {as : List (Action γ)} {s : IoState γ}
    (hrun : exec (step config G) (IoState.initial worker generator disk) as = some s)
    (hco : Along (step config G) (Cooperative config) (IoState.initial worker generator disk) as)
    (hbehind : s.pc.BehindLoop) :
    (∀ bs t, exec (step config G) s bs = some t →
        Along (step config G) (DuringWorkload config) s bs → bs.length ≤ s.remaining) ∧
      (∀ t, Reaches (step config G) (DuringWorkload config) s t →
        t.pc.Ended ∨ t.pc = .done ∧ t.device.inflight = [] ∨
          ∃ a u, DuringWorkload config t a ∧ step config G t a = some u) ∧
      ∃ t, Reaches (step config G) (DuringWorkload config) s t ∧
        (t.pc.Ended ∨ t.pc = .done ∧ t.device.inflight = []) := by
  have hslots := SlotInv.initial.of_exec hrun hco
  have hinv : ∀ (s : IoState γ) a t, SlotInv s ∧ s.pc.BehindLoop → DuringWorkload config s a →
      step config G s a = some t → SlotInv t ∧ t.pc.BehindLoop := fun s a t hs hP hstep =>
    ⟨hs.1.of_step hP.1 hstep, behindLoop_of_step hP.2 hs.2 hstep⟩
  have hless : ∀ (s : IoState γ) a t, SlotInv s ∧ s.pc.BehindLoop → DuringWorkload config s a →
      step config G s a = some t → t.remaining + 1 ≤ s.remaining + 0 := fun s a t hs hP hstep => by
    have hremaining := remaining_of_step hP.2 hs.1.conserved.nodup hstep
    rwa [bringsIn_behindLoop hs.2 hstep] at hremaining
  have hends : ∀ t, Reaches (step config G) (DuringWorkload config) s t →
      t.pc.Ended ∨ t.pc = .done ∧ t.device.inflight = [] ∨
        ∃ a u, DuringWorkload config t a ∧ step config G t a = some u := by
    intro t ht
    obtain ⟨hslots', hbehind'⟩ := ht.invariant hinv ⟨hslots, hbehind⟩
    by_cases hended : t.pc.Ended
    · exact Or.inl hended
    by_cases hdone : t.pc = .done
    · exact Or.inr (Or.inl ⟨hdone, hslots'.inflight_nil (Or.inr hdone)⟩)
    · refine Or.inr (Or.inr (not_stuck hslots' (fun hidle => ?_) hdone hended))
      rw [hidle] at hbehind'
      exact hbehind'
  refine ⟨fun bs t hbs halong => ?_, hends, ?_⟩
  · have hlength := length_add_le (f := fun _ _ => 0) hinv hless ⟨hslots, hbehind⟩ hbs halong
    rw [gain_zero] at hlength
    omega
  · obtain ⟨t, hreach, hmax⟩ := exists_maximal hinv
      (fun s a t hs hP hstep => hless s a t hs hP hstep) ⟨hslots, hbehind⟩
    refine ⟨t, hreach, ?_⟩
    rcases hends t hreach with hended | hdone | ⟨a, u, hP, hu⟩
    · exact Or.inl hended
    · exact Or.inr hdone
    · rw [hmax a hP] at hu
      cases hu

/-- A workload that runs out of time while a write is in flight. -/
def lastInFlight : List (Action GeneratorData) :=
  [.launch pairLaunch, .iterate ⟨1, 1, 1⟩ true, .waitReturn true, .iterate ⟨11, 11, 11⟩ true]

/-- The write, its completion, the return of the wait and the end of the thread are left. -/
theorem barrier_drains_one_write : ∃ s, exec (step ⟨false, .linux, 4096, true⟩ workloads)
    pairInitial lastInFlight = some s ∧
    ∀ bs t, exec (step ⟨false, .linux, 4096, true⟩ workloads) s bs = some t →
      Along (step ⟨false, .linux, 4096, true⟩ workloads)
        (DuringWorkload ⟨false, .linux, 4096, true⟩) s bs → bs.length ≤ 5 := by
  have hrun : exec (step ⟨false, .linux, 4096, true⟩ workloads) pairInitial lastInFlight =
    some _ := rfl
  exact ⟨_, hrun, (barrier_drains hrun (by decide) rfl).1⟩

end DiskBench
