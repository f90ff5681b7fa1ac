import Mathlib.Algebra.BigOperators.Group.List.Basic
import Mathlib.Data.UInt
import DiskBench.Steps
import DiskBench.Workloads.Workloads

/-!
# Conservation of the queue entries

Every entry of a queue is either in the ring of ready entries or in flight, and the two
counters count them. The platform promises little for this: it accepts every request,
notifies every request once, and a blocking wait does not return empty-handed.
-/

namespace DiskBench

open Transition

variable {γ : Type} {config : Config} {G : Generator γ}

/-- What the platform and the callers of `ioworker` promise. -/
def Cooperative (config : Config) (s : IoState γ) : Action γ → Prop
  | .launch l => 1 ≤ l.queueDepth
  | .iterate _ accepted => accepted = true
  | .reap _ transfer _ => config.platform.notifies transfer = true
  | .waitReturn _ => ∀ caller events received oldActive,
      s.pc = .wait caller events received oldActive true → s.queue.active ≠ oldActive
  | .effect _ _ => True
  | .finish _ => True

instance (config : Config) (s : IoState γ) : ∀ a, Decidable (Cooperative config s a)
  | .launch l => inferInstanceAs (Decidable (1 ≤ l.queueDepth))
  | .iterate _ accepted => inferInstanceAs (Decidable (accepted = true))
  | .reap _ transfer _ => inferInstanceAs (Decidable (config.platform.notifies transfer = true))
  | .waitReturn _ =>
    match hpc : s.pc with
    | .wait _ _ _ oldActive true =>
      decidable_of_iff (s.queue.active ≠ oldActive)
        ⟨fun h _ _ _ _ hpc' => by cases hpc.symm.trans hpc'; exact h, fun h => h _ _ _ _ hpc⟩
    | .wait _ _ _ _ false | .idle | .head | .drained | .done | .halted _ =>
      isTrue (by simp [Cooperative, hpc])
  | .effect _ _ | .finish _ => isTrue trivial

/-- A cooperative platform drops no completion. -/
theorem Cooperative.not_dropped {s : IoState γ} {i : ℕ} {transfer : Transfer} {now : AprTime}
    (h : Cooperative config s (.reap i transfer now))
    (hdrop : config.platform.notifies transfer = false) : False := by
  have hnotifies : config.platform.notifies transfer = true := h
  rw [hdrop] at hnotifies
  cases hnotifies

/-- What the platform promises during one workload. -/
def DuringWorkload (config : Config) (s : IoState γ) (a : Action γ) : Prop :=
  Cooperative config s a ∧ ∀ l, a ≠ .launch l

instance : ∀ a : Action γ, Decidable (∀ l, a ≠ .launch l)
  | .launch l => isFalse fun h => h l rfl
  | .iterate _ _ | .effect _ _ | .reap _ _ _ | .waitReturn _ | .finish _ => isTrue (by simp)

instance (config : Config) (s : IoState γ) (a : Action γ) : Decidable (DuringWorkload config s a) :=
  inferInstanceAs (Decidable (_ ∧ _))

/-- A workload keeps the settings of its worker. -/
theorem IoWorker.SameSettings.of_exec {s t : IoState γ} {as : List (Action γ)}
    (hrun : exec (step config G) s as = some t)
    (hduring : Along (step config G) (DuringWorkload config) s as) :
    s.worker.SameSettings t.worker :=
  exec_invariant (I := fun u => s.worker.SameSettings u.worker)
    (fun _ _ _ h hP hstep => h.trans (step_keeps hP.2 hstep).1) hrun hduring (.refl _)

/-- The ready entries and the entries in flight together are the entries of the queue, each
of them once, and the counters count them. -/
structure Conserved (queue : AsyncQueue) (inflight : List ℕ) : Prop where
  free_eq : queue.ready.length = queue.free.toNat
  active_eq : inflight.length = queue.active.toNat
  perm : (queue.ready ++ inflight).Perm (List.range queue.total.toNat)

/-- The counters of a conserved queue add up. -/
theorem Conserved.add {queue : AsyncQueue} {inflight : List ℕ} (h : Conserved queue inflight) :
    queue.free.toNat + queue.active.toNat = queue.total.toNat := by
  have hlength := h.perm.length_eq
  rw [List.length_append, List.length_range, h.free_eq, h.active_eq] at hlength
  exact hlength

theorem Conserved.nodup {queue : AsyncQueue} {inflight : List ℕ} (h : Conserved queue inflight) :
    (queue.ready ++ inflight).Nodup :=
  h.perm.nodup_iff.mpr List.nodup_range

/-- The first entry of the ring is not in flight. -/
theorem first_notMem_inflight {queue : AsyncQueue} {inflight : List ℕ} {i : ℕ} {rest : List ℕ}
    (hnodup : (queue.ready ++ inflight).Nodup) (hready : queue.ready = i :: rest) :
    i ∉ inflight := by
  rw [hready, List.cons_append, List.nodup_cons] at hnodup
  exact fun hi => hnodup.1 (List.mem_append_right _ hi)

theorem one_le_iff_toInt {depth : Int32} : 1 ≤ depth ↔ 1 ≤ depth.toInt := by
  have hone : (1 : Int32).toInt = 1 := by decide
  rw [Int32.le_iff_toInt_le, hone]

/-- A queue depth of at least one is the same number as a word. -/
theorem toNat_toUInt32_of_pos {depth : Int32} (h : 1 ≤ depth) :
    depth.toUInt32.toNat = depth.toInt.toNat := by
  have hpos := one_le_iff_toInt.mp h
  have hlt := depth.toUInt32.toNat_lt
  have hcond : depth.toInt = if 2 * depth.toUInt32.toNat < 2 ^ 32 then
      (depth.toUInt32.toNat : ℤ) else (depth.toUInt32.toNat : ℤ) - (2 ^ 32 : ℕ) :=
    BitVec.toInt_eq_toNat_cond depth.toBitVec
  split at hcond <;> omega

theorem toUInt32_pos {depth : Int32} (h : 1 ≤ depth) : 0 < depth.toUInt32.toNat := by
  have hpos := one_le_iff_toInt.mp h
  rw [toNat_toUInt32_of_pos h]
  omega

/-- A word below `2 ^ 31` is the same number as an `int`. -/
theorem toInt_toInt32 {x : UInt32} (hx : x.toNat < 2 ^ 31) : x.toInt32.toInt = x.toNat :=
  BitVec.toInt_eq_toNat_of_lt (x := x.toBitVec) (by simpa using (by omega : 2 * x.toNat < 2 ^ 32))

/-- A 32-bit word that passes through `int` into 64-bit arithmetic: from 2^31 on its sign is
extended. -/
theorem toNat_signExtend (x : UInt32) : x.toInt32.toInt64.toUInt64.toNat =
    if x.toNat < 2 ^ 31 then x.toNat else x.toNat + (2 ^ 64 - 2 ^ 32) := by
  have hsigned : x.toInt32.toInt = if 2 * x.toNat < 2 ^ 32 then (x.toNat : ℤ)
      else (x.toNat : ℤ) - (2 ^ 32 : ℕ) := BitVec.toInt_eq_toNat_cond x.toBitVec
  have hword : x.toInt32.toInt64.toInt =
      if 2 * x.toInt32.toInt64.toUInt64.toNat < 2 ^ 64 then
        (x.toInt32.toInt64.toUInt64.toNat : ℤ)
      else (x.toInt32.toInt64.toUInt64.toNat : ℤ) - (2 ^ 64 : ℕ) :=
    BitVec.toInt_eq_toNat_cond _
  rw [Int32.toInt_toInt64] at hword
  have hlt := x.toNat_lt
  have hlt' := x.toInt32.toInt64.toUInt64.toNat_lt
  split at hsigned <;> split at hword <;> split <;> omega

/-- A new queue is conserved. -/
theorem Conserved.create {worker : IoWorker} {queueDepth : Int32} {memory : ℕ → Memory}
    {queue : AsyncQueue} (hdepth : 1 ≤ queueDepth)
    (h : genericQueueCreate config worker queueDepth memory = .ok queue) :
    Conserved queue [] := by
  obtain ⟨bufsize, rfl⟩ := genericQueueCreate_ok h
  have hnat := toNat_toUInt32_of_pos hdepth
  refine ⟨?_, rfl, ?_⟩
  · simp only [List.length_range, hnat]
  · simp only [List.append_nil, hnat]
    exact List.Perm.refl _

/-- Moving the first ready entry to the end of the ring changes nothing. -/
theorem Conserved.rotate {queue : AsyncQueue} {inflight rest : List ℕ} {i : ℕ}
    (h : Conserved queue inflight) (hready : queue.ready = i :: rest) :
    Conserved (({ queue with ready := rest }).insertTail i) inflight := by
  have hperm : (rest ++ [i]).Perm queue.ready := by
    rw [hready]
    exact List.perm_append_singleton i rest
  refine ⟨?_, h.active_eq, ?_⟩
  · rw [AsyncQueue.insertTail_ready, hperm.length_eq, AsyncQueue.insertTail_free]
    exact h.free_eq
  · exact (hperm.append_right inflight).trans h.perm

/-- The first ready entry is put in flight. -/
theorem Conserved.submit {queue : AsyncQueue} {inflight rest : List ℕ} {i : ℕ}
    {entry : AsyncQueueEntry} (h : Conserved queue inflight) (hready : queue.ready = i :: rest) :
    Conserved ((({ queue with ready := rest }).activate).setEntry i entry) (inflight ++ [i]) := by
  have hfree : rest.length + 1 = queue.free.toNat := by
    rw [← h.free_eq, hready, List.length_cons]
  have hadd := h.add
  have hlt := queue.total.toNat_lt
  have hactive := h.active_eq
  have hsub : (queue.free - 1).toNat = queue.free.toNat - 1 :=
    UInt32.toNat_sub_of_le _ _ (UInt32.le_iff_toNat_le.mpr (by simpa using by omega))
  refine ⟨?_, ?_, ?_⟩
  · simp only [AsyncQueue.setEntry_ready, AsyncQueue.activate_ready, AsyncQueue.setEntry_free,
      AsyncQueue.activate_free, hsub]
    omega
  · simp only [AsyncQueue.setEntry_active, AsyncQueue.activate_active, UInt32.toNat_add,
      List.length_append, List.length_singleton, UInt32.toNat_one]
    omega
  · have hperm : (rest ++ (inflight ++ [i])).Perm (queue.ready ++ inflight) := by
      rw [hready, ← List.append_assoc]
      exact List.perm_append_singleton i (rest ++ inflight)
    exact hperm.trans h.perm

/-- An entry in flight is made ready again. -/
theorem Conserved.release {queue : AsyncQueue} {inflight : List ℕ} {i : ℕ} {request : IoRequest}
    (h : Conserved queue inflight) (hi : i ∈ inflight) :
    Conserved ((queue.setRequest i request).release i) (inflight.erase i) := by
  have hadd := h.add
  have hlt := queue.total.toNat_lt
  have hpos := List.length_pos_of_mem hi
  have hactive := h.active_eq
  have hsub : (queue.active - 1).toNat = queue.active.toNat - 1 :=
    UInt32.toNat_sub_of_le _ _ (UInt32.le_iff_toNat_le.mpr (by simpa using by omega))
  have hfree := h.free_eq
  refine ⟨?_, ?_, ?_⟩
  · simp only [AsyncQueue.release_ready, AsyncQueue.release_free, AsyncQueue.setRequest_ready,
      AsyncQueue.setRequest_free, UInt32.toNat_add, List.length_append, List.length_singleton,
      UInt32.toNat_one]
    omega
  · simp only [AsyncQueue.release_active, AsyncQueue.setRequest_active, hsub,
      List.length_erase_of_mem hi]
    omega
  · have hperm : (queue.ready ++ [i] ++ inflight.erase i).Perm (queue.ready ++ inflight) := by
      rw [List.append_assoc]
      exact (List.perm_cons_erase hi).symm.append_left queue.ready
    exact hperm.trans h.perm

/-- An effect moves no entry. -/
theorem Conserved.effect {s : IoState γ} {i k : ℕ} (h : Conserved s.queue s.device.inflight) :
    Conserved (s.effect i k).queue (s.effect i k).device.inflight := by
  obtain ⟨buf, hqueue⟩ := effect_queue s i k
  rw [hqueue, effect_inflight]
  exact ⟨h.free_eq, h.active_eq, h.perm⟩

/-- What the place of the thread says about the counters of the queue. -/
def AsyncQueue.At (queue : AsyncQueue) : Pc → Prop
  | .idle => True
  | .head => 0 < queue.free.toNat
  | .wait caller events received oldActive block =>
    queue.active.toNat ≤ oldActive.toNat ∧ 0 < oldActive.toNat ∧
      oldActive.toNat ≤ queue.total.toNat ∧ (block = false → 0 < queue.free.toNat) ∧
      (caller = .barrier → block = true ∧ events = received + oldActive.toNat)
  | .drained => queue.active = 0
  | .done => queue.active = 0
  | .halted reason => reason ≠ .sentinel

/-- The head of the waiting loop keeps the counters in agreement with the thread: it waits
while requests are active, it blocks when no entry is free, and for the barrier it blocks
until every request has been received. -/
theorem AsyncQueue.At.waitLoop {queue : AsyncQueue} {caller : Caller} {events received : ℕ}
    (hadd : queue.free.toNat + queue.active.toNat = queue.total.toNat)
    (htotal : caller = .ioworker → 0 < queue.total.toNat)
    (hevents : caller = .barrier → events = received + queue.active.toNat) :
    queue.At (waitLoop queue caller events received) := by
  unfold DiskBench.waitLoop
  split
  · rename_i hactive
    have hpos : 0 < queue.active.toNat := UInt32.lt_iff_toNat_lt.mp hactive
    refine ⟨Nat.le_refl _, hpos, by omega, fun hblock => ?_, fun hbarrier => ⟨?_, hevents hbarrier⟩⟩
    · have hfree : queue.free ≠ 0 := by
        intro hzero
        simp [hzero] at hblock
      exact Nat.pos_of_ne_zero fun hzero => hfree (UInt32.toNat_inj.mp hzero)
    · have hlt : received < events := by
        have := hevents hbarrier
        omega
      simp [hlt]
  · rename_i hactive
    have hzero : queue.active.toNat = 0 :=
      Nat.eq_zero_of_not_pos fun hpos => hactive (UInt32.lt_iff_toNat_lt.mpr hpos)
    cases caller with
    | ioworker =>
      have := htotal rfl
      show 0 < queue.free.toNat
      omega
    | barrier => exact UInt32.toNat_inj.mp hzero

/-- The barrier starts with all active requests to be received. -/
theorem AsyncQueue.At.barrier {queue : AsyncQueue}
    (hadd : queue.free.toNat + queue.active.toNat = queue.total.toNat) :
    queue.At (genericQueueBarrier queue) :=
  AsyncQueue.At.waitLoop hadd (fun h => by cases h) (fun _ => (Nat.zero_add _).symm)

/-- The return of `queue_wait` keeps the counters in agreement with the thread. -/
theorem AsyncQueue.At.waitReturned {queue : AsyncQueue} {caller : Caller} {events received : ℕ}
    {oldActive : UInt32} {block ok : Bool}
    (hadd : queue.free.toNat + queue.active.toNat = queue.total.toNat)
    (hat : queue.At (.wait caller events received oldActive block))
    (hblock : block = true → queue.active ≠ oldActive) :
    queue.At (waitReturned config queue caller events received oldActive ok) := by
  obtain ⟨hle, hpos, htotal, hfree, hbarrier⟩ := hat
  have hsub : (oldActive - queue.active).toNat = oldActive.toNat - queue.active.toNat :=
    UInt32.toNat_sub_of_le _ _ (UInt32.le_iff_toNat_le.mpr hle)
  unfold DiskBench.waitReturned
  split
  · show Halt.assertion ≠ .sentinel
    decide
  split
  · rename_i hzero
    have heq : queue.active = oldActive := by
      apply UInt32.toNat_inj.mp
      have := congrArg UInt32.toNat hzero
      rw [hsub, UInt32.toNat_zero] at this
      omega
    have hnot : block = false := by
      cases block with
      | false => rfl
      | true => exact absurd heq (hblock rfl)
    cases caller with
    | ioworker => exact hfree hnot
    | barrier => exact absurd (hbarrier rfl).1 (by simp [hnot])
  · apply AsyncQueue.At.waitLoop hadd (fun _ => by omega)
    intro hcaller
    have := (hbarrier hcaller).2
    omega

/-- A release while the thread waits keeps the counters in agreement with it. -/
theorem AsyncQueue.At.release {queue : AsyncQueue} {caller : Caller} {events received : ℕ}
    {oldActive : UInt32} {block : Bool} (i : ℕ) (request : IoRequest)
    (hadd : queue.free.toNat + queue.active.toNat = queue.total.toNat)
    (hactive : 0 < queue.active.toNat)
    (hat : queue.At (.wait caller events received oldActive block)) :
    ((queue.setRequest i request).release i).At (.wait caller events received oldActive block) ∧
      ((queue.setRequest i request).release i).active ≠ oldActive := by
  obtain ⟨hle, hpos, htotal, hfree, hbarrier⟩ := hat
  have hlt := queue.total.toNat_lt
  have hsub : (queue.active - 1).toNat = queue.active.toNat - 1 :=
    UInt32.toNat_sub_of_le _ _ (UInt32.le_iff_toNat_le.mpr (by simpa using by omega))
  have hadd' : (queue.free + 1).toNat = queue.free.toNat + 1 := by
    rw [UInt32.toNat_add, UInt32.toNat_one]
    omega
  refine ⟨⟨?_, hpos, htotal, fun _ => ?_, hbarrier⟩, ?_⟩
  · simp only [AsyncQueue.release_active, AsyncQueue.setRequest_active, hsub]
    omega
  · simp only [AsyncQueue.release_free, AsyncQueue.setRequest_free, hadd']
    omega
  · intro heq
    have := congrArg UInt32.toNat heq
    simp only [AsyncQueue.release_active, AsyncQueue.setRequest_active, hsub] at this
    omega

/-- The bytes requested by the entries in flight. -/
def IoState.pendingBytes (s : IoState γ) : UInt64 :=
  (s.device.inflight.map fun i => (s.queue.ioaqes i).request.size).sum

/-- The invariant of the worker thread on a cooperative platform. -/
structure SlotInv (s : IoState γ) : Prop where
  conserved : Conserved s.queue s.device.inflight
  at_pc : s.queue.At s.pc
  bytes : s.workload.read.bytes + s.workload.write.bytes + s.pendingBytes =
    s.workload.submittedBytes
  requests : s.workload.read.requests + s.workload.write.requests +
    UInt64.ofNat s.device.inflight.length = UInt64.ofNat s.device.submissions.length
  total_eq : s.queue.total.toNat = s.workload.queueDepth.toInt.toNat
  maxActive_le : s.workload.maxActive ≤ s.workload.queueDepth

/-- Replacing a request by one of the same size keeps the bytes in flight. -/
theorem pendingSizes_congr (queue : AsyncQueue) (i : ℕ) (request : IoRequest)
    (hsize : request.size = (queue.ioaqes i).request.size) :
    (fun j => ((queue.setRequest i request).ioaqes j).request.size) =
      fun j => (queue.ioaqes j).request.size := by
  funext j
  by_cases hj : j = i
  · rw [hj, AsyncQueue.setRequest_self, hsize]
  · rw [AsyncQueue.setRequest_of_ne _ _ _ hj]

/-- Before the first workload nothing is in flight and nothing is counted. -/
theorem SlotInv.initial {worker : IoWorker} {generator : γ} {disk : Memory} :
    SlotInv (IoState.initial worker generator disk) where
  conserved := ⟨rfl, rfl, List.Perm.refl _⟩
  at_pc := trivial
  bytes := rfl
  requests := rfl
  total_eq := rfl
  maxActive_le := Int32.le_refl 0

theorem SlotInv.halt {s : IoState γ} {reason : Halt} (h : SlotInv s)
    (hreason : reason ≠ .sentinel) : SlotInv (s.halt reason) :=
  { h with at_pc := hreason }

theorem SlotInv.start {s : IoState γ} {l : Launch γ} {queue : AsyncQueue}
    (hdepth : 1 ≤ l.queueDepth)
    (hcreate : genericQueueCreate config s.worker l.queueDepth l.memory = .ok queue) :
    SlotInv (s.start l queue) := by
  have hconserved := Conserved.create hdepth hcreate
  obtain ⟨bufsize, rfl⟩ := genericQueueCreate_ok hcreate
  refine ⟨hconserved, toUInt32_pos hdepth, rfl, rfl, toNat_toUInt32_of_pos hdepth, ?_⟩
  have hpos := one_le_iff_toInt.mp hdepth
  rw [Int32.le_iff_toInt_le]
  show (0 : Int32).toInt ≤ l.queueDepth.toInt
  have hzero : (0 : Int32).toInt = 0 := by decide
  omega

theorem SlotInv.stop {s : IoState γ} {i : ℕ} {rest : List ℕ} (h : SlotInv s)
    (hready : s.queue.ready = i :: rest) : SlotInv (s.stop i rest) :=
  { h with
    conserved := h.conserved.rotate hready
    at_pc := AsyncQueue.At.barrier (h.conserved.rotate hready).add }

theorem SlotInv.submit {s : IoState γ} {i : ℕ} {rest : List ℕ} {data : γ} {seed : UInt64}
    {target : Target} {clock : Clock} (h : SlotInv s) (hready : s.queue.ready = i :: rest) :
    SlotInv (s.submit config i rest data seed target clock true) := by
  have hconserved : Conserved (s.submit config i rest data seed target clock true).queue
    (s.device.inflight ++ [i]) := h.conserved.submit hready
  have hnot : i ∉ s.device.inflight := by
    have hnodup := h.conserved.nodup
    rw [hready, List.cons_append, List.nodup_cons] at hnodup
    exact fun hi => hnodup.1 (List.mem_append_right _ hi)
  have hadd : (s.queue.free - 1).toNat + (s.queue.active + 1).toNat = s.queue.total.toNat :=
    hconserved.add
  have hactive : (s.queue.active + 1).toNat = s.device.inflight.length + 1 := by
    have hlength := hconserved.active_eq
    rw [List.length_append, List.length_singleton] at hlength
    exact hlength.symm
  have htotal := h.total_eq
  refine ⟨hconserved, ?_, ?_, ?_, h.total_eq, ?_⟩
  · have hpos : 0 < s.queue.total.toNat := by omega
    exact AsyncQueue.At.waitLoop hadd (fun _ => hpos) (fun hcaller => by cases hcaller)
  · have hsame : ∀ j ∈ s.device.inflight,
        ((s.submit config i rest data seed target clock true).queue.ioaqes j).request.size =
          (s.queue.ioaqes j).request.size := by
      intro j hj
      have hne : j ≠ i := fun heq => hnot (heq ▸ hj)
      rw [submit_entry_of_ne hne]
    have hpending : (s.submit config i rest data seed target clock true).pendingBytes =
        s.pendingBytes + target.size := by
      show ((s.device.inflight ++ [i]).map _).sum = _
      rw [List.map_append, List.sum_append, List.map_singleton, List.sum_singleton,
        submit_entry_self.2.2.1, List.map_congr_left hsame, IoState.pendingBytes]
    rw [hpending, submit_submittedBytes, ← h.bytes, ← add_assoc]
    rfl
  · have hrequests := h.requests
    show s.workload.read.requests + s.workload.write.requests +
      UInt64.ofNat (s.device.inflight ++ [i]).length =
        UInt64.ofNat (s.device.submissions ++ [_]).length
    rw [List.length_append, List.length_append, List.length_singleton, List.length_singleton,
      UInt64.ofNat_add, UInt64.ofNat_add, ← add_assoc, hrequests]
  · show (if (s.queue.active + 1) > s.workload.maxActive.toUInt32 then (s.queue.active + 1).toInt32
      else s.workload.maxActive) ≤ s.workload.queueDepth
    split
    · have hlt := s.workload.queueDepth.toInt_lt
      rw [Int32.le_iff_toInt_le, toInt_toInt32 (by omega)]
      omega
    · exact h.maxActive_le

theorem SlotInv.effect {s : IoState γ} {i k : ℕ} (h : SlotInv s) : SlotInv (s.effect i k) := by
  obtain ⟨buf, hqueue⟩ := effect_queue s i k
  have hpending : (s.effect i k).pendingBytes = s.pendingBytes := by
    unfold IoState.pendingBytes
    rw [effect_inflight, hqueue,
      pendingSizes_congr s.queue i ((s.queue.ioaqes i).request.setBuf buf) rfl]
  constructor
  · exact h.conserved.effect
  · rw [hqueue, effect_pc]
    have hat := h.at_pc
    cases hpc : s.pc <;> rw [hpc] at hat <;> exact hat
  · rw [effect_workload, hpending, h.bytes]
  · rw [effect_workload, effect_inflight, effect_submissions, h.requests]
  · rw [hqueue, effect_workload, AsyncQueue.setRequest_total, h.total_eq]
  · rw [effect_workload]
    exact h.maxActive_le

/-- What the callbacks do to the counters of the workload. -/
theorem notify_counters {worker worker' : IoWorker} {workload workload' : IoWorkload}
    {queue queue' : AsyncQueue} {i : ℕ} {now : AprTime}
    (h : genericQueueNotify config worker workload queue i now = .ok (worker', workload', queue')) :
    workload'.read.bytes + workload'.write.bytes =
        workload.read.bytes + workload.write.bytes + (queue.ioaqes i).request.size ∧
      workload'.read.requests + workload'.write.requests =
        workload.read.requests + workload.write.requests + 1 ∧
      workload'.submittedBytes = workload.submittedBytes ∧
      workload'.queueDepth = workload.queueDepth ∧ workload'.maxActive = workload.maxActive := by
  obtain ⟨_, ⟨_, _, _, rfl⟩ | ⟨_, _, rfl⟩⟩ := genericQueueNotify_ok h
  · exact ⟨add_right_comm _ _ _, add_right_comm _ _ _, rfl, rfl, rfl⟩
  · exact ⟨(add_assoc _ _ _).symm, (add_assoc _ _ _).symm, rfl, rfl, rfl⟩

theorem SlotInv.notify {s : IoState γ} {i : ℕ} {transfer : Transfer} {now : AprTime}
    {caller : Caller} {events received : ℕ} {oldActive : UInt32} {block : Bool}
    {worker : IoWorker} {workload : IoWorkload} {queue : AsyncQueue} (h : SlotInv s)
    (hpc : s.pc = .wait caller events received oldActive block) (hi : i ∈ s.device.inflight)
    (hnotify : genericQueueNotify config s.worker s.workload s.queue i now =
      .ok (worker, workload, queue)) :
    SlotInv { s with
      worker := worker
      workload := workload
      queue := queue
      pc := afterNotify config queue s.pc caller events received oldActive
      device := s.device.complete i (s.queue.ioaqes i).request transfer } := by
  obtain ⟨hqueue, _⟩ := genericQueueNotify_ok hnotify
  obtain ⟨hbytes, hrequests, hsubmitted, hdepth, hmax⟩ := notify_counters hnotify
  have hconserved : Conserved queue (s.device.inflight.erase i) := hqueue ▸ h.conserved.release hi
  have hactive : 0 < s.queue.active.toNat := by
    rw [← h.conserved.active_eq]
    exact List.length_pos_of_mem hi
  obtain ⟨hat, hprogress⟩ := AsyncQueue.At.release i
    ((s.queue.ioaqes i).request.setCompleted now) h.conserved.add hactive (hpc ▸ h.at_pc)
  rw [← hqueue] at hat hprogress
  constructor
  · exact hconserved
  · show queue.At (afterNotify config queue s.pc caller events received oldActive)
    unfold afterNotify
    split
    · rw [hpc]
      exact hat
    · exact AsyncQueue.At.waitReturned hconserved.add hat fun _ => hprogress
  · have hpending : (s.queue.ioaqes i).request.size +
        ((s.device.inflight.erase i).map fun j => (queue.ioaqes j).request.size).sum =
          s.pendingBytes := by
      rw [hqueue, AsyncQueue.release_ioaqes,
        pendingSizes_congr s.queue i ((s.queue.ioaqes i).request.setCompleted now) rfl]
      exact List.sum_map_erase (fun j => (s.queue.ioaqes j).request.size) hi
    show workload.read.bytes + workload.write.bytes +
      ((s.device.inflight.erase i).map fun j => (queue.ioaqes j).request.size).sum =
        workload.submittedBytes
    rw [hbytes, hsubmitted, add_assoc, hpending, h.bytes]
  · show workload.read.requests + workload.write.requests +
      UInt64.ofNat (s.device.inflight.erase i).length = UInt64.ofNat s.device.submissions.length
    have hlength : s.device.inflight.length = 1 + (s.device.inflight.erase i).length := by
      have hpos := List.length_pos_of_mem hi
      rw [List.length_erase_of_mem hi]
      omega
    rw [hrequests, ← h.requests, hlength, UInt64.ofNat_add, add_assoc]
    rfl
  · show queue.total.toNat = workload.queueDepth.toInt.toNat
    rw [hdepth, ← h.total_eq, hqueue]
    rfl
  · show workload.maxActive ≤ workload.queueDepth
    rw [hdepth, hmax]
    exact h.maxActive_le

/-- Every step on a cooperative platform keeps the invariant. -/
theorem SlotInv.of_step {s t : IoState γ} {a : Action γ} (h : SlotInv s)
    (hco : Cooperative config s a) (hstep : step config G s a = some t) : SlotInv t := by
  cases step_next hstep with
  | start l queue hpc hcreate => exact SlotInv.start hco hcreate
  | startFails l reason hreason =>
    exact h.halt (by rcases hreason with rfl | rfl <;> decide)
  | timeout clock accepted hpc htime =>
    exact { h with at_pc := AsyncQueue.At.barrier h.conserved.add }
  | sentinel clock accepted hpc hready =>
    have hat := h.at_pc
    rw [hpc] at hat
    have hpos : 0 < s.queue.free.toNat := hat
    rw [← h.conserved.free_eq, hready] at hpos
    exact absurd hpos (Nat.lt_irrefl 0)
  | stop clock accepted i rest hpc hready hlimit => exact h.stop hready
  | submitFails clock accepted reason hpc hreason =>
    exact h.halt (by rcases hreason with rfl | ⟨rfl, _⟩ <;> decide)
  | submit clock accepted i rest data seed target hpc htime hready hlimit hfill hassert =>
    obtain rfl : accepted = true := hco
    exact h.submit hready
  | effect i k hi hk => exact h.effect
  | notify i transfer now caller events received oldActive block worker workload queue hpc hi
      hnotifies hnotify => exact h.notify hpc hi hnotify
  | notifyFails i transfer now reason hi hnotify =>
    exact h.halt (genericQueueNotify_error_ne_sentinel hnotify)
  | drop i transfer now caller events received oldActive block hpc hi hnotifies =>
    have htrue : config.platform.notifies transfer = true := hco
    rw [htrue] at hnotifies
    cases hnotifies
  | waitReturn ok caller events received oldActive block hpc hok =>
    refine { h with at_pc := AsyncQueue.At.waitReturned h.conserved.add (hpc ▸ h.at_pc) ?_ }
    rintro rfl
    exact hco caller events received oldActive hpc
  | finish now hpc =>
    have hat := h.at_pc
    rw [hpc] at hat
    exact { h with at_pc := hat }

/-- Every run on a cooperative platform keeps the invariant. -/
theorem SlotInv.of_exec {s t : IoState γ} {as : List (Action γ)} (h : SlotInv s)
    (hrun : Transition.exec (step config G) s as = some t)
    (hco : Along (step config G) (Cooperative config) s as) : SlotInv t :=
  exec_invariant (fun _ _ _ hs hP hstep => hs.of_step hP hstep) hrun hco h

/-- After the barrier nothing is active. -/
theorem SlotInv.active_eq_zero {s : IoState γ} (h : SlotInv s)
    (hpc : s.pc = .drained ∨ s.pc = .done) : s.queue.active = 0 := by
  have hat := h.at_pc
  rcases hpc with hpc | hpc <;> rw [hpc] at hat <;> exact hat

/-- After the barrier no request is in flight. -/
theorem SlotInv.inflight_nil {s : IoState γ} (h : SlotInv s)
    (hpc : s.pc = .drained ∨ s.pc = .done) : s.device.inflight = [] := by
  have hlength := h.conserved.active_eq
  rw [h.active_eq_zero hpc] at hlength
  exact List.eq_nil_of_length_eq_zero hlength

/-- **Slot conservation.** In every state that a cooperative platform can reach, the counters
add up, the ring holds as many distinct entries as are free, the entries in flight are as many
as are active, and an entry of the queue is in exactly one of the two places. The ring is not
empty at the head of the loop, so its sentinel is never taken for an entry. After the barrier
nothing is active, every entry is ready, and everything submitted has been counted. -/
theorem slots_conserved {worker : IoWorker} {generator : γ} {disk : Memory}
    {as : List (Action γ)} {t : IoState γ}
    (hrun : exec (step config G) (IoState.initial worker generator disk) as = some t)
    (hco : Along (step config G) (Cooperative config) (IoState.initial worker generator disk) as) :
    (t.queue.free.toNat + t.queue.active.toNat = t.queue.total.toNat ∧
      t.queue.ready.Nodup ∧ t.queue.ready.length = t.queue.free.toNat ∧
      t.device.inflight.Nodup ∧ t.device.inflight.length = t.queue.active.toNat ∧
      (∀ i, i < t.queue.total.toNat ↔ i ∈ t.queue.ready ∨ i ∈ t.device.inflight) ∧
      ∀ i, i ∈ t.queue.ready → i ∉ t.device.inflight) ∧
    (t.pc = .head → t.queue.ready ≠ []) ∧ t.pc ≠ .halted .sentinel ∧
    (t.pc = .drained ∨ t.pc = .done →
      t.queue.active = 0 ∧ (∀ i, i < t.queue.total.toNat → i ∈ t.queue.ready) ∧
      t.workload.read.bytes + t.workload.write.bytes = t.workload.submittedBytes ∧
      t.workload.read.requests + t.workload.write.requests =
        UInt64.ofNat t.device.submissions.length ∧
      t.workload.maxActive ≤ t.workload.queueDepth) := by
  have h := SlotInv.initial.of_exec hrun hco
  have hat := h.at_pc
  obtain ⟨hready, hinflight, hdisjoint⟩ := List.nodup_append.mp h.conserved.nodup
  have hmem : ∀ i, i < t.queue.total.toNat ↔ i ∈ t.queue.ready ∨ i ∈ t.device.inflight := by
    intro i
    rw [← List.mem_range, ← h.conserved.perm.mem_iff, List.mem_append]
  refine ⟨⟨h.conserved.add, hready, h.conserved.free_eq, hinflight, h.conserved.active_eq, hmem,
    fun i hi hi' => hdisjoint i hi i hi' rfl⟩, ?_, ?_, ?_⟩
  · intro hpc hnil
    rw [hpc] at hat
    have hpos : 0 < t.queue.free.toNat := hat
    rw [← h.conserved.free_eq, hnil] at hpos
    exact Nat.lt_irrefl 0 hpos
  · intro hpc
    rw [hpc] at hat
    exact hat rfl
  · intro hpc
    have hnil := h.inflight_nil hpc
    refine ⟨h.active_eq_zero hpc, fun i hi => ?_, ?_, ?_, h.maxActive_le⟩
    · have hplace := (hmem i).mp hi
      rw [hnil] at hplace
      simpa using hplace
    · have hbytes := h.bytes
      rw [IoState.pendingBytes, hnil] at hbytes
      simpa using hbytes
    · have hrequests := h.requests
      rw [hnil] at hrequests
      simpa using hrequests

/-- The actions of a queue of one entry that writes a file of two requests and stops at the
limit. -/
def twoWrites : List (Action GeneratorData) :=
  [.launch ⟨.sequential ⟨true, 0, 512⟩, 1, 1024, 1024, 10, fun _ _ => 0, true, 0⟩,
    .iterate ⟨1, 1, 1⟩ true, .effect 0 0, .reap 0 .full 2, .waitReturn true,
    .iterate ⟨3, 3, 3⟩ true, .effect 0 0, .reap 0 .full 4, .waitReturn true,
    .iterate ⟨5, 5, 5⟩ true, .finish 6]

/-- After the two writes everything submitted has been counted. -/
theorem slots_conserved_two_writes : ∃ t, exec (step ⟨false, .linux, 4096, true⟩ workloads)
    (IoState.initial ⟨0, 8192, 0, 0, 0, 88172645463325252, true⟩ (.sequential ⟨true, 0, 512⟩)
      fun _ => 0) twoWrites = some t ∧
    t.workload.read.bytes + t.workload.write.bytes = t.workload.submittedBytes := by
  have hrun : exec (step ⟨false, .linux, 4096, true⟩ workloads)
    (IoState.initial ⟨0, 8192, 0, 0, 0, 88172645463325252, true⟩ (.sequential ⟨true, 0, 512⟩)
      fun _ => 0) twoWrites = some _ := rfl
  exact ⟨_, hrun, ((slots_conserved hrun (by decide)).2.2.2 (Or.inr rfl)).2.2.1⟩

end DiskBench
