import Mathlib.Data.List.Perm.Subperm
import DiskBench.Slots

/-!
# Waiting for completions

`generic_queue_wait` and `generic_queue_barrier` of `queue.c` as calls of their own, with the
signed and unsigned counters of the source. The platform's `queue_wait` is any function of the
number of the call, of its `block` flag and of the state of the queue.
-/

namespace DiskBench

/-- What a call of `generic_queue_wait` reads and changes, with the entries that the platform
holds. -/
structure WaitState where
  worker : IoWorker
  workload : IoWorkload
  queue : AsyncQueue
  inflight : List ℕ

/-- A completion that `queue_wait` hands to `generic_queue_notify`: the entry, the content of its
buffer by then, and the time. -/
structure Arrival where
  entry : ℕ
  buf : Memory
  now : AprTime

/-- The `queue_wait` of a platform. -/
structure QueueWait where
  /-- The completions that a call hands over, in their order. -/
  arrivals : ℕ → Bool → WaitState → List Arrival
  /-- Whether the call returns `APR_SUCCESS`. -/
  success : ℕ → Bool → WaitState → Bool

/-- A call of `queue_wait` as the platform sees it. -/
structure WaitCall where
  block : Bool
  /-- `queue->free` at the call. -/
  free : UInt32
  arrivals : List Arrival

/-- The number of requests that a list of calls has notified. -/
def notified (calls : List WaitCall) : ℕ := (calls.map fun call => call.arrivals.length).sum

/-- The return of `generic_queue_wait`. -/
structure Waited where
  state : WaitState
  /-- The new value of `*events`. -/
  events : Int32
  calls : List WaitCall

/-- `generic_queue_notify` for one completion. -/
def WaitState.notify (config : Config) (s : WaitState) (arrival : Arrival) :
    Except Halt WaitState :=
  let request := (s.queue.ioaqes arrival.entry).request.setBuf arrival.buf
  match genericQueueNotify config s.worker s.workload (s.queue.setRequest arrival.entry request)
      arrival.entry arrival.now with
  | .error reason => .error reason
  | .ok (worker, workload, queue) =>
    .ok ⟨worker, workload, queue, s.inflight.erase arrival.entry⟩

/-- The completions of one call of `queue_wait`. -/
def WaitState.notifyAll (config : Config) (s : WaitState) (arrivals : List Arrival) :
    Except Halt WaitState :=
  arrivals.foldlM (WaitState.notify config) s

/-- The call of `queue_wait` that the loop makes after `n` others, with `received` events. -/
def WaitState.waitCall (platform : QueueWait) (events : Int32) (n : ℕ) (received : Int32)
    (s : WaitState) : WaitCall :=
  let block := received < events || s.queue.free = 0
  ⟨block, s.queue.free, platform.arrivals n block s⟩

/-- The loop of `generic_queue_wait` after `calls`, with `received` events. -/
def WaitState.waitFrom (config : Config) (platform : QueueWait) (events : Int32) :
    ℕ → List WaitCall → Int32 → WaitState → Option (Except Halt Waited)
  | 0, _, _, _ => none
  | fuel + 1, calls, received, s =>
    if s.queue.active > 0 then
      let oldActive := s.queue.active.toInt32
      let call := s.waitCall platform events calls.length received
      match s.notifyAll config call.arrivals with
      | .error reason => some (.error reason)
      | .ok s' =>
        if config.assertions ∧ ¬platform.success calls.length call.block s then
          some (.error .assertion)
        else if oldActive.toUInt32 - s'.queue.active ≤ 0 then
          some (.ok ⟨s', received, calls ++ [call]⟩)
        else
          s'.waitFrom config platform events fuel (calls ++ [call])
            (received.toUInt32 + (oldActive.toUInt32 - s'.queue.active)).toInt32
    else some (.ok ⟨s, received, calls⟩)

/-- `generic_queue_wait` with at most `fuel` calls of `queue_wait`. -/
def WaitState.genericQueueWait (config : Config) (platform : QueueWait) (fuel : ℕ)
    (s : WaitState) (events : Int32) : Option (Except Halt Waited) :=
  s.waitFrom config platform events fuel [] 0

/-- `generic_queue_barrier`. -/
def WaitState.genericQueueBarrier (config : Config) (platform : QueueWait) (fuel : ℕ)
    (s : WaitState) : Option (Except Halt Waited) :=
  s.genericQueueWait config platform fuel s.queue.active.toInt32

/-- The contract of the platform: a call succeeds and notifies requests in flight only, each of
them once, and a blocking call at least one when there is one. -/
structure QueueWait.Contract (platform : QueueWait) : Prop where
  success : ∀ n block s, platform.success n block s = true
  inflight : ∀ n block s, ((platform.arrivals n block s).map Arrival.entry).Subperm s.inflight
  progress : ∀ n s, s.inflight ≠ [] → platform.arrivals n true s ≠ []

/-- A queue of `int` depth at least one, whose counters add up and whose entries in flight have
been submitted. -/
structure WaitState.InUse (s : WaitState) : Prop where
  depth : ∃ queueDepth : Int32, 1 ≤ queueDepth ∧ s.queue.total = queueDepth.toUInt32
  add : s.queue.free.toNat + s.queue.active.toNat = s.queue.total.toNat
  active_eq : s.inflight.length = s.queue.active.toNat
  submitted : ∀ i ∈ s.inflight, (s.queue.ioaqes i).callback ≠ .null

/-- No call blocks once the requested events have been received and an entry is free. -/
def Polite (events : Int32) (calls : List WaitCall) : Prop :=
  ∀ before call after, calls = before ++ call :: after →
    events.toInt ≤ notified before → 0 < call.free.toNat → call.block = false

/-- What the caller of `generic_queue_wait` is promised. -/
structure Honoured (s : WaitState) (events : Int32) (w : Waited) : Prop where
  /-- `*events` is the number of requests notified during the call. -/
  events_eq : w.events.toInt = notified w.calls
  decrease : w.state.queue.active.toNat + notified w.calls = s.queue.active.toNat
  enough : min events.toInt s.queue.active.toNat ≤ notified w.calls
  free : 0 < w.state.queue.free.toNat
  polite : Polite events w.calls

section Wait

variable {config : Config} {platform : QueueWait} {s t : WaitState} {events : Int32}

/-- Some entry in flight is a read, the only kind of request whose callback can end the process. -/
def WaitState.Reading (s : WaitState) : Prop :=
  ∃ i ∈ s.inflight, (s.queue.ioaqes i).callback = .readComplete

/-- The state after `k` more requests have been notified. -/
structure WaitState.After (s t : WaitState) (k : ℕ) : Prop where
  active : t.queue.active.toNat + k = s.queue.active.toNat
  free : t.queue.free.toNat = s.queue.free.toNat + k
  total : t.queue.total = s.queue.total
  inflight : t.inflight.Subperm s.inflight
  length : t.inflight.length + k = s.inflight.length
  callback : ∀ i, (t.queue.ioaqes i).callback = (s.queue.ioaqes i).callback

theorem WaitState.After.refl (s : WaitState) : s.After s 0 :=
  ⟨rfl, rfl, rfl, List.Subperm.refl _, rfl, fun _ => rfl⟩

theorem WaitState.After.trans {u : WaitState} {k l : ℕ} (h : s.After t k) (h' : t.After u l) :
    s.After u (k + l) where
  active := by have := h.active; have := h'.active; omega
  free := by have := h.free; have := h'.free; omega
  total := h'.total.trans h.total
  inflight := h'.inflight.trans h.inflight
  length := by have := h.length; have := h'.length; omega
  callback := fun i => (h'.callback i).trans (h.callback i)

/-- Notified requests leave a queue in use. -/
theorem WaitState.InUse.after {k : ℕ} (h : s.InUse) (hafter : s.After t k) : t.InUse where
  depth := by
    rw [hafter.total]
    exact h.depth
  add := by
    have := h.add
    have := hafter.active
    have := hafter.free
    rw [hafter.total]
    omega
  active_eq := by
    have := h.active_eq
    have := hafter.active
    have := hafter.length
    omega
  submitted := fun i hi => by
    rw [hafter.callback]
    exact h.submitted i (hafter.inflight.subset hi)

theorem WaitState.Reading.of_after {k : ℕ} (h : t.Reading) (hafter : s.After t k) : s.Reading := by
  obtain ⟨i, hi, hcallback⟩ := h
  exact ⟨i, hafter.inflight.subset hi, (hafter.callback i).symm.trans hcallback⟩

/-- A queue has fewer entries than an `int` can count. -/
theorem WaitState.InUse.total_lt (h : s.InUse) :
    0 < s.queue.total.toNat ∧ s.queue.total.toNat < 2 ^ 31 := by
  obtain ⟨queueDepth, hdepth, htotal⟩ := h.depth
  have hlt := queueDepth.toInt_lt
  rw [htotal]
  refine ⟨toUInt32_pos hdepth, ?_⟩
  rw [toNat_toUInt32_of_pos hdepth]
  omega

/-- Replacing the request of an entry keeps the callbacks of all entries. -/
theorem setRequest_callback (queue : AsyncQueue) (i : ℕ) (request : IoRequest) (j : ℕ) :
    ((queue.setRequest i request).ioaqes j).callback = (queue.ioaqes j).callback := by
  by_cases hj : j = i
  · rw [hj, AsyncQueue.setRequest_self]
  · rw [AsyncQueue.setRequest_of_ne _ _ _ hj]

/-- A completed entry is counted as free instead of active. -/
theorem WaitState.InUse.after_release (h : s.InUse) {i : ℕ} (hi : i ∈ s.inflight)
    (worker : IoWorker) (workload : IoWorkload) (filled completed : IoRequest) :
    s.After ⟨worker, workload,
      ((s.queue.setRequest i filled).setRequest i completed).release i, s.inflight.erase i⟩ 1 := by
  have hadd := h.add
  have hlt := s.queue.total.toNat_lt
  have hlength := h.active_eq
  have hpos := List.length_pos_of_mem hi
  have hsub : (s.queue.active - 1).toNat = s.queue.active.toNat - 1 :=
    UInt32.toNat_sub_of_le _ _ (UInt32.le_iff_toNat_le.mpr (by simpa using by omega))
  constructor
  · show (s.queue.active - 1).toNat + 1 = _
    rw [hsub]
    omega
  · show (s.queue.free + 1).toNat = _
    rw [UInt32.toNat_add, UInt32.toNat_one]
    omega
  · rfl
  · exact List.erase_subperm i s.inflight
  · show (s.inflight.erase i).length + 1 = _
    rw [List.length_erase_of_mem hi]
    omega
  · intro j
    rw [AsyncQueue.release_ioaqes, setRequest_callback, setRequest_callback]

/-- One completion of a request in flight is counted, unless it is a read that ends the
process. -/
theorem WaitState.InUse.notify (h : s.InUse) {arrival : Arrival}
    (hentry : arrival.entry ∈ s.inflight) :
    (∃ t, s.notify config arrival = .ok t ∧ s.After t 1 ∧
        t.inflight = s.inflight.erase arrival.entry) ∨
      ∃ output, s.notify config arrival = .error (.integrityError output) ∧ s.Reading := by
  have hsame := setRequest_callback s.queue arrival.entry
    ((s.queue.ioaqes arrival.entry).request.setBuf arrival.buf)
  rw [WaitState.notify]
  split
  · rename_i reason hnotify
    obtain ⟨hcallback, _⟩ | ⟨hcallback, output, rfl, _⟩ := genericQueueNotify_error hnotify
    · exact absurd ((hsame _).symm.trans hcallback) (h.submitted _ hentry)
    · exact Or.inr ⟨output, rfl, arrival.entry, hentry, (hsame _).symm.trans hcallback⟩
  · rename_i worker workload queue hnotify
    obtain ⟨rfl, _⟩ := genericQueueNotify_ok hnotify
    exact Or.inl ⟨_, rfl, h.after_release hentry worker workload _ _, rfl⟩

/-- The completions of one call of `queue_wait` are counted one by one. -/
theorem WaitState.InUse.notifyAll (h : s.InUse) {arrivals : List Arrival}
    (hinflight : (arrivals.map Arrival.entry).Subperm s.inflight) :
    (∃ t, s.notifyAll config arrivals = .ok t ∧ s.After t arrivals.length) ∨
      ∃ output, s.notifyAll config arrivals = .error (.integrityError output) ∧ s.Reading := by
  induction arrivals generalizing s with
  | nil => exact Or.inl ⟨s, rfl, .refl s⟩
  | cons arrival rest ih =>
    have hentry : arrival.entry ∈ s.inflight := hinflight.subset List.mem_cons_self
    have hrest : (rest.map Arrival.entry).Subperm (s.inflight.erase arrival.entry) := by
      have herase := hinflight.erase arrival.entry
      rwa [List.map_cons, List.erase_cons_head] at herase
    rw [WaitState.notifyAll, List.foldlM_cons]
    obtain ⟨t, hnotify, hafter, hkept⟩ | ⟨output, hnotify, hreading⟩ :=
      @WaitState.InUse.notify config s h arrival hentry
    · rw [hnotify]
      obtain ⟨u, hall, hafter'⟩ | ⟨output, hall, hreading⟩ := ih (h.after hafter) (hkept ▸ hrest)
      · refine Or.inl ⟨u, hall, ?_⟩
        rw [List.length_cons, Nat.add_comm]
        exact hafter.trans hafter'
      · exact Or.inr ⟨output, hall, hreading.of_after hafter⟩
    · rw [hnotify]
      exact Or.inr ⟨output, rfl, hreading⟩

theorem notified_append (calls : List WaitCall) (call : WaitCall) :
    notified (calls ++ [call]) = notified calls + call.arrivals.length := by
  simp [notified]

/-- A call that keeps to the rule is added to calls that keep to it. -/
theorem Polite.append {calls : List WaitCall} {call : WaitCall} (h : Polite events calls)
    (hcall : events.toInt ≤ notified calls → 0 < call.free.toNat → call.block = false) :
    Polite events (calls ++ [call]) := by
  intro before c after heq
  rcases List.eq_nil_or_concat after with rfl | ⟨after, last, rfl⟩
  · obtain ⟨rfl, hsame⟩ := List.append_inj' heq rfl
    obtain rfl := List.singleton_inj.mp hsame
    exact hcall
  · rw [List.concat_eq_append, ← List.cons_append, ← List.append_assoc] at heq
    exact h before c after (List.append_inj' heq rfl).1

/-- The loop of `generic_queue_wait` has notified all it has received. -/
structure Waiting (s : WaitState) (events : Int32) (calls : List WaitCall) (received : Int32)
    (t : WaitState) : Prop where
  inUse : s.InUse
  after : s.After t (notified calls)
  received_eq : received = (UInt32.ofNat (notified calls)).toInt32
  polite : Polite events calls

variable {calls : List WaitCall} {received : Int32}

theorem Waiting.start (h : s.InUse) (events : Int32) : Waiting s events [] 0 s :=
  ⟨h, .refl s, rfl, fun before call after heq => by simp at heq⟩

/-- The counters of the source count the notified requests without overflow. -/
theorem Waiting.received_toInt (h : Waiting s events calls received t) :
    received.toInt = notified calls := by
  have hlt := h.inUse.total_lt.2
  have hadd := h.inUse.add
  have hactive := h.after.active
  have hnat : (UInt32.ofNat (notified calls)).toNat = notified calls :=
    UInt32.toNat_ofNat_of_lt' (Nat.lt_trans (by omega : notified calls < 2 ^ 31) (by decide))
  rw [h.received_eq, toInt_toInt32 (by omega), hnat]

/-- A call that blocks does so because events are missing or no entry is free. -/
theorem Waiting.waitCall_polite (h : Waiting s events calls received t)
    (hevents : events.toInt ≤ notified calls) (hfree : 0 < t.queue.free.toNat) :
    (t.waitCall platform events calls.length received).block = false := by
  have hreceived : ¬ received < events := by
    rw [Int32.lt_iff_toInt_lt, h.received_toInt]
    omega
  have hzero : t.queue.free ≠ 0 := fun hzero => by simp [hzero] at hfree
  simp [WaitState.waitCall, hreceived, hzero]

/-- A call that notifies nothing is made only when nothing has to be waited for. -/
theorem Waiting.idle (h : Waiting s events calls received t) (hplatform : platform.Contract)
    (hflight : t.inflight ≠ [])
    (hnone : (t.waitCall platform events calls.length received).arrivals = []) :
    events.toInt ≤ notified calls ∧ 0 < t.queue.free.toNat := by
  have hblock : (t.waitCall platform events calls.length received).block = false := by
    rw [← Bool.not_eq_true]
    intro hblock
    apply hplatform.progress calls.length t hflight
    rw [← hblock]
    exact hnone
  simp only [WaitState.waitCall, Bool.or_eq_false_iff, decide_eq_false_iff_not,
    Int32.lt_iff_toInt_lt, h.received_toInt] at hblock
  refine ⟨by omega, Nat.pos_of_ne_zero fun hzero => hblock.2 (UInt32.toNat_inj.mp hzero)⟩

/-- The loop ends when nothing is active any more. -/
theorem Waiting.drained (h : Waiting s events calls received t) (hactive : ¬t.queue.active > 0) :
    Honoured s events ⟨t, received, calls⟩ := by
  have hzero : t.queue.active.toNat = 0 :=
    Nat.eq_zero_of_not_pos fun hpos => hactive (UInt32.lt_iff_toNat_lt.mpr hpos)
  have hnotified := h.after.active
  have hfree := (h.inUse.after h.after).add
  have htotal := (h.inUse.after h.after).total_lt.1
  refine ⟨h.received_toInt, hnotified, ?_, ?_, h.polite⟩
  · have hle := Int.min_le_right events.toInt s.queue.active.toNat
    show _ ≤ ((notified calls : ℕ) : ℤ)
    omega
  · show 0 < t.queue.free.toNat
    omega

/-- The loop goes on with the counters that the source computes. -/
theorem Waiting.next {u : WaitState} {call : WaitCall}
    (h : Waiting s events calls received t) (hafter : t.After u call.arrivals.length)
    (hcall : events.toInt ≤ notified calls → 0 < call.free.toNat → call.block = false) :
    Waiting s events (calls ++ [call])
      (received.toUInt32 + (t.queue.active.toInt32.toUInt32 - u.queue.active)).toInt32 u where
  inUse := h.inUse
  after := by
    rw [notified_append]
    exact h.after.trans hafter
  received_eq := by
    have hdiff : t.queue.active - u.queue.active = UInt32.ofNat call.arrivals.length := by
      have hactive := hafter.active
      have hlt := t.queue.active.toNat_lt
      apply UInt32.toNat_inj.mp
      rw [UInt32.toNat_sub_of_le _ _ (UInt32.le_iff_toNat_le.mpr (by omega)),
        UInt32.toNat_ofNat_of_lt' (show call.arrivals.length < UInt32.size by
          unfold UInt32.size; omega)]
      omega
    rw [h.received_eq, notified_append, UInt32.toUInt32_toInt32, UInt32.toUInt32_toInt32, hdiff,
      UInt32.ofNat_add]
  polite := h.polite.append hcall

/-- The loop ends when a call has notified nothing. -/
theorem Waiting.stop {u : WaitState} (h : Waiting s events calls received t)
    (hplatform : platform.Contract) (hflight : t.inflight ≠ [])
    (hnone : (t.waitCall platform events calls.length received).arrivals = [])
    (hafter : t.After u 0) :
    Honoured s events
      ⟨u, received, calls ++ [t.waitCall platform events calls.length received]⟩ := by
  obtain ⟨hevents, hfree⟩ := h.idle hplatform hflight hnone
  have hsame : notified (calls ++ [t.waitCall platform events calls.length received]) =
      notified calls := by
    rw [notified_append, hnone]
    rfl
  have hactive := (h.after.trans hafter).active
  have hleft := hafter.free
  refine ⟨?_, ?_, ?_, ?_, h.polite.append fun _ _ => h.waitCall_polite hevents hfree⟩
  · rw [hsame]
    exact h.received_toInt
  · rw [hsame]
    exact hactive
  · have hle := Int.min_le_left events.toInt s.queue.active.toNat
    rw [hsame]
    omega
  · show 0 < u.queue.free.toNat
    omega

/-- **The loop of `generic_queue_wait`** ends after at most as many calls as requests are active,
by a return that honours the contract or by a read whose check ends the process. -/
theorem Waiting.ends (hplatform : platform.Contract) {fuel : ℕ}
    (h : Waiting s events calls received t) (hfuel : t.queue.active.toNat < fuel) :
    (∃ output, t.waitFrom config platform events fuel calls received =
        some (.error (.integrityError output)) ∧ s.Reading) ∨
      ∃ w, t.waitFrom config platform events fuel calls received = some (.ok w) ∧
        Honoured s events w := by
  induction fuel generalizing calls received t with
  | zero => omega
  | succ fuel ih =>
    by_cases hactive : t.queue.active > 0
    · have hinUse := h.inUse.after h.after
      have hflight : t.inflight ≠ [] := by
        intro hnil
        have hlength := hinUse.active_eq
        have hpos : 0 < t.queue.active.toNat := UInt32.lt_iff_toNat_lt.mp hactive
        rw [hnil, List.length_nil] at hlength
        omega
      have hcall : ((t.waitCall platform events calls.length received).arrivals.map
          Arrival.entry).Subperm t.inflight := hplatform.inflight _ _ t
      rw [WaitState.waitFrom, if_pos hactive]
      dsimp only
      obtain ⟨u, hall, hafter⟩ | ⟨output, hall, hreading⟩ :=
        @WaitState.InUse.notifyAll config t hinUse _ hcall
      · rw [hall]
        dsimp only
        rw [if_neg (by simp [hplatform.success])]
        by_cases hnone : (t.waitCall platform events calls.length received).arrivals = []
        · rw [hnone] at hafter
          have hsame : t.queue.active = u.queue.active := UInt32.toNat_inj.mp hafter.active.symm
          rw [if_pos (by simp [hsame])]
          exact Or.inr ⟨_, rfl, h.stop hplatform hflight hnone hafter⟩
        · have hless : u.queue.active.toNat < t.queue.active.toNat := by
            have hpos := List.length_pos_iff.mpr hnone
            have hdecrease := hafter.active
            omega
          have hdiff : ¬t.queue.active.toInt32.toUInt32 - u.queue.active ≤ 0 := by
            rw [UInt32.toUInt32_toInt32, UInt32.le_iff_toNat_le,
              UInt32.toNat_sub_of_le _ _ (UInt32.le_iff_toNat_le.mpr (Nat.le_of_lt hless)),
              UInt32.toNat_zero]
            omega
          rw [if_neg hdiff]
          exact ih (h.next hafter fun hevents hfree => h.waitCall_polite hevents hfree) (by omega)
      · rw [hall]
        exact Or.inl ⟨output, rfl, hreading.of_after h.after⟩
    · rw [WaitState.waitFrom, if_neg hactive]
      exact Or.inr ⟨_, rfl, h.drained hactive⟩

/-- A barrier that keeps the contract has waited for everything. -/
theorem Honoured.drained {w : Waited} (h : s.InUse)
    (hw : Honoured s s.queue.active.toInt32 w) : w.state.queue.active = 0 := by
  have hadd := h.add
  have htotal := h.total_lt.2
  have henough := hw.enough
  have hdecrease := hw.decrease
  rw [toInt_toInt32 (by omega), Int.min_self] at henough
  apply UInt32.toNat_inj.mp
  rw [UInt32.toNat_zero]
  omega

/-- **The contract of `generic_queue_wait`.** On a platform that keeps its part, a call ends after
at most as many calls of `queue_wait` as requests are active, unless a read in flight ends the
process. It reports the number of requests that it has notified, which is the decrease of `active`
and at least the smaller of the requested events and the requests active at entry; an entry is free
at the return, and no call has blocked once the requested events had been received and an entry was
free. `generic_queue_barrier` returns with nothing active. -/
theorem genericQueueWait_contract (config : Config) (hplatform : platform.Contract) (h : s.InUse)
    (events : Int32) {fuel : ℕ} (hfuel : s.queue.active.toNat < fuel) :
    ((∃ output, s.genericQueueWait config platform fuel events =
          some (.error (.integrityError output)) ∧ s.Reading) ∨
        ∃ w, s.genericQueueWait config platform fuel events = some (.ok w) ∧
          Honoured s events w) ∧
      ((∃ output, s.genericQueueBarrier config platform fuel =
            some (.error (.integrityError output)) ∧ s.Reading) ∨
        ∃ w, s.genericQueueBarrier config platform fuel = some (.ok w) ∧
          Honoured s s.queue.active.toInt32 w ∧ w.state.queue.active = 0) := by
  refine ⟨(Waiting.start h events).ends hplatform hfuel, ?_⟩
  obtain herror | ⟨w, hw, hhonoured⟩ :=
    @Waiting.ends config _ _ _ _ _ _ hplatform fuel (Waiting.start h s.queue.active.toInt32) hfuel
  · exact Or.inl herror
  · exact Or.inr ⟨w, hw, hhonoured, hhonoured.drained h⟩

/-- The worker thread of `IoWorker` is at the same call of `queue_wait`, with the same flag. -/
theorem Waiting.waitLoop_eq (h : Waiting s events calls received t) (hevents : 0 ≤ events.toInt)
    (hactive : t.queue.active > 0) (caller : Caller) :
    waitLoop t.queue caller events.toInt.toNat (notified calls) =
      .wait caller events.toInt.toNat (notified calls) t.queue.active
        (t.waitCall platform events calls.length received).block := by
  have hless : notified calls < events.toInt.toNat ↔ received < events := by
    rw [Int32.lt_iff_toInt_lt, h.received_toInt]
    omega
  simp only [waitLoop, if_pos hactive, WaitState.waitCall, hless]

end Wait

section Machine

variable {γ : Type} {config : Config} {G : Generator γ} {platform : QueueWait} {events : Int32}

/-- What a wait reads and changes of the state of the worker thread. -/
def IoState.waitState (m : IoState γ) : WaitState :=
  ⟨m.worker, m.workload, m.queue, m.device.inflight⟩

/-- The completion delivers the buffer as the device has filled it. -/
def Arrival.Filled (queue : AsyncQueue) (arrival : Arrival) : Prop :=
  arrival.buf = (queue.ioaqes arrival.entry).request.buf

/-- A completion is a `reap` of the worker thread. -/
theorem notify_reap {m : IoState γ} {u : WaitState} {arrival : Arrival} {caller : Caller}
    {e r : ℕ} {oldActive : UInt32} {block : Bool} (hlinux : config.platform = .linux)
    (hpc : m.pc = .wait caller e r oldActive block) (hentry : arrival.entry ∈ m.device.inflight)
    (hfilled : arrival.Filled m.queue) (hnotify : m.waitState.notify config arrival = .ok u) :
    ∃ m', step config G m (.reap arrival.entry .full arrival.now) = some m' ∧
      m'.waitState = u ∧ m'.pc = m.pc ∧
      u.inflight = m.device.inflight.erase arrival.entry ∧
      ∀ j, (u.queue.ioaqes j).request.buf = (m.queue.ioaqes j).request.buf := by
  have hsame : m.queue.setRequest arrival.entry
      ((m.queue.ioaqes arrival.entry).request.setBuf arrival.buf) = m.queue := by
    rw [hfilled]
    exact congrArg (fun f => { m.queue with ioaqes := f }) (Function.update_eq_self _ _)
  rw [WaitState.notify] at hnotify
  dsimp only [IoState.waitState] at hnotify
  rw [hsame] at hnotify
  split at hnotify
  · cases hnotify
  · rename_i worker workload queue hresult
    obtain rfl := Except.ok.inj hnotify
    have hnotifies : config.platform.notifies .full = true := by
      rw [hlinux]
      rfl
    refine ⟨_, step_reap hpc hentry hnotifies hresult, rfl, ?_, rfl, fun j => ?_⟩
    · show afterNotify config queue m.pc caller e r oldActive = m.pc
      rw [afterNotify, hlinux]
    · obtain ⟨rfl, _⟩ := genericQueueNotify_ok hresult
      obtain ⟨now, hkept⟩ := notified_entry m.queue arrival.entry arrival.now j
      rw [hkept]
      rfl

/-- The completions of a call are `reap` steps of the worker thread, one after the other. -/
theorem notifyAll_reaps {m : IoState γ} {u : WaitState} {arrivals : List Arrival} {caller : Caller}
    {e r : ℕ} {oldActive : UInt32} {block : Bool} (hlinux : config.platform = .linux)
    (hpc : m.pc = .wait caller e r oldActive block)
    (hinflight : (arrivals.map Arrival.entry).Subperm m.device.inflight)
    (hfilled : ∀ arrival ∈ arrivals, arrival.Filled m.queue)
    (hnotify : m.waitState.notifyAll config arrivals = .ok u) :
    ∃ m', Transition.exec (step config G) m
        (arrivals.map fun arrival => .reap arrival.entry .full arrival.now) = some m' ∧
      m'.waitState = u ∧ m'.pc = m.pc := by
  induction arrivals generalizing m with
  | nil => exact ⟨m, rfl, Except.ok.inj hnotify, rfl⟩
  | cons arrival rest ih =>
    rw [WaitState.notifyAll, List.foldlM_cons] at hnotify
    cases hfirst : m.waitState.notify config arrival with
    | error reason =>
      rw [hfirst] at hnotify
      cases hnotify
    | ok v =>
      rw [hfirst] at hnotify
      obtain ⟨m₁, hstep, rfl, hpc₁, herased, hbuf⟩ := @notify_reap γ config G m v arrival caller e r
        oldActive block hlinux hpc (hinflight.subset List.mem_cons_self)
        (hfilled arrival List.mem_cons_self) hfirst
      have hrest : (rest.map Arrival.entry).Subperm m₁.device.inflight := by
        have herase := hinflight.erase arrival.entry
        rw [List.map_cons, List.erase_cons_head] at herase
        rw [show m₁.device.inflight = m.device.inflight.erase arrival.entry from herased]
        exact herase
      have hfilled₁ : ∀ a ∈ rest, a.Filled m₁.queue := fun a ha =>
        (hfilled a (List.mem_cons_of_mem _ ha)).trans (hbuf a.entry).symm
      obtain ⟨m', hexec, hu, hpc'⟩ := ih (hpc₁.trans hpc) hrest hfilled₁ hnotify
      exact ⟨m', Transition.exec_cons_eq_some.mpr ⟨m₁, hstep, hexec⟩, hu, hpc'.trans hpc₁⟩

/-- **Simulation.** What a call of `generic_queue_wait` does when it returns is a run of the worker
thread from the head of its waiting loop to the caller. -/
theorem genericQueueWait_simulated (hlinux : config.platform = .linux)
    (hplatform : platform.Contract)
    (hfilled : ∀ n block s, ∀ arrival ∈ platform.arrivals n block s, arrival.Filled s.queue)
    {fuel : ℕ} {m : IoState γ} {caller : Caller} {e r : ℕ} {calls : List WaitCall}
    {received : Int32} {w : Waited} (hpc : m.pc = waitLoop m.queue caller e r)
    (hw : m.waitState.waitFrom config platform events fuel calls received = some (.ok w)) :
    ∃ as m', Transition.exec (step config G) m as = some m' ∧ m'.waitState = w.state ∧
      m'.pc = caller.resume := by
  induction fuel generalizing m r calls received with
  | zero => cases hw
  | succ fuel ih =>
    rw [WaitState.waitFrom] at hw
    by_cases hactive : m.waitState.queue.active > 0
    · rw [if_pos hactive] at hw
      rw [waitLoop, if_pos (show m.queue.active > 0 from hactive)] at hpc
      cases hall : m.waitState.notifyAll config
          (m.waitState.waitCall platform events calls.length received).arrivals with
      | error reason => simp [hall] at hw
      | ok u =>
        obtain ⟨m₁, hexec, rfl, hpc₁⟩ := @notifyAll_reaps γ config G m u _ caller e r
          m.queue.active _ hlinux hpc (hplatform.inflight _ _ _) (hfilled _ _ _) hall
        have hreturn := @step_waitReturn γ config G m₁ caller e r m.queue.active _ (hpc₁.trans hpc)
        have hturn := Transition.exec_append.mpr
          ⟨m₁, hexec, Transition.exec_cons_eq_some.mpr ⟨_, hreturn, Transition.exec_nil _⟩⟩
        simp only [hall, hplatform.success, not_true_eq_false, and_false, if_false,
          UInt32.toUInt32_toInt32] at hw
        have hzero : m.queue.active - m₁.queue.active ≤ 0 ↔
            m.queue.active - m₁.queue.active = 0 := UInt32.le_zero_iff
        split at hw
        · rename_i hnone
          cases hw
          refine ⟨_, _, hturn, rfl, ?_⟩
          show waitReturned config m₁.queue caller e r m.queue.active true = _
          rw [waitReturned, if_neg (by simp), if_pos (hzero.mp hnone)]
        · rename_i hsome
          have hloop : waitReturned config m₁.queue caller e r m.queue.active true =
              waitLoop m₁.queue caller e (r + (m.queue.active - m₁.queue.active).toNat) := by
            rw [waitReturned, if_neg (by simp), if_neg fun h => hsome (hzero.mpr h)]
          obtain ⟨as, m', hrest, hstate, hpc'⟩ := @ih
            { m₁ with pc := waitReturned config m₁.queue caller e r m.queue.active true } _ _ _
            hloop hw
          exact ⟨_, m', Transition.exec_append.mpr ⟨_, hturn, hrest⟩, hstate, hpc'⟩
    · rw [if_neg hactive] at hw
      rw [waitLoop, if_neg (show ¬m.queue.active > 0 from hactive)] at hpc
      cases hw
      exact ⟨[], m, rfl, rfl, hpc⟩

end Machine

/-- A platform that hands over one completion in each call that blocks, the newest request
first. -/
def newestFirst : QueueWait where
  arrivals _ block s :=
    if block then s.inflight.getLast?.toList.map fun i => ⟨i, fun _ => 0, 5⟩ else []
  success _ _ _ := true

theorem newestFirst_contract : newestFirst.Contract where
  success _ _ _ := rfl
  inflight n block s := by
    cases block with
    | false => exact List.nil_subperm
    | true =>
      cases hlast : s.inflight.getLast? with
      | none => simp [newestFirst, hlast]
      | some i => simpa [newestFirst, hlast] using List.mem_of_getLast? hlast
  progress n s hflight := by
    simpa [newestFirst] using hflight

/-- Two writes in flight in a queue of depth two. -/
def twoActive : WaitState where
  worker := ⟨1024, 8192, 1024, 0, 0, 1, true⟩
  workload := ⟨1024, .zero, .zero, 0, 0, 2, 2⟩
  queue := ⟨2, 2, 0, [], fun i =>
    ⟨⟨Int64.ofNat (512 * i), 512, fun _ => 0, UInt64.ofNat i * 4096, 4096, 0, 0, 0, true⟩,
      .writeComplete⟩⟩
  inflight := [0, 1]

theorem twoActive_inUse : twoActive.InUse :=
  ⟨⟨2, by decide, rfl⟩, rfl, rfl, by decide⟩

/-- The statement at two writes in flight, for one requested event: the call returns with one
request notified and one active, and the barrier with none. -/
theorem genericQueueWait_contract_twoActive :
    (∃ w, twoActive.genericQueueWait ⟨false, .linux, 4096, true⟩ newestFirst 3 1 = some (.ok w) ∧
        Honoured twoActive 1 w) ∧
      ∃ w, twoActive.genericQueueBarrier ⟨false, .linux, 4096, true⟩ newestFirst 3 =
        some (.ok w) ∧ w.state.queue.active = 0 := by
  have hreading : ¬twoActive.Reading := by
    rintro ⟨i, hi, hcallback⟩
    cases hcallback
  obtain ⟨hwait, hbarrier⟩ := genericQueueWait_contract ⟨false, .linux, 4096, true⟩
    newestFirst_contract twoActive_inUse 1 (by decide : twoActive.queue.active.toNat < 3)
  refine ⟨hwait.resolve_left fun herror => hreading herror.choose_spec.2, ?_⟩
  obtain ⟨w, hw, _, hactive⟩ :=
    hbarrier.resolve_left fun herror => hreading herror.choose_spec.2
  exact ⟨w, hw, hactive⟩

end DiskBench
