import DiskBench.Reproducible
import DiskBench.Slots

/-!
# Calls of the platform that fail

In a release build nothing looks at the results of `queue_read`, `queue_write` and `queue_wait`.
A failed wait does no harm as long as an entry is free. A failed submission loses its entry, and
the loop goes on with an empty ring when it comes back from a failed wait without a free entry.
-/

namespace DiskBench

open Transition

variable {γ : Type} {config : Config} {G : Generator γ}

/-- The bytes of the requests that the device has accepted. -/
def IoState.acceptedBytes (s : IoState γ) : UInt64 :=
  (s.device.submissions.map IoRequest.size).sum

/-- The queue agrees with the device: the active entries are as many as are in flight, all others
are in the ring, only accepted requests are counted, a wait that has just begun to block has a
request to wait for, and the sentinel of the ring has not been taken for an entry. -/
structure IoState.Intact (s : IoState γ) : Prop where
  active_eq : s.device.inflight.length = s.queue.active.toNat
  slots : ∀ i, i < s.queue.total.toNat → i ∈ s.queue.ready ∨ i ∈ s.device.inflight
  bytes : s.workload.submittedBytes = s.acceptedBytes
  blocking : ∀ caller events received,
    s.pc = .wait caller events received s.queue.active true → s.device.inflight ≠ []
  ring : s.pc ≠ .halted .sentinel

/-- The process has ended with an error. -/
def IoState.Stopped (s : IoState γ) : Prop := ∃ reason, s.pc = .halted reason ∧ reason ≠ .sentinel

/-- A step at which no failed call does harm: a pass of the loop within the time limit finds a free
entry, a request that it hands over is accepted, and `queue_wait` drops no completion. -/
def Harmless (config : Config) (G : Generator γ) (s : IoState γ) : Action γ → Prop
  | .iterate clock accepted => (clock.now ≤ s.terminateAt → s.queue.free ≠ 0) ∧
      (accepted = true ∨ (s.handsOver config G (.iterate clock accepted)).isNone = true)
  | .reap _ transfer _ => config.platform.notifies transfer = true
  | _ => True

instance (config : Config) (G : Generator γ) (s : IoState γ) :
    ∀ a, Decidable (Harmless config G s a)
  | .iterate _ _ => inferInstanceAs (Decidable ((_ → _ ≠ _) ∧ (_ = _ ∨ _ = _)))
  | .reap _ _ _ => inferInstanceAs (Decidable (_ = _))
  | .launch _ | .effect _ _ | .waitReturn _ | .finish _ => isTrue trivial

/-- A wait has begun with active requests, and the process has not run into the sentinel. -/
def Pc.Regular : Pc → Prop
  | .wait _ _ _ oldActive _ => 0 < oldActive.toNat
  | .halted reason => reason ≠ .sentinel
  | _ => True

theorem Caller.resume_regular (caller : Caller) : caller.resume.Regular := by
  cases caller <;> trivial

theorem waitLoop_regular (queue : AsyncQueue) (caller : Caller) (events received : ℕ) :
    (waitLoop queue caller events received).Regular := by
  unfold waitLoop
  split
  · rename_i hactive
    exact UInt32.lt_iff_toNat_lt.mp hactive
  · exact caller.resume_regular

theorem waitReturned_regular (queue : AsyncQueue) (caller : Caller) (events received : ℕ)
    (oldActive : UInt32) (ok : Bool) :
    (waitReturned config queue caller events received oldActive ok).Regular := by
  unfold waitReturned
  split
  · exact fun h => by cases h
  split
  · exact caller.resume_regular
  · exact waitLoop_regular queue caller _ _

/-- What the steps keep when no failed call does harm. -/
structure FailureInv (s : IoState γ) : Prop where
  conserved : Conserved s.queue s.device.inflight
  total_pos : 0 < s.queue.total.toNat
  regular : s.pc.Regular
  bytes : s.workload.submittedBytes = s.acceptedBytes

theorem FailureInv.intact {s : IoState γ} (h : FailureInv s) : s.Intact where
  active_eq := h.conserved.active_eq
  slots i hi := by
    rw [← List.mem_append, h.conserved.perm.mem_iff]
    exact List.mem_range.mpr hi
  bytes := h.bytes
  blocking caller events received hpc hnil := by
    have hregular := h.regular
    rw [hpc] at hregular
    have hpos : 0 < s.queue.active.toNat := hregular
    rw [← h.conserved.active_eq, hnil] at hpos
    exact Nat.lt_irrefl 0 hpos
  ring hpc := by
    have hregular := h.regular
    rw [hpc] at hregular
    exact hregular rfl

theorem FailureInv.start {s : IoState γ} {l : Launch γ} {queue : AsyncQueue}
    (hdepth : 1 ≤ l.queueDepth)
    (hcreate : genericQueueCreate config s.worker l.queueDepth l.memory = .ok queue) :
    FailureInv (s.start l queue) := by
  have hconserved := Conserved.create hdepth hcreate
  obtain ⟨bufsize, rfl⟩ := genericQueueCreate_ok hcreate
  exact ⟨hconserved, toUInt32_pos hdepth, trivial, rfl⟩

theorem FailureInv.submit {s : IoState γ} {i : ℕ} {rest : List ℕ} {data : γ} {seed : UInt64}
    {target : Target} {clock : Clock} (h : FailureInv s) (hready : s.queue.ready = i :: rest) :
    FailureInv (s.submit config i rest data seed target clock true) := by
  refine ⟨h.conserved.submit hready, h.total_pos, waitLoop_regular _ _ _ _, ?_⟩
  rw [submit_submittedBytes, h.bytes]
  show s.acceptedBytes + target.size = ((s.device.submissions ++ [_]).map IoRequest.size).sum
  rw [List.map_append, List.sum_append, List.map_singleton, List.sum_singleton]
  simp [IoState.acceptedBytes]

theorem FailureInv.effect {s : IoState γ} {i k : ℕ} (h : FailureInv s) :
    FailureInv (s.effect i k) := by
  obtain ⟨buf, hqueue⟩ := effect_queue s i k
  refine ⟨h.conserved.effect, ?_, ?_, ?_⟩
  · rw [hqueue]
    exact h.total_pos
  · rw [effect_pc]
    exact h.regular
  · rw [effect_workload, IoState.acceptedBytes, effect_submissions]
    exact h.bytes

/-- Without a free entry the ring is empty. -/
theorem FailureInv.ready_eq_nil {s : IoState γ} (h : FailureInv s) (hfree : s.queue.free = 0) :
    s.queue.ready = [] := by
  apply List.eq_nil_of_length_eq_zero
  rw [h.conserved.free_eq, hfree]
  rfl

/-- A pass of the loop at which no failed call does harm. -/
theorem FailureInv.iterate {s t : IoState γ} {clock : Clock} {accepted : Bool} (h : FailureInv s)
    (hharmless : Harmless config G s (.iterate clock accepted))
    (hstep : step config G s (.iterate clock accepted) = some t) : FailureInv t := by
  obtain ⟨hfree, haccepted⟩ := hharmless
  cases step_next hstep with
  | timeout _ _ hpc htime => exact ⟨h.conserved, h.total_pos, waitLoop_regular _ _ _ _, h.bytes⟩
  | sentinel _ _ hpc hready =>
    by_cases htime : clock.now ≤ s.terminateAt
    · have hlength := h.conserved.free_eq
      rw [hready] at hlength
      exact absurd (UInt32.toNat_inj.mp hlength.symm) (hfree htime)
    · -- The pass has ended the loop instead.
      simp only [step, hpc, if_true, IoState.iterate, htime, if_false, Option.some.injEq] at hstep
      exact absurd (congrArg IoState.pc hstep) waitLoop_ne_halted
  | stop _ _ i rest hpc hready hlimit =>
    exact ⟨h.conserved.rotate hready, h.total_pos, waitLoop_regular _ _ _ _, h.bytes⟩
  | submitFails _ _ reason hpc hreason =>
    refine ⟨h.conserved, h.total_pos, ?_, h.bytes⟩
    rcases hreason with rfl | ⟨rfl, _⟩ <;> exact fun heq => by cases heq
  | submit _ _ i rest data seed target hpc htime hready hlimit hfill hassert =>
    have htrue : accepted = true := by
      simpa [IoState.handsOver, hpc, htime, hready, hlimit, hfill] using haccepted
    rw [htrue]
    exact h.submit hready

/-- Every step of a workload at which no failed call does harm keeps the invariant. -/
theorem FailureInv.of_step {s t : IoState γ} {a : Action γ} (h : FailureInv s)
    (hlaunch : ∀ l, a ≠ .launch l) (hharmless : Harmless config G s a)
    (hstep : step config G s a = some t) : FailureInv t := by
  cases step_next hstep with
  | start l queue hpc hcreate => exact absurd rfl (hlaunch l)
  | startFails l reason hreason => exact absurd rfl (hlaunch l)
  | timeout => exact h.iterate hharmless hstep
  | sentinel => exact h.iterate hharmless hstep
  | stop => exact h.iterate hharmless hstep
  | submitFails => exact h.iterate hharmless hstep
  | submit => exact h.iterate hharmless hstep
  | effect i k hi hk => exact h.effect
  | notify i transfer now caller events received oldActive block worker workload queue hpc hi
      hnotifies hnotify =>
    obtain ⟨hqueue, _⟩ := genericQueueNotify_ok hnotify
    obtain ⟨_, _, hsubmitted, _⟩ := notify_counters hnotify
    refine ⟨hqueue ▸ h.conserved.release hi, hqueue ▸ h.total_pos, ?_, hsubmitted.trans h.bytes⟩
    show (afterNotify config queue s.pc caller events received oldActive).Regular
    unfold afterNotify
    split
    · exact h.regular
    · exact waitReturned_regular _ _ _ _ _ _
  | notifyFails i transfer now reason hi hnotify =>
    exact ⟨h.conserved, h.total_pos, genericQueueNotify_error_ne_sentinel hnotify, h.bytes⟩
  | drop i transfer now caller events received oldActive block hpc hi hnotifies =>
    have htrue : config.platform.notifies transfer = true := hharmless
    rw [htrue] at hnotifies
    cases hnotifies
  | waitReturn ok caller events received oldActive block hpc hok =>
    exact ⟨h.conserved, h.total_pos, waitReturned_regular _ _ _ _ _ _, h.bytes⟩
  | finish now hpc => exact ⟨h.conserved, h.total_pos, trivial, h.bytes⟩

/-- With no active entry there is a free one. -/
theorem FailureInv.free_ne_zero {s : IoState γ} (h : FailureInv s) (hactive : s.queue.active = 0) :
    s.queue.free ≠ 0 := by
  intro hfree
  have hadd := h.conserved.add
  have hpos := h.total_pos
  rw [hactive, hfree, UInt32.toNat_zero] at hadd
  omega

/-- The waiting loop goes back to the loop of `ioworker` when nothing is active. -/
theorem waitLoop_eq_head {queue : AsyncQueue} {caller : Caller} {events received : ℕ}
    (h : waitLoop queue caller events received = .head) : queue.active = 0 := by
  unfold waitLoop at h
  split at h
  · cases h
  · rename_i hactive
    exact UInt32.toNat_inj.mp (Nat.eq_zero_of_not_pos fun hpos =>
      hactive (UInt32.lt_iff_toNat_lt.mpr hpos))

/-- The loop comes to its head without a free entry only when its wait has returned without a
completion. -/
theorem head_without_free {s t : IoState γ} {a : Action γ} (h : FailureInv s)
    (hlaunch : ∀ l, a ≠ .launch l) (hharmless : Harmless config G s a)
    (hstep : step config G s a = some t) (hs : s.pc ≠ .head) (ht : t.pc = .head)
    (hfree : t.queue.free = 0) :
    ∃ ok events received block, a = .waitReturn ok ∧
      s.pc = .wait .ioworker events received s.queue.active block := by
  have hinv := h.of_step hlaunch hharmless hstep
  cases step_next hstep with
  | start l queue hpc hcreate => exact absurd rfl (hlaunch l)
  | startFails l reason hreason => exact absurd rfl (hlaunch l)
  | timeout clock accepted hpc htime => exact absurd hpc hs
  | sentinel clock accepted hpc hready => exact absurd hpc hs
  | stop clock accepted i rest hpc hready hlimit => exact absurd hpc hs
  | submitFails clock accepted reason hpc hreason => exact absurd hpc hs
  | submit clock accepted i rest data seed target hpc htime hready hlimit hfill hassert =>
    exact absurd hpc hs
  | effect i k hi hk => exact absurd ((effect_pc s i k).symm.trans ht) hs
  | notify i transfer now caller events received oldActive block worker workload queue hpc hi
      hnotifies hnotify =>
    have hready : queue.ready = s.queue.ready ++ [i] := by
      rw [(genericQueueNotify_ok hnotify).1]
      rfl
    have hnil : queue.ready = [] := hinv.ready_eq_nil hfree
    rw [hready] at hnil
    cases List.append_eq_nil_iff.mp hnil with
    | intro _ hsingle => cases hsingle
  | notifyFails i transfer now reason hi hnotify => cases ht
  | drop i transfer now caller events received oldActive block hpc hi hnotifies =>
    have htrue : config.platform.notifies transfer = true := hharmless
    rw [htrue] at hnotifies
    cases hnotifies
  | waitReturn ok caller events received oldActive block hpc hok =>
    have hreturned : waitReturned config s.queue caller events received oldActive ok = .head := ht
    unfold waitReturned at hreturned
    split at hreturned
    · cases hreturned
    split at hreturned
    · rename_i hsame
      have hold : oldActive = s.queue.active := by
        rw [← sub_eq_zero]
        exact hsame
      cases caller with
      | ioworker => exact ⟨ok, events, received, block, rfl, hold ▸ hpc⟩
      | barrier => cases hreturned
    · exact absurd hfree (hinv.free_ne_zero (waitLoop_eq_head hreturned))
  | finish now hpc => cases ht

/-- A rejected submission makes one entry more active than are in flight, and the process goes
on. -/
theorem rejected_harms {s t : IoState γ} {clock : Clock} {r : IoRequest} (h : FailureInv s)
    (hrelease : config.assertions = false)
    (hhands : s.handsOver config G (.iterate clock false) = some r)
    (hstep : step config G s (.iterate clock false) = some t) : ¬(t.Stopped ∨ t.Intact) := by
  obtain ⟨_, accepted, i, rest, data, seed, target, ha, _, _, hnext⟩ := handsOver_eq_some hhands
  cases ha
  obtain ⟨hassert, _⟩ | rfl := hnext t hstep
  · rw [hrelease] at hassert
    cases hassert
  rintro (⟨reason, hpc, _⟩ | hintact)
  · exact waitLoop_ne_halted hpc
  · have hactive : s.device.inflight.length = (s.queue.active + 1).toNat := hintact.active_eq
    have hbefore := h.conserved.active_eq
    have hlt := s.queue.active.toNat_lt
    rw [UInt32.toNat_add, UInt32.toNat_one] at hactive
    omega

/-- A pass within the time limit that finds no free entry takes the sentinel for one. -/
theorem no_free_entry_harms {s t : IoState γ} {clock : Clock} {accepted : Bool} (h : FailureInv s)
    (htime : clock.now ≤ s.terminateAt) (hfree : s.queue.free = 0)
    (hstep : step config G s (.iterate clock accepted) = some t) : ¬(t.Stopped ∨ t.Intact) := by
  simp only [step, IoState.iterate, htime, if_true, h.ready_eq_nil hfree,
    Option.ite_none_right_eq_some, Option.some.injEq] at hstep
  obtain ⟨_, rfl⟩ := hstep
  rintro (⟨reason, hpc, hreason⟩ | hintact)
  · cases hpc
    exact hreason rfl
  · exact hintact.ring rfl

/-- A completion that `queue_wait` drops leaves its entry active, and the process goes on. -/
theorem dropped_harms {s t : IoState γ} {i : ℕ} {transfer : Transfer} {now : AprTime}
    (h : FailureInv s) (hrelease : config.assertions = false)
    (hdrops : config.platform.notifies transfer = false)
    (hstep : step config G s (.reap i transfer now) = some t) : ¬(t.Stopped ∨ t.Intact) := by
  simp only [step] at hstep
  split at hstep
  · simp only [IoState.reap, hdrops, Bool.false_eq_true, if_false, Option.ite_none_right_eq_some,
      Option.some.injEq] at hstep
    obtain ⟨hi, rfl⟩ := hstep
    rintro (⟨reason, hpc, _⟩ | hintact)
    · have hassert := (waitReturned_halted hpc).1
      rw [hrelease] at hassert
      cases hassert
    · have hactive : (s.device.inflight.erase i).length = s.queue.active.toNat := hintact.active_eq
      have hpos := List.length_pos_of_mem hi
      rw [List.length_erase_of_mem hi, ← h.conserved.active_eq] at hactive
      omega
  · cases hstep

/-- A step of the release build after which the queue still agrees with the device, or the process
has stopped, is one at which no failed call does harm. -/
theorem harmless_of_intact {s t : IoState γ} {a : Action γ} (h : FailureInv s)
    (hrelease : config.assertions = false) (hstep : step config G s a = some t)
    (ht : t.Stopped ∨ t.Intact) : Harmless config G s a := by
  cases a with
  | iterate clock accepted =>
    refine ⟨fun htime hfree => no_free_entry_harms h htime hfree hstep ht, ?_⟩
    cases accepted with
    | true => exact Or.inl rfl
    | false =>
      refine Or.inr ?_
      cases hhands : s.handsOver config G (.iterate clock false) with
      | none => rfl
      | some r => exact absurd ht (rejected_harms h hrelease hhands hstep)
  | reap i transfer now =>
    cases hnotifies : config.platform.notifies transfer with
    | true => exact hnotifies
    | false => exact absurd ht (dropped_harms h hrelease hnotifies hstep)
  | launch l => trivial
  | effect i k => trivial
  | waitReturn ok => trivial
  | finish now => trivial

/-- **Failed calls of the platform.** In every run of a workload in the release build, the queue
agrees with the device after every step, unless the process has stopped with an error, if and only
if every request handed over is accepted, `queue_wait` drops no completion, and no pass of the loop
within the time limit starts without a free entry, as it can after a wait that has failed. -/
theorem intact_iff_harmless {s t : IoState γ} {l : Launch γ} {queue : AsyncQueue}
    {as : List (Action γ)} (hrelease : config.assertions = false) (hdepth : 1 ≤ l.queueDepth)
    (hcreate : genericQueueCreate config s.worker l.queueDepth l.memory = .ok queue)
    (hone : ∀ l, .launch l ∉ as) (hrun : exec (step config G) (s.start l queue) as = some t) :
    Along (step config G) (fun u a => ∀ v, step config G u a = some v → v.Stopped ∨ v.Intact)
        (s.start l queue) as ↔
      Along (step config G) (Harmless config G) (s.start l queue) as := by
  have hlaunches : Along (step config G) (fun _ a => ∀ l, a ≠ .launch l) (s.start l queue) as :=
    along_of_forall fun a ha _ l' hl => hone l' (hl ▸ ha)
  apply along_iff_of_exact (I := FailureInv) _ _ _ hrun hlaunches (.start hdepth hcreate)
  · exact fun u a v hu hlaunch hP hstep => hu.of_step hlaunch hP hstep
  · exact fun u hu => Or.inr hu.intact
  · exact fun u a v hu _ hstep hv => harmless_of_intact hu hrelease hstep hv

/-- The release build on Linux. -/
def releaseConfig : Config := ⟨false, .linux, 4096, false⟩

/-- The pair of writes of `pairRun` with a wait that fails while an entry is free, another one that
fails in the waiting loop, and a barrier that fails. -/
def failingWaits : List (Action GeneratorData) :=
  [.iterate ⟨1, 1, 1⟩ true, .waitReturn false, .iterate ⟨2, 2, 2⟩ true, .effect 1 0,
    .reap 1 .full 3, .waitReturn true, .waitReturn false, .iterate ⟨4, 4, 4⟩ true,
    .waitReturn false, .finish 5]

/-- Three waits fail, and the queue agrees with the device after every step. -/
theorem intact_iff_harmless_failing_waits :
    Along (step releaseConfig workloads)
      (fun u a => ∀ v, step releaseConfig workloads u a = some v → v.Stopped ∨ v.Intact)
      pairStart failingWaits := by
  have hrun : exec (step releaseConfig workloads) pairStart failingWaits = some _ := rfl
  exact (@intact_iff_harmless _ releaseConfig workloads pairInitial _ pairLaunch pairQueue
    failingWaits rfl (by decide) rfl (by simp [failingWaits]) hrun).mpr (by decide)

/-- A queue of one entry for `pairInitial`. -/
def singleLaunch : Launch GeneratorData := { pairLaunch with queueDepth := 1 }

/-- The queue of that workload. -/
def singleQueue : AsyncQueue :=
  ⟨1, 0, 1, [0], fun i =>
    ⟨⟨0, 0, fun _ => 0, UInt64.ofNat i * 8192, 8192, 0, 0, 0, false⟩, .null⟩⟩

/-- The first submission of a release build is rejected: the process goes on with an active entry
that is neither in the ring nor in flight, it has counted the bytes, and it blocks with nothing in
flight. When the submission is accepted and the wait fails, the next pass takes the sentinel of the
empty ring for an entry. -/
theorem failed_calls_corrupt_queue :
    genericQueueCreate releaseConfig pairInitial.worker singleLaunch.queueDepth
      singleLaunch.memory = .ok singleQueue ∧
    (∃ t, exec (step releaseConfig workloads) (pairInitial.start singleLaunch singleQueue)
        [.iterate ⟨1, 1, 1⟩ false] = some t ∧ ¬(t.Stopped ∨ t.Intact) ∧
      t.queue.active = 1 ∧ t.device.inflight = [] ∧ t.queue.ready = [] ∧
      t.workload.submittedBytes = 512 ∧ t.acceptedBytes = 0 ∧ t.pc = .wait .ioworker 0 0 1 true) ∧
    ∃ t, exec (step releaseConfig workloads) (pairInitial.start singleLaunch singleQueue)
        [.iterate ⟨1, 1, 1⟩ true, .waitReturn false, .iterate ⟨2, 2, 2⟩ true] = some t ∧
      t.pc = .halted .sentinel := by
  refine ⟨rfl, ⟨_, rfl, ?_, rfl, rfl, rfl, rfl, rfl, rfl⟩, ⟨_, rfl, rfl⟩⟩
  rintro (⟨reason, hpc, _⟩ | hintact)
  · cases hpc
  · exact absurd hintact.active_eq (by decide)

end DiskBench
