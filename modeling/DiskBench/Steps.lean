import DiskBench.IoWorker

/-!
# What a step can do

`Next` lists the outcomes of an action with the conditions under which they occur, and
`step_next` says that there are no others. Every invariant of the worker thread is
proved by cases on `Next`.
-/

namespace DiskBench

variable {γ : Type} {config : Config} {G : Generator γ}

/-- The outcomes of an action in a state. -/
inductive Next (config : Config) (G : Generator γ) (s : IoState γ) :
    Action γ → IoState γ → Prop
  | start (l : Launch γ) (queue : AsyncQueue) (hpc : s.pc = .idle ∨ s.pc = .done)
      (hcreate : genericQueueCreate config s.worker l.queueDepth l.memory = .ok queue) :
      Next config G s (.launch l) (s.start l queue)
  | startFails (l : Launch γ) (reason : Halt) (hreason : reason = .trap ∨ reason = .assertion) :
      Next config G s (.launch l) (s.halt reason)
  | timeout (clock : Clock) (accepted : Bool) (hpc : s.pc = .head)
      (htime : s.terminateAt < clock.now) :
      Next config G s (.iterate clock accepted) { s with pc := genericQueueBarrier s.queue }
  | sentinel (clock : Clock) (accepted : Bool) (hpc : s.pc = .head) (hready : s.queue.ready = []) :
      Next config G s (.iterate clock accepted) (s.halt .sentinel)
  | stop (clock : Clock) (accepted : Bool) (i : ℕ) (rest : List ℕ) (hpc : s.pc = .head)
      (hready : s.queue.ready = i :: rest)
      (hlimit : s.worker.iolimit < s.workload.submittedBytes + (s.queue.ioaqes i).request.size) :
      Next config G s (.iterate clock accepted) (s.stop i rest)
  | submitFails (clock : Clock) (accepted : Bool) (reason : Halt) (hpc : s.pc = .head)
      (hreason : reason = .trap ∨ reason = .assertion ∧ accepted = false) :
      Next config G s (.iterate clock accepted) (s.halt reason)
  | submit (clock : Clock) (accepted : Bool) (i : ℕ) (rest : List ℕ) (data : γ) (seed : UInt64)
      (target : Target) (hpc : s.pc = .head) (htime : clock.now ≤ s.terminateAt)
      (hready : s.queue.ready = i :: rest)
      (hlimit : s.workload.submittedBytes + (s.queue.ioaqes i).request.size ≤ s.worker.iolimit)
      (hfill : G.fillRequest s.generator s.worker.filesize s.worker.randomSeed =
        some (data, seed, target))
      (hassert : config.assertions = true → accepted = true) :
      Next config G s (.iterate clock accepted)
        (s.submit config i rest data seed target clock accepted)
  | effect (i k : ℕ) (hi : i ∈ s.device.inflight) (hk : k < (s.queue.ioaqes i).request.sectors) :
      Next config G s (.effect i k) (s.effect i k)
  | notify (i : ℕ) (transfer : Transfer) (now : AprTime) (caller : Caller) (events received : ℕ)
      (oldActive : UInt32) (block : Bool) (worker : IoWorker) (workload : IoWorkload)
      (queue : AsyncQueue) (hpc : s.pc = .wait caller events received oldActive block)
      (hi : i ∈ s.device.inflight) (hnotifies : config.platform.notifies transfer = true)
      (hnotify : genericQueueNotify config s.worker s.workload s.queue i now =
        .ok (worker, workload, queue)) :
      Next config G s (.reap i transfer now) { s with
        worker := worker
        workload := workload
        queue := queue
        pc := afterNotify config queue s.pc caller events received oldActive
        device := s.device.complete i (s.queue.ioaqes i).request transfer }
  | notifyFails (i : ℕ) (transfer : Transfer) (now : AprTime) (reason : Halt)
      (hi : i ∈ s.device.inflight)
      (hnotify : genericQueueNotify config s.worker s.workload s.queue i now = .error reason) :
      Next config G s (.reap i transfer now) (s.halt reason)
  | drop (i : ℕ) (transfer : Transfer) (now : AprTime) (caller : Caller) (events received : ℕ)
      (oldActive : UInt32) (block : Bool)
      (hpc : s.pc = .wait caller events received oldActive block) (hi : i ∈ s.device.inflight)
      (hnotifies : config.platform.notifies transfer = false) :
      Next config G s (.reap i transfer now) { s with
        pc := waitReturned config s.queue caller events received oldActive false
        device := s.device.deliver i }
  | waitReturn (ok : Bool) (caller : Caller) (events received : ℕ) (oldActive : UInt32)
      (block : Bool) (hpc : s.pc = .wait caller events received oldActive block)
      (hok : ok = true ∨ oldActive = s.queue.active) :
      Next config G s (.waitReturn ok)
        { s with pc := waitReturned config s.queue caller events received oldActive ok }
  | finish (now : AprTime) (hpc : s.pc = .drained) :
      Next config G s (.finish now)
        { s with workload := { s.workload with endTime := now }, pc := .done }

/-- The creation of a queue fails with a trap or an assertion only. -/
theorem genericQueueCreate_error {worker : IoWorker} {queueDepth : Int32} {memory : ℕ → Memory}
    {reason : Halt} (h : genericQueueCreate config worker queueDepth memory = .error reason) :
    reason = .trap ∨ reason = .assertion := by
  simp only [genericQueueCreate] at h
  split at h
  · cases h
    exact Or.inl rfl
  · split at h
    · cases h
      exact Or.inr rfl
    · cases h

theorem launch_next {s : IoState γ} {l : Launch γ} (hpc : s.pc = .idle ∨ s.pc = .done) :
    Next config G s (.launch l) (s.launch config l) := by
  unfold IoState.launch
  split
  · rename_i reason hcreate
    exact .startFails l reason (genericQueueCreate_error hcreate)
  · rename_i queue hcreate
    split
    · exact .startFails l .assertion (Or.inr rfl)
    · exact .start l queue hpc hcreate

theorem iterate_next {s : IoState γ} {clock : Clock} {accepted : Bool} (hpc : s.pc = .head) :
    Next config G s (.iterate clock accepted) (s.iterate config G clock accepted) := by
  unfold IoState.iterate
  split
  · rename_i htime
    split
    · rename_i hready
      exact .sentinel clock accepted hpc hready
    · rename_i i rest hready
      dsimp only
      split
      · rename_i hlimit
        exact .stop clock accepted i rest hpc hready hlimit
      · rename_i hlimit
        split
        · exact .submitFails clock accepted .trap hpc (Or.inl rfl)
        · rename_i data seed target hfill
          split
          · rename_i hassert
            exact .submitFails clock accepted .assertion hpc
              (Or.inr ⟨rfl, by simpa using hassert.2⟩)
          · rename_i hassert
            exact .submit clock accepted i rest data seed target hpc htime hready
              (UInt64.not_lt.mp hlimit) hfill (by simpa using hassert)
  · rename_i htime
    exact .timeout clock accepted hpc (Int.not_le.mp htime)

theorem reap_next {s : IoState γ} {i : ℕ} {transfer : Transfer} {now : AprTime} {caller : Caller}
    {events received : ℕ} {oldActive : UInt32} {block : Bool}
    (hpc : s.pc = .wait caller events received oldActive block) (hi : i ∈ s.device.inflight) :
    Next config G s (.reap i transfer now)
      (s.reap config caller events received oldActive i transfer now) := by
  unfold IoState.reap
  split
  · rename_i hnotifies
    split
    · rename_i reason hnotify
      exact .notifyFails i transfer now reason hi hnotify
    · rename_i worker workload queue hnotify
      exact .notify i transfer now caller events received oldActive block worker workload queue
        hpc hi hnotifies hnotify
  · rename_i hnotifies
    exact .drop i transfer now caller events received oldActive block hpc hi
      (by simpa using hnotifies)

/-- Every step has one of the outcomes listed in `Next`. -/
theorem step_next {s t : IoState γ} {a : Action γ} (h : step config G s a = some t) :
    Next config G s a t := by
  cases a with
  | launch l =>
    simp only [step, Option.ite_none_right_eq_some, Option.some.injEq] at h
    obtain ⟨hpc, rfl⟩ := h
    exact launch_next hpc
  | iterate clock accepted =>
    simp only [step, Option.ite_none_right_eq_some, Option.some.injEq] at h
    obtain ⟨hpc, rfl⟩ := h
    exact iterate_next hpc
  | effect i k =>
    simp only [step, Option.ite_none_right_eq_some, Option.some.injEq] at h
    obtain ⟨⟨hi, hk, _⟩, rfl⟩ := h
    exact .effect i k hi hk
  | reap i transfer now =>
    simp only [step] at h
    split at h
    · rename_i hpc
      simp only [Option.ite_none_right_eq_some, Option.some.injEq] at h
      obtain ⟨hi, rfl⟩ := h
      exact reap_next hpc hi
    · cases h
  | waitReturn ok =>
    simp only [step] at h
    split at h
    · rename_i hpc
      simp only [Option.ite_none_right_eq_some, Option.some.injEq] at h
      obtain ⟨hok, rfl⟩ := h
      exact .waitReturn ok _ _ _ _ _ hpc hok
    · cases h
  | finish now =>
    simp only [step, Option.ite_none_right_eq_some, Option.some.injEq] at h
    obtain ⟨hpc, rfl⟩ := h
    exact .finish now hpc

/-- A pass through the loop that submits a request. -/
theorem step_submit {s : IoState γ} {clock : Clock} {accepted : Bool} {i : ℕ} {rest : List ℕ}
    {data : γ} {seed : UInt64} {target : Target} (hpc : s.pc = .head)
    (htime : clock.now ≤ s.terminateAt) (hready : s.queue.ready = i :: rest)
    (hlimit : s.workload.submittedBytes + (s.queue.ioaqes i).request.size ≤ s.worker.iolimit)
    (hfill : G.fillRequest s.generator s.worker.filesize s.worker.randomSeed =
      some (data, seed, target))
    (hassert : config.assertions = true → accepted = true) :
    step config G s (.iterate clock accepted) =
      some (s.submit config i rest data seed target clock accepted) := by
  have hnot : ¬s.worker.iolimit < s.workload.submittedBytes + (s.queue.ioaqes i).request.size :=
    UInt64.not_lt.mpr hlimit
  have haccepted : ¬(config.assertions = true ∧ ¬accepted = true) := fun h => h.2 (hassert h.1)
  simp only [step, hpc, if_true, IoState.iterate, htime, hready, hfill, gt_iff_lt, hnot, if_false,
    haccepted]

/-- A completion that `generic_queue_notify` survives. -/
theorem step_reap {s : IoState γ} {i : ℕ} {transfer : Transfer} {now : AprTime} {caller : Caller}
    {events received : ℕ} {oldActive : UInt32} {block : Bool} {worker : IoWorker}
    {workload : IoWorkload} {queue : AsyncQueue}
    (hpc : s.pc = .wait caller events received oldActive block) (hi : i ∈ s.device.inflight)
    (hnotifies : config.platform.notifies transfer = true)
    (hnotify : genericQueueNotify config s.worker s.workload s.queue i now =
      .ok (worker, workload, queue)) :
    step config G s (.reap i transfer now) = some { s with
      worker := worker
      workload := workload
      queue := queue
      pc := afterNotify config queue s.pc caller events received oldActive
      device := s.device.complete i (s.queue.ioaqes i).request transfer } := by
  simp only [step, hpc, hi, if_true, IoState.reap, hnotifies, hnotify]

/-- A completion that ends the process. -/
theorem step_reap_error {s : IoState γ} {i : ℕ} {transfer : Transfer} {now : AprTime}
    {caller : Caller} {events received : ℕ} {oldActive : UInt32} {block : Bool} {reason : Halt}
    (hpc : s.pc = .wait caller events received oldActive block) (hi : i ∈ s.device.inflight)
    (hnotifies : config.platform.notifies transfer = true)
    (hnotify : genericQueueNotify config s.worker s.workload s.queue i now = .error reason) :
    step config G s (.reap i transfer now) = some (s.halt reason) := by
  simp only [step, hpc, hi, if_true, IoState.reap, hnotifies, hnotify]

/-- A process that has ended with nothing in flight does nothing any more. -/
theorem eq_of_reaches_halted {P : IoState γ → Action γ → Prop} {s t : IoState γ} {reason : Halt}
    (hpc : s.pc = .halted reason) (hinflight : s.device.inflight = [])
    (h : Transition.Reaches (step config G) P s t) : t = s := by
  obtain ⟨as, hrun, _⟩ := h
  cases as with
  | nil =>
    cases hrun
    rfl
  | cons a as =>
    obtain ⟨u, hu, _⟩ := Transition.exec_cons_eq_some.mp hrun
    have hnone : step config G s a = none := by
      cases a <;> simp [step, hpc, hinflight]
    rw [hnone] at hu
    cases hu

/-- `queue_wait` can return with success at any time. -/
theorem step_waitReturn {s : IoState γ} {caller : Caller} {events received : ℕ}
    {oldActive : UInt32} {block : Bool}
    (hpc : s.pc = .wait caller events received oldActive block) :
    step config G s (.waitReturn true) = some { s with
      pc := waitReturned config s.queue caller events received oldActive true } := by
  simp [step, hpc]

/-- The file, the buffer and the limits of a worker. A workload changes only its random seed and
its watermark. -/
structure IoWorker.SameSettings (worker worker' : IoWorker) : Prop where
  filesize : worker'.filesize = worker.filesize
  bufsize : worker'.bufsize = worker.bufsize
  iolimit : worker'.iolimit = worker.iolimit
  configuredIolimit : worker'.configuredIolimit = worker.configuredIolimit
  truncateFile : worker'.truncateFile = worker.truncateFile

theorem IoWorker.SameSettings.refl (worker : IoWorker) : worker.SameSettings worker :=
  ⟨rfl, rfl, rfl, rfl, rfl⟩

theorem IoWorker.SameSettings.trans {worker worker' worker'' : IoWorker}
    (h : worker.SameSettings worker') (h' : worker'.SameSettings worker'') :
    worker.SameSettings worker'' where
  filesize := h'.filesize.trans h.filesize
  bufsize := h'.bufsize.trans h.bufsize
  iolimit := h'.iolimit.trans h.iolimit
  configuredIolimit := h'.configuredIolimit.trans h.configuredIolimit
  truncateFile := h'.truncateFile.trans h.truncateFile

theorem IoWorker.advance_sameSettings (worker : IoWorker) (request : IoRequest) :
    worker.SameSettings (worker.advance request) := by
  unfold IoWorker.advance
  split <;> exact ⟨rfl, rfl, rfl, rfl, rfl⟩

/-- A step of a running workload keeps the settings of the worker and the log of submissions. -/
theorem step_keeps {s t : IoState γ} {a : Action γ} (hlaunch : ∀ l, a ≠ .launch l)
    (hstep : step config G s a = some t) :
    s.worker.SameSettings t.worker ∧ s.device.submissions <+: t.device.submissions := by
  cases step_next hstep with
  | start l queue hpc hcreate => exact absurd rfl (hlaunch l)
  | startFails l reason hreason => exact absurd rfl (hlaunch l)
  | timeout clock accepted hpc htime => exact ⟨.refl _, List.prefix_refl _⟩
  | sentinel clock accepted hpc hready => exact ⟨.refl _, List.prefix_refl _⟩
  | stop clock accepted i rest hpc hready hlimit => exact ⟨.refl _, List.prefix_refl _⟩
  | submitFails clock accepted reason hpc hreason => exact ⟨.refl _, List.prefix_refl _⟩
  | submit clock accepted i rest data seed target hpc htime hready hlimit hfill hassert =>
    obtain ⟨seed', hworker⟩ :=
      prepareEntry_worker config s.worker (s.queue.ioaqes i) seed target clock.preSubmission
    refine ⟨?_, ?_⟩
    · simp only [IoState.submit, hworker]
      exact ⟨rfl, rfl, rfl, rfl, rfl⟩
    · cases accepted with
      | true => exact List.prefix_append _ _
      | false => exact List.prefix_refl _
  | effect i k hi hk =>
    rw [effect_worker, effect_submissions]
    exact ⟨.refl _, List.prefix_refl _⟩
  | notify i transfer now caller events received oldActive block worker workload queue hpc hi
      hnotifies hnotify =>
    obtain ⟨_, ⟨_, _, rfl, _⟩ | ⟨_, rfl, _⟩⟩ := genericQueueNotify_ok hnotify
    · exact ⟨.refl _, List.prefix_refl _⟩
    · exact ⟨IoWorker.advance_sameSettings _ _, List.prefix_refl _⟩
  | notifyFails i transfer now reason hi hnotify => exact ⟨.refl _, List.prefix_refl _⟩
  | drop i transfer now caller events received oldActive block hpc hi hnotifies =>
    exact ⟨.refl _, List.prefix_refl _⟩
  | waitReturn ok caller events received oldActive block hpc hok =>
    exact ⟨.refl _, List.prefix_refl _⟩
  | finish now hpc => exact ⟨.refl _, List.prefix_refl _⟩

/-- What calls back for a request in flight after a step: what did before, or what the direction of
a new request has selected. -/
theorem step_callback {s t : IoState γ} {a : Action γ} {j : ℕ} (hlaunch : ∀ l, a ≠ .launch l)
    (hstep : step config G s a = some t) (hj : j ∈ t.device.inflight) :
    j ∈ s.device.inflight ∧ (t.queue.ioaqes j).callback = (s.queue.ioaqes j).callback ∨
      ∃ data seed target, G.fillRequest s.generator s.worker.filesize s.worker.randomSeed =
          some (data, seed, target) ∧
        (t.queue.ioaqes j).callback = if target.write then .writeComplete else .readComplete := by
  cases step_next hstep with
  | start l queue hpc hcreate => exact absurd rfl (hlaunch l)
  | startFails l reason hreason => exact absurd rfl (hlaunch l)
  | timeout clock accepted hpc htime => exact Or.inl ⟨hj, rfl⟩
  | sentinel clock accepted hpc hready => exact Or.inl ⟨hj, rfl⟩
  | stop clock accepted i rest hpc hready hlimit => exact Or.inl ⟨hj, rfl⟩
  | submitFails clock accepted reason hpc hreason => exact Or.inl ⟨hj, rfl⟩
  | submit clock accepted i rest data seed target hpc htime hready hlimit hfill hassert =>
    by_cases hji : j = i
    · exact Or.inr ⟨data, seed, target, hfill, by rw [hji, submit_entry_self.1]⟩
    · refine Or.inl ⟨?_, by rw [submit_entry_of_ne hji]⟩
      cases accepted with
      | true =>
        have hmem : j ∈ s.device.inflight ++ [i] := hj
        rw [List.mem_append, List.mem_singleton] at hmem
        exact hmem.resolve_right hji
      | false => exact hj
  | effect i k hi hk =>
    obtain ⟨buf, hentry⟩ := effect_entry s i k j
    rw [effect_inflight] at hj
    exact Or.inl ⟨hj, by rw [hentry]⟩
  | notify i transfer now caller events received oldActive block worker workload queue hpc hi
      hnotifies hnotify =>
    obtain ⟨rfl, _⟩ := genericQueueNotify_ok hnotify
    obtain ⟨now', hentry⟩ := notified_entry s.queue i now j
    exact Or.inl ⟨List.mem_of_mem_erase hj, by dsimp only; rw [hentry]⟩
  | notifyFails i transfer now reason hi hnotify => exact Or.inl ⟨hj, rfl⟩
  | drop i transfer now caller events received oldActive block hpc hi hnotifies =>
    exact Or.inl ⟨List.mem_of_mem_erase hj, rfl⟩
  | waitReturn ok caller events received oldActive block hpc hok => exact Or.inl ⟨hj, rfl⟩
  | finish now hpc => exact Or.inl ⟨hj, rfl⟩

/-- The waiting loop never ends the process itself. -/
theorem waitLoop_ne_halted {queue : AsyncQueue} {caller : Caller} {events received : ℕ}
    {reason : Halt} : waitLoop queue caller events received ≠ .halted reason := by
  unfold waitLoop
  split
  · exact fun h => by cases h
  · cases caller <;> exact fun h => by cases h

/-- The return of `queue_wait` ends the process only through the assertion behind it. -/
theorem waitReturned_halted {queue : AsyncQueue} {caller : Caller} {events received : ℕ}
    {oldActive : UInt32} {ok : Bool} {reason : Halt}
    (h : waitReturned config queue caller events received oldActive ok = .halted reason) :
    config.assertions = true ∧ reason = .assertion := by
  unfold waitReturned at h
  split at h
  · rename_i hassert
    cases h
    exact ⟨hassert.1, rfl⟩
  split at h
  · cases caller <;> cases h
  · exact absurd h waitLoop_ne_halted

/-- A step that raises an alarm handles the completion of a read that `read_complete` rejects. -/
theorem step_alarm {s t : IoState γ} {a : Action γ} {output : String}
    (hs : s.pc ≠ .halted (.integrityError output)) (hstep : step config G s a = some t)
    (ht : t.pc = .halted (.integrityError output)) :
    ∃ i transfer now, a = .reap i transfer now ∧ i ∈ s.device.inflight ∧
      genericQueueNotify config s.worker s.workload s.queue i now =
        .error (.integrityError output) := by
  cases step_next hstep with
  | start l queue hpc hcreate => cases ht
  | startFails l reason hreason => rcases hreason with rfl | rfl <;> cases ht
  | timeout clock accepted hpc htime => exact absurd ht waitLoop_ne_halted
  | sentinel clock accepted hpc hready => cases ht
  | stop clock accepted i rest hpc hready hlimit => exact absurd ht waitLoop_ne_halted
  | submitFails clock accepted reason hpc hreason => rcases hreason with rfl | ⟨rfl, _⟩ <;> cases ht
  | submit clock accepted i rest data seed target hpc htime hready hlimit hfill hassert =>
    exact absurd ht waitLoop_ne_halted
  | effect i k hi hk =>
    rw [effect_pc] at ht
    exact absurd ht hs
  | notify i transfer now caller events received oldActive block worker workload queue hpc hi
      hnotifies hnotify =>
    have hafter : afterNotify config queue s.pc caller events received oldActive =
      .halted (.integrityError output) := ht
    unfold afterNotify at hafter
    split at hafter
    · exact absurd hafter hs
    · cases (waitReturned_halted hafter).2
  | notifyFails i transfer now reason hi hnotify =>
    cases ht
    exact ⟨i, transfer, now, rfl, hi, hnotify⟩
  | drop i transfer now caller events received oldActive block hpc hi hnotifies =>
    cases (waitReturned_halted ht).2
  | waitReturn ok caller events received oldActive block hpc hok =>
    cases (waitReturned_halted ht).2
  | finish now hpc => cases ht

/-- The waiting loop never ends the thread. -/
theorem waitLoop_ne_done {queue : AsyncQueue} {caller : Caller} {events received : ℕ} :
    waitLoop queue caller events received ≠ .done := by
  unfold waitLoop
  split
  · exact fun h => by cases h
  · cases caller <;> exact fun h => by cases h

/-- Neither does the return of `queue_wait`. -/
theorem waitReturned_ne_done {queue : AsyncQueue} {caller : Caller} {events received : ℕ}
    {oldActive : UInt32} {ok : Bool} :
    waitReturned config queue caller events received oldActive ok ≠ .done := by
  unfold waitReturned
  split
  · exact fun h => by cases h
  split
  · cases caller <;> exact fun h => by cases h
  · exact waitLoop_ne_done

/-- A thread that has ended has just done so, or nothing but the device has moved since. -/
theorem step_done {s t : IoState γ} {a : Action γ} (hstep : step config G s a = some t)
    (ht : t.pc = .done) :
    (∃ now, s.pc = .drained ∧ a = .finish now ∧
      t = { s with workload := { s.workload with endTime := now }, pc := .done }) ∨
    s.pc = .done ∧ ∃ i k, a = .effect i k ∧ t = s.effect i k := by
  cases step_next hstep with
  | start l queue hpc hcreate => cases ht
  | startFails l reason hreason => cases ht
  | timeout clock accepted hpc htime => exact absurd ht waitLoop_ne_done
  | sentinel clock accepted hpc hready => cases ht
  | stop clock accepted i rest hpc hready hlimit => exact absurd ht waitLoop_ne_done
  | submitFails clock accepted reason hpc hreason => cases ht
  | submit clock accepted i rest data seed target hpc htime hready hlimit hfill hassert =>
    exact absurd ht waitLoop_ne_done
  | effect i k hi hk =>
    rw [effect_pc] at ht
    exact Or.inr ⟨ht, i, k, rfl, rfl⟩
  | notify i transfer now caller events received oldActive block worker workload queue hpc hi
      hnotifies hnotify =>
    have hafter : afterNotify config queue s.pc caller events received oldActive = .done := ht
    unfold afterNotify at hafter
    split at hafter
    · cases hpc.symm.trans hafter
    · exact absurd hafter waitReturned_ne_done
  | notifyFails i transfer now reason hi hnotify => cases ht
  | drop i transfer now caller events received oldActive block hpc hi hnotifies =>
    exact absurd ht waitReturned_ne_done
  | waitReturn ok caller events received oldActive block hpc hok =>
    exact absurd ht waitReturned_ne_done
  | finish now hpc => exact Or.inl ⟨now, hpc, rfl, rfl⟩

end DiskBench
