import DiskBench.Integrity
import DiskBench.Sequential

/-!
# Workloads come to an end

On a platform without faults a workload whose completions do not end the process can always go on:
the requests in flight can be completed one after the other, the thread comes back to the head of
its loop or out of its barrier, and once the time is over the workload ends.
-/

namespace DiskBench

open Transition

variable {γ : Type} {config : Config} {G : Generator γ}

/-- A step of a workload on a cooperative platform with a correct device. -/
def FaultFree (config : Config) (s : IoState γ) (a : Action γ) : Prop :=
  DuringWorkload config s a ∧ CorrectDevice s a

instance (config : Config) (s : IoState γ) (a : Action γ) : Decidable (FaultFree config s a) :=
  inferInstanceAs (Decidable (_ ∧ _))

/-- A workload without faults transfers every request in full. -/
theorem FaultFree.successful {s : IoState γ} {a : Action γ} (h : FaultFree config s a) :
    SuccessfulWorkload config s a := by
  refine ⟨h.1, ?_⟩
  rintro i transfer now rfl
  exact h.2.1

/-- A pass through the loop is a step of a workload without faults. -/
theorem FaultFree.iterate {s : IoState γ} {clock : Clock} :
    FaultFree config s (.iterate clock true) :=
  ⟨⟨rfl, fun l hl => by cases hl⟩, trivial⟩

/-- A step of the device or of the waiting loop, while the thread submits nothing. -/
def Drains (config : Config) (s : IoState γ) (a : Action γ) : Prop :=
  FaultFree config s a ∧ ∀ clock accepted, a ≠ .iterate clock accepted

/-- What the submissions of a workload have left behind. -/
structure Kept (s t : IoState γ) : Prop where
  settings : s.worker.SameSettings t.worker
  submissions : t.device.submissions = s.device.submissions
  submitted : t.workload.submittedBytes = s.workload.submittedBytes
  generator : t.generator = s.generator
  sizes : ∀ j, (t.queue.ioaqes j).request.size = (s.queue.ioaqes j).request.size

theorem Kept.refl (s : IoState γ) : Kept s s := ⟨.refl _, rfl, rfl, rfl, fun _ => rfl⟩

theorem Kept.trans {s t u : IoState γ} (h : Kept s t) (h' : Kept t u) : Kept s u where
  settings := h.settings.trans h'.settings
  submissions := h'.submissions.trans h.submissions
  submitted := h'.submitted.trans h.submitted
  generator := h'.generator.trans h.generator
  sizes j := (h'.sizes j).trans (h.sizes j)

/-- A step that submits nothing keeps what has been submitted. -/
theorem Kept.of_step {s t : IoState γ} {a : Action γ}
    (hdrains : Drains config s a) (hstep : step config G s a = some t) : Kept s t := by
  obtain ⟨⟨hduring, _⟩, hiterate⟩ := hdrains
  have hsettings := (step_keeps hduring.2 hstep).1
  cases step_next hstep with
  | start l queue hpc hcreate => exact absurd rfl (hduring.2 l)
  | startFails l reason hreason => exact absurd rfl (hduring.2 l)
  | timeout clock accepted hpc htime => exact absurd rfl (hiterate clock accepted)
  | sentinel clock accepted hpc hready => exact absurd rfl (hiterate clock accepted)
  | stop clock accepted i rest hpc hready hlimit => exact absurd rfl (hiterate clock accepted)
  | submitFails clock accepted reason hpc hreason => exact absurd rfl (hiterate clock accepted)
  | submit clock accepted i rest data seed target hpc htime hready hlimit hfill hassert =>
    exact absurd rfl (hiterate clock accepted)
  | effect i k hi hk =>
    refine ⟨hsettings, effect_submissions .., ?_, effect_generator .., fun j => ?_⟩
    · rw [effect_workload]
    · obtain ⟨buf, hentry⟩ := effect_entry s i k j
      rw [hentry]
      rfl
  | notify i transfer now caller events received oldActive block worker workload queue hpc hi
      hnotifies hnotify =>
    refine ⟨hsettings, rfl, (notify_counters hnotify).2.2.1, rfl, fun j => ?_⟩
    obtain ⟨rfl, _⟩ := genericQueueNotify_ok hnotify
    obtain ⟨now', hentry⟩ := notified_entry s.queue i now j
    dsimp only
    rw [hentry]
    rfl
  | notifyFails i transfer now reason hi hnotify => exact { Kept.refl s with }
  | drop i transfer now caller events received oldActive block hpc hi hnotifies =>
    exact { Kept.refl s with }
  | waitReturn ok caller events received oldActive block hpc hok => exact { Kept.refl s with }
  | finish now hpc => exact { Kept.refl s with }

/-- A run that submits nothing keeps what has been submitted. -/
theorem Kept.of_reaches {s t : IoState γ}
    (h : Reaches (step config G) (Drains config) s t) : Kept s t :=
  h.invariant (fun _ _ _ hkept hP hstep => hkept.trans (Kept.of_step hP hstep)) (Kept.refl s)

/-- All sectors of a request in flight can take effect. -/
theorem reaches_served {s : IoState γ} {i : ℕ} (hi : i ∈ s.device.inflight)
    (n : ℕ) (hn : n ≤ (s.queue.ioaqes i).request.sectors) :
    ∃ t, Reaches (step config G) (Drains config) s t ∧ t.pc = s.pc ∧
      t.device.inflight = s.device.inflight ∧
      (t.queue.ioaqes i).request.sectors = (s.queue.ioaqes i).request.sectors ∧
      ∀ k, k < n → t.device.served i k = true := by
  induction n with
  | zero => exact ⟨s, .refl _ s, rfl, rfl, rfl, fun k hk => absurd hk (Nat.not_lt_zero k)⟩
  | succ n ih =>
    obtain ⟨t, ht, hpc, hinflight, hsectors, hserved⟩ := ih (by omega)
    by_cases hnth : t.device.served i n = true
    · refine ⟨t, ht, hpc, hinflight, hsectors, fun k hk => ?_⟩
      rcases Nat.lt_or_eq_of_le (Nat.le_of_lt_succ hk) with hlt | rfl
      · exact hserved k hlt
      · exact hnth
    · have hstep : step config G t (.effect i n) = some (t.effect i n) := by
        simp only [step, hinflight, hsectors]
        exact if_pos ⟨hi, hn, hnth⟩
      refine ⟨t.effect i n, ht.trans (.single hstep
        ⟨⟨⟨trivial, fun l hl => by cases hl⟩, trivial⟩, fun clock accepted ha => by cases ha⟩),
        ?_, ?_, ?_, fun k hk => ?_⟩
      · rw [effect_pc, hpc]
      · rw [effect_inflight, hinflight]
      · obtain ⟨buf, hentry⟩ := effect_entry t i n i
        rw [hentry]
        exact hsectors
      · rw [effect_served, Device.serve_eq_true_iff]
        rcases Nat.lt_or_eq_of_le (Nat.le_of_lt_succ hk) with hlt | rfl
        · exact Or.inl (hserved k hlt)
        · exact Or.inr ⟨rfl, rfl⟩

/-- The head of the waiting loop waits while requests are in flight. -/
theorem waitLoop_cases (queue : AsyncQueue) (caller : Caller) (events received : ℕ) :
    (∃ oldActive block, waitLoop queue caller events received =
      .wait caller events received oldActive block) ∨
    waitLoop queue caller events received = caller.resume ∧ queue.active = 0 := by
  unfold waitLoop
  split
  · exact Or.inl ⟨_, _, rfl⟩
  · rename_i hactive
    refine Or.inr ⟨rfl, UInt32.toNat_inj.mp (Nat.eq_zero_of_not_pos fun hpos => ?_)⟩
    exact hactive (UInt32.lt_iff_toNat_lt.mpr hpos)

/-- After `queue_wait` has notified a request, the waiting loop goes on. -/
theorem waitReturned_of_ne {queue : AsyncQueue} {caller : Caller} {events received : ℕ}
    {oldActive : UInt32} (h : queue.active ≠ oldActive) :
    waitReturned config queue caller events received oldActive true =
      waitLoop queue caller events (received + (oldActive - queue.active).toNat) := by
  have hsub : oldActive - queue.active ≠ 0 := by
    intro hzero
    exact h (sub_eq_zero.mp hzero).symm
  simp [waitReturned, hsub]

/-- The thread waits for the requests in flight on behalf of a caller, or has come back to it
without any. -/
def WaitsFor (caller : Caller) (s : IoState γ) : Prop :=
  (∃ events received oldActive block, s.pc = .wait caller events received oldActive block) ∨
    s.pc = caller.resume ∧ s.device.inflight = []

theorem WaitsFor.of_waitLoop {s : IoState γ} {caller : Caller} {events received : ℕ}
    (hslots : SlotInv s) (hpc : s.pc = waitLoop s.queue caller events received) :
    WaitsFor caller s := by
  rcases waitLoop_cases s.queue caller events received with ⟨oldActive, block, hwait⟩ | ⟨hresume, h⟩
  · exact Or.inl ⟨events, received, oldActive, block, hpc.trans hwait⟩
  · refine Or.inr ⟨hpc.trans hresume, List.eq_nil_of_length_eq_zero ?_⟩
    rw [hslots.conserved.active_eq, h]
    rfl

/-- An invariant of a workload under which every request in flight can be completed. -/
structure Completable (config : Config) (G : Generator γ) (I : IoState γ → Prop) : Prop where
  of_step : ∀ s a t, I s → DuringWorkload config s a → step config G s a = some t → I t
  notify_ok : ∀ s, I s → ∀ i ∈ s.device.inflight, ∃ worker workload queue,
    genericQueueNotify config s.worker s.workload s.queue i 0 = .ok (worker, workload, queue)

/-- The completions of a sequential workload in one direction do not end the process. -/
theorem OneWay.completable {write : Bool} : Completable config workloads (OneWay write) :=
  ⟨fun _ _ _ h hduring hstep => h.of_step hduring hstep, fun _ h _ hi => h.notify_ok hi 0⟩

/-- A run that submits nothing keeps such an invariant, and the queue entries. -/
theorem Completable.of_reaches {I : IoState γ → Prop} {s t : IoState γ}
    (hI : Completable config G I) (hslots : SlotInv s) (hs : I s)
    (h : Reaches (step config G) (Drains config) s t) : SlotInv t ∧ I t := by
  apply h.invariant (I := fun s => SlotInv s ∧ I s) _ ⟨hslots, hs⟩
  intro s a t hs hP hstep
  exact ⟨hs.1.of_step hP.1.1.1 hstep, hI.of_step s a t hs.2 hP.1.1 hstep⟩

/-- A request in flight can be completed. -/
theorem reaches_notified {I : IoState γ → Prop} {s : IoState γ} {caller : Caller}
    {events received : ℕ} {oldActive : UInt32} {block : Bool} {i : ℕ}
    (hI : Completable config G I) (hslots : SlotInv s) (hs : I s)
    (hpc : s.pc = .wait caller events received oldActive block) (hi : i ∈ s.device.inflight) :
    ∃ t, Reaches (step config G) (Drains config) s t ∧ WaitsFor caller t ∧
      t.device.inflight = s.device.inflight.erase i := by
  obtain ⟨u, hu, hupc, hinflight, hsectors, hserved⟩ :=
    reaches_served (G := G) hi _ (Nat.le_refl _)
  obtain ⟨huslots, hus⟩ := hI.of_reaches hslots hs hu
  rw [← hinflight] at hi
  obtain ⟨worker, workload, queue, hnotify⟩ := hI.notify_ok u hus i hi
  have hnotifies : config.platform.notifies .full = true := by
    cases config.platform <;> rfl
  have hstep := step_reap (G := G) (hupc.trans hpc) hi hnotifies hnotify
  have hfree : Drains config u (.reap i .full 0) :=
    ⟨⟨⟨hnotifies, fun l hl => by cases hl⟩, rfl, fun k hk => hserved k (hsectors ▸ hk)⟩,
      fun clock accepted ha => by cases ha⟩
  have hvslots := huslots.of_step hfree.1.1.1 hstep
  obtain ⟨hqueue, _⟩ := genericQueueNotify_ok hnotify
  refine ⟨_, hu.trans (.single hstep hfree), ?_, congrArg (List.erase · i) hinflight⟩
  cases hplatform : config.platform with
  | linux =>
    refine Or.inl ⟨events, received, oldActive, block, ?_⟩
    simp only [afterNotify, hplatform, hupc, hpc]
  | win32 =>
    have hactive : 0 < u.queue.active.toNat := by
      rw [← huslots.conserved.active_eq]
      exact List.length_pos_of_mem hi
    have hprogress := (AsyncQueue.At.release i ((u.queue.ioaqes i).request.setCompleted 0)
      huslots.conserved.add hactive (hupc.trans hpc ▸ huslots.at_pc)).2
    rw [← hqueue] at hprogress
    apply WaitsFor.of_waitLoop hvslots
    simp only [afterNotify, hplatform]
    exact waitReturned_of_ne hprogress

/-- A waiting thread comes back to its caller with nothing in flight. -/
theorem reaches_resume {I : IoState γ → Prop} {s : IoState γ} {caller : Caller}
    (hI : Completable config G I) (hslots : SlotInv s) (hs : I s) (hwaits : WaitsFor caller s) :
    ∃ t, Reaches (step config G) (Drains config) s t ∧ t.pc = caller.resume ∧
      t.device.inflight = [] := by
  obtain ⟨n, hn⟩ : ∃ n, s.device.inflight.length = n := ⟨_, rfl⟩
  induction n generalizing s with
  | zero =>
    have hnil := List.eq_nil_of_length_eq_zero hn
    rcases hwaits with ⟨events, received, oldActive, block, hpc⟩ | ⟨hpc, _⟩
    · have hzero : s.queue.active = 0 := by
        apply UInt32.toNat_inj.mp
        rw [← hslots.conserved.active_eq, hn]
        rfl
      have hne : s.queue.active ≠ oldActive := by
        have hat := hslots.at_pc
        rw [hpc] at hat
        intro heq
        have hpos : 0 < oldActive.toNat := hat.2.1
        rw [← heq, hzero] at hpos
        exact Nat.lt_irrefl 0 hpos
      refine ⟨_, .single (step_waitReturn hpc) ⟨⟨⟨?_, fun l hl => by cases hl⟩, trivial⟩,
        fun clock accepted ha => by cases ha⟩, ?_, hnil⟩
      · intro caller' events' received' oldActive' hpc'
        rw [hpc] at hpc'
        cases hpc'
        exact hne
      · rw [waitReturned_of_ne hne]
        simp [waitLoop, hzero]
    · exact ⟨s, .refl _ s, hpc, hnil⟩
  | succ n ih =>
    rcases hwaits with ⟨events, received, oldActive, block, hpc⟩ | ⟨_, hnil⟩
    · obtain ⟨i, hi⟩ := List.exists_mem_of_length_pos (Nat.lt_of_lt_of_eq (Nat.succ_pos n) hn.symm)
      obtain ⟨u, hu, huwaits, hinflight⟩ := reaches_notified hI hslots hs hpc hi
      obtain ⟨huslots, hus⟩ := hI.of_reaches hslots hs hu
      obtain ⟨t, ht, hresume, hnil⟩ := ih huslots hus huwaits (by
        rw [hinflight, List.length_erase_of_mem hi, hn, Nat.add_sub_cancel])
      exact ⟨t, hu.trans ht, hresume, hnil⟩
    · rw [hnil] at hn
      cases hn

/-- From the head of its loop, a workload whose time is over comes to an end. -/
theorem reaches_done {I : IoState γ → Prop} {s : IoState γ} (hI : Completable config G I)
    (hslots : SlotInv s) (hs : I s) (hpc : s.pc = .head) :
    ∃ t, Reaches (step config G) (FaultFree config) s t ∧ t.pc = .done ∧ Kept s t := by
  obtain ⟨u, hu⟩ : ∃ u, { s with pc := genericQueueBarrier s.queue } = u := ⟨_, rfl⟩
  have hlate : ¬s.terminateAt + 1 ≤ s.terminateAt :=
    Int.not_le.mpr (Int.lt_succ s.terminateAt)
  have htimeout : step config G s (.iterate ⟨s.terminateAt + 1, 0, 0⟩ true) = some u := by
    simp only [step, hpc, if_true, IoState.iterate, hlate, if_false, hu]
  have hfree : FaultFree config s (.iterate ⟨s.terminateAt + 1, 0, 0⟩ true) := FaultFree.iterate
  have huslots := hslots.of_step hfree.1.1 htimeout
  have hwaits : WaitsFor .barrier u := WaitsFor.of_waitLoop huslots (by rw [← hu]; rfl)
  obtain ⟨v, hv, hdrained, _⟩ :=
    reaches_resume hI huslots (hI.of_step _ _ _ hs hfree.1 htimeout) hwaits
  have hfinish : step config G v (.finish 0) = some { v with
      workload := { v.workload with endTime := 0 }, pc := .done } := if_pos hdrained
  have hkept : Kept s u := by
    rw [← hu]
    exact { Kept.refl s with }
  refine ⟨_, (Reaches.single htimeout hfree).trans ((hv.mono fun _ _ h => h.1).trans
    (.single hfinish ⟨⟨trivial, fun l hl => by cases hl⟩, trivial⟩)), rfl, ?_⟩
  exact hkept.trans ((Kept.of_reaches hv).trans { Kept.refl v with })

/-- A workload is at the head of its loop after `m` requests of `r` bytes. -/
structure Resting (I : IoState γ → Prop) (P : γ → Prop) (r : UInt64) (m : ℕ) (s : IoState γ) :
    Prop where
  slots : SlotInv s
  inv : I s
  pc : s.pc = .head
  generator : P s.generator
  submissions : s.device.submissions.length = m
  submitted : s.workload.submittedBytes.toNat = m * r.toNat
  sizes : ∀ j, (s.queue.ioaqes j).request.size ≤ r

theorem Resting.start {I : IoState γ → Prop} {P : γ → Prop} {r : UInt64} {s : IoState γ}
    {l : Launch γ} {queue : AsyncQueue} (hdepth : 1 ≤ l.queueDepth)
    (hcreate : genericQueueCreate config s.worker l.queueDepth l.memory = .ok queue)
    (hinv : I (s.start l queue)) (hgenerator : P l.generator) :
    Resting I P r 0 (s.start l queue) := by
  have hslots : SlotInv (s.start l queue) := SlotInv.start hdepth hcreate
  obtain ⟨bufsize, rfl⟩ := genericQueueCreate_ok hcreate
  exact ⟨hslots, hinv, rfl, hgenerator, rfl, (Nat.zero_mul _).symm,
    fun j => UInt64.le_iff_toNat_le.mpr (Nat.zero_le _)⟩

/-- As long as the limit has room for one more request of the size of the last ones, the workload
submits what its generator produces. -/
theorem Resting.submits {I : IoState γ → Prop} {P Q : γ → Prop} {r b : UInt64} {m : ℕ}
    {s : IoState γ} (h : Resting I P r m s) (hnext : G.Produces b P Q)
    (hroom : (m + 1) * r.toNat ≤ s.worker.iolimit.toNat) :
    ∃ i rest data seed target, step config G s (.iterate ⟨s.terminateAt, 0, 0⟩ true) =
        some (s.submit config i rest data seed target ⟨s.terminateAt, 0, 0⟩ true) ∧
      target.size = b ∧ Q data := by
  obtain ⟨i, rest, hready⟩ : ∃ i rest, s.queue.ready = i :: rest := by
    have hat := h.slots.at_pc
    rw [h.pc] at hat
    have hpos : 0 < s.queue.free.toNat := hat
    rw [← h.slots.conserved.free_eq] at hpos
    exact List.exists_cons_of_length_pos hpos
  have hlt := s.worker.iolimit.toNat_lt
  have hsize := UInt64.le_iff_toNat_le.mp (h.sizes i)
  rw [Nat.succ_mul] at hroom
  have hlimit : s.workload.submittedBytes + (s.queue.ioaqes i).request.size ≤
      s.worker.iolimit := by
    rw [UInt64.le_iff_toNat_le, UInt64.toNat_add, h.submitted, Nat.mod_eq_of_lt (by omega)]
    omega
  obtain ⟨data, seed, target, hfill, htarget, hdata⟩ :=
    hnext s.generator s.worker.filesize s.worker.randomSeed h.generator
  exact ⟨i, rest, data, seed, target,
    step_submit h.pc (Int.le_refl _) hready hlimit hfill fun _ => rfl, htarget, hdata⟩

/-- As long as the limit has room, the workload can submit and complete one more request. -/
theorem Resting.next {I : IoState γ → Prop} {P Q : γ → Prop} {r : UInt64} {m : ℕ} {s : IoState γ}
    (hI : Completable config G I) (h : Resting I P r m s) (hnext : G.Produces r P Q)
    (hroom : (m + 1) * r.toNat ≤ s.worker.iolimit.toNat) :
    ∃ t, Reaches (step config G) (FaultFree config) s t ∧ Resting I Q r (m + 1) t ∧
      s.worker.SameSettings t.worker := by
  obtain ⟨i, rest, data, seed, target, hstep, htarget, hdata⟩ := h.submits hnext hroom
  obtain ⟨u, hu⟩ : ∃ u, s.submit config i rest data seed target ⟨s.terminateAt, 0, 0⟩ true = u :=
    ⟨_, rfl⟩
  rw [hu] at hstep
  have hfree : FaultFree config s (.iterate ⟨s.terminateAt, 0, 0⟩ true) := FaultFree.iterate
  have huslots := h.slots.of_step hfree.1.1 hstep
  have hinv := hI.of_step _ _ _ h.inv hfree.1 hstep
  have hwaits : WaitsFor .ioworker u := WaitsFor.of_waitLoop huslots (by rw [← hu]; rfl)
  obtain ⟨t, ht, hhead, _⟩ := reaches_resume hI huslots hinv hwaits
  have hkept := Kept.of_reaches ht
  have hsettings := (step_keeps hfree.1.2 hstep).1.trans hkept.settings
  have hlt := s.worker.iolimit.toNat_lt
  obtain ⟨htslots, htinv⟩ := hI.of_reaches huslots hinv ht
  rw [Nat.succ_mul] at hroom
  refine ⟨t, (Reaches.single hstep hfree).trans (ht.mono fun _ _ h => h.1),
    ⟨htslots, htinv, hhead, ?_, ?_, ?_, fun j => ?_⟩, hsettings⟩
  · rw [hkept.generator, ← hu]
    exact hdata
  · rw [hkept.submissions, ← hu, ← h.submissions]
    exact List.length_append
  · rw [hkept.submitted, ← hu, submit_submittedBytes, UInt64.toNat_add, h.submitted, htarget,
      Nat.mod_eq_of_lt (by omega), Nat.succ_mul]
  · rw [hkept.sizes j, ← hu]
    by_cases hji : j = i
    · rw [hji, submit_entry_self.2.2.1, htarget]
      exact UInt64.le_refl r
    · rw [submit_entry_of_ne hji]
      exact h.sizes j

/-- A workload can submit and complete as many requests as its limit has room for. -/
theorem Resting.exec {I : IoState γ → Prop} {P : ℕ → γ → Prop} {r : UInt64} {s : IoState γ}
    (hI : Completable config G I) (h : Resting I (P 0) r 0 s) (m : ℕ)
    (hnext : ∀ n, n < m → G.Produces r (P n) (P (n + 1)))
    (hroom : m * r.toNat ≤ s.worker.iolimit.toNat) :
    ∃ t, Reaches (step config G) (FaultFree config) s t ∧ Resting I (P m) r m t ∧
      s.worker.SameSettings t.worker := by
  induction m with
  | zero => exact ⟨s, .refl _ s, h, .refl _⟩
  | succ m ih =>
    obtain ⟨u, hu, hresting, hsettings⟩ := ih (fun n hn => hnext n (Nat.lt_succ_of_lt hn))
      (Nat.le_trans (Nat.mul_le_mul_right _ (Nat.le_succ m)) hroom)
    rw [← hsettings.iolimit] at hroom
    obtain ⟨t, ht, hresting', hsettings'⟩ :=
      hresting.next hI (hnext m (Nat.lt_succ_self m)) hroom
    exact ⟨t, hu.trans ht, hresting', hsettings.trans hsettings'⟩

end DiskBench
