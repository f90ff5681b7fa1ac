import DiskBench.Slots
import DiskBench.Workloads.Workloads

/-!
# The IO limit

`ioworker` tests the limit on the record of the entry it takes from the ring, before
`fill_request` chooses the request that is then submitted. The size in the record is that of
the previous request of the entry, or 0 for an entry that has not been used. So a workload keeps
the limit for sure when all requests have one size and the limit has room for one of every entry,
or when the limit is so close to the largest word that no byte counter comes to lie beyond it.
-/

namespace DiskBench

open Transition

variable {γ : Type} {config : Config} {G : Generator γ}

/-- `submitted_bytes` does not exceed `iolimit`. -/
def WithinLimit (s : IoState γ) : Prop := s.workload.submittedBytes ≤ s.worker.iolimit

/-- The thread goes on with its workload. -/
def SameWorkload (_ : IoState γ) (a : Action γ) : Prop := ∀ l, a ≠ .launch l

/-- All states that the workload can reach are within the limit, whatever the clock says, whichever
requests complete, in whatever order, and whatever the platform does. -/
def KeepsLimit (config : Config) (G : Generator γ) (s : IoState γ) : Prop :=
  ∀ t, Reaches (step config G) SameWorkload s t → WithinLimit t

/-- The limit has room for the requests of a workload on a queue of this depth. Either all requests
have one size, and no number of them up to the depth exceeds the limit: so many are submitted from
fresh entries, without a test of their size. Or all sizes are multiples of a power of two, and no
multiple of it that fits into a word exceeds the limit. -/
def RoomFor (sizes : Set UInt64) (depth : ℕ) (iolimit : UInt64) : Prop :=
  (∃ r, sizes ⊆ {r} ∧ ∀ m ≤ depth, UInt64.ofNat m * r ≤ iolimit) ∨
    ∃ k ≤ 64, (∀ r ∈ sizes, 2 ^ k ∣ r.toNat) ∧ 2 ^ 64 ≤ iolimit.toNat + 2 ^ k

/-- A product that fits into a word. -/
theorem toNat_ofNat_mul {m : ℕ} {r : UInt64} (h : m * r.toNat < 2 ^ 64) :
    (UInt64.ofNat m * r).toNat = m * r.toNat := by
  rw [UInt64.toNat_mul, UInt64.toNat_ofNat', Nat.mod_mul_mod, Nat.mod_eq_of_lt h]

/-- One more request. -/
theorem ofNat_succ_mul (m : ℕ) (r : UInt64) :
    UInt64.ofNat (m + 1) * r = UInt64.ofNat m * r + r := by
  rw [UInt64.ofNat_add, UInt64.add_mul]
  congr 1
  exact UInt64.one_mul r

/-- Where the requests of all entries fit into a word, the limit has room for each number of them
if it has room for all. -/
theorem forall_ofNat_mul_le_iff {depth : ℕ} {r iolimit : UInt64} (h : depth * r.toNat < 2 ^ 64) :
    (∀ m ≤ depth, UInt64.ofNat m * r ≤ iolimit) ↔ depth * r.toNat ≤ iolimit.toNat := by
  constructor
  · intro hroom
    have hlast := UInt64.le_iff_toNat_le.mp (hroom depth (Nat.le_refl depth))
    rwa [toNat_ofNat_mul h] at hlast
  · intro hle m hm
    have hmul : m * r.toNat ≤ depth * r.toNat := Nat.mul_le_mul_right _ hm
    rw [UInt64.le_iff_toNat_le, toNat_ofNat_mul (by omega)]
    omega

/-- A notification changes neither the bytes submitted nor the limit. -/
theorem notify_limit {worker worker' : IoWorker} {workload workload' : IoWorkload}
    {queue queue' : AsyncQueue} {i : ℕ} {now : AprTime}
    (h : genericQueueNotify config worker workload queue i now = .ok (worker', workload', queue')) :
    workload'.submittedBytes = workload.submittedBytes ∧ worker'.iolimit = worker.iolimit := by
  refine ⟨(notify_counters h).2.2.1, ?_⟩
  obtain ⟨_, ⟨_, _, rfl, _⟩ | ⟨_, rfl, _⟩⟩ := genericQueueNotify_ok h
  · rfl
  · unfold IoWorker.advance
    split <;> rfl

/-- A workload whose requests have sizes that are multiples of a power of two, with a limit that no
multiple of it exceeds. -/
structure Multiples (k : ℕ) (P : γ → Prop) (s : IoState γ) : Prop where
  generator : P s.generator
  dvd : 2 ^ k ∣ s.workload.submittedBytes.toNat
  limit : 2 ^ 64 ≤ s.worker.iolimit.toNat + 2 ^ k

theorem Multiples.within {k : ℕ} {P : γ → Prop} {s : IoState γ} (h : Multiples k P s)
    (hk : k ≤ 64) : WithinLimit s := by
  have hword : 2 ^ k ∣ 2 ^ 64 := Nat.pow_dvd_pow 2 hk
  have hlt := s.workload.submittedBytes.toNat_lt
  have hlimit := h.limit
  obtain ⟨m, hm⟩ := h.dvd
  obtain ⟨n, hn⟩ := hword
  -- The counter is below the last multiple.
  have hmn : m + 1 ≤ n := by
    rw [hm, hn] at hlt
    exact Nat.lt_of_mul_lt_mul_left hlt
  have hle : 2 ^ k * (m + 1) ≤ 2 ^ k * n := Nat.mul_le_mul_left _ hmn
  rw [WithinLimit, UInt64.le_iff_toNat_le]
  rw [Nat.mul_succ] at hle
  omega

/-- Every step of the workload keeps the counter a multiple. -/
theorem Multiples.of_step {k : ℕ} {sizes : Set UInt64} {P : γ → Prop} {s t : IoState γ}
    {a : Action γ} (hdraws : G.Draws sizes P) (hk : k ≤ 64)
    (hmultiples : ∀ r ∈ sizes, 2 ^ k ∣ r.toNat) (h : Multiples k P s) (hsame : SameWorkload s a)
    (hstep : step config G s a = some t) : Multiples k P t := by
  cases step_next hstep with
  | start l queue hpc hcreate => exact absurd rfl (hsame l)
  | startFails l reason hreason => exact { h with }
  | timeout clock accepted hpc htime => exact { h with }
  | sentinel clock accepted hpc hready => exact { h with }
  | stop clock accepted i rest hpc hready hlimit => exact { h with }
  | submitFails clock accepted reason hpc hreason => exact { h with }
  | submit clock accepted i rest data seed target hpc htime hready hlimit hfill hassert =>
    obtain ⟨hsize, hdata⟩ := hdraws _ _ _ _ _ _ h.generator hfill
    refine ⟨hdata, ?_, ?_⟩
    · rw [submit_submittedBytes, UInt64.toNat_add,
        Nat.dvd_mod_iff (Nat.pow_dvd_pow 2 hk)]
      exact Nat.dvd_add h.dvd (hmultiples _ hsize)
    · rw [submit_iolimit]
      exact h.limit
  | effect i k hi hk =>
    refine ⟨?_, ?_, ?_⟩
    · rw [effect_generator]
      exact h.generator
    · rw [effect_workload]
      exact h.dvd
    · rw [effect_worker]
      exact h.limit
  | notify i transfer now caller events received oldActive block worker workload queue hpc hi
      hnotifies hnotify =>
    obtain ⟨hsubmitted, hiolimit⟩ := notify_limit hnotify
    refine ⟨h.generator, ?_, ?_⟩
    · show 2 ^ k ∣ workload.submittedBytes.toNat
      rw [hsubmitted]
      exact h.dvd
    · show 2 ^ 64 ≤ worker.iolimit.toNat + 2 ^ k
      rw [hiolimit]
      exact h.limit
  | notifyFails i transfer now reason hi hnotify => exact { h with }
  | drop i transfer now caller events received oldActive block hpc hi hnotifies => exact { h with }
  | waitReturn ok caller events received oldActive block hpc hok => exact { h with }
  | finish now hpc => exact { h with }

/-- The thread is in the loop of `ioworker`, not yet in the barrier. -/
def Pc.Running : Pc → Prop
  | .head => True
  | .wait caller _ _ _ _ => caller = .ioworker
  | _ => False

/-- The waiting loop of the barrier does not lead back into the loop of `ioworker`. -/
theorem Pc.Running.of_waitLoop {queue : AsyncQueue} {caller : Caller} {events received : ℕ}
    (h : (waitLoop queue caller events received).Running) : caller = .ioworker := by
  cases caller with
  | ioworker => rfl
  | barrier =>
    unfold waitLoop at h
    split at h
    · exact h
    · exact h.elim

theorem Pc.Running.of_waitReturned {queue : AsyncQueue} {caller : Caller} {events received : ℕ}
    {oldActive : UInt32} {ok : Bool}
    (h : (waitReturned config queue caller events received oldActive ok).Running) :
    caller = .ioworker := by
  unfold waitReturned at h
  split at h
  · exact h.elim
  split at h
  · cases caller with
    | ioworker => rfl
    | barrier => exact h.elim
  · exact of_waitLoop h

theorem Pc.Running.of_afterNotify {queue : AsyncQueue} {caller : Caller} {events received : ℕ}
    {oldActive : UInt32} {block : Bool}
    (h : (afterNotify config queue (.wait caller events received oldActive block) caller events
      received oldActive).Running) : caller = .ioworker := by
  unfold afterNotify at h
  split at h
  · exact h
  · exact of_waitReturned h

/-- The invariant of a workload with one request size `r` on a queue of `d` entries, after `n`
requests. The entries are used for the first time in their order, before any of them is used
again. -/
structure OneSize (r : UInt64) (P : γ → Prop) (d n : ℕ) (s : IoState γ) : Prop where
  generator : P s.generator
  room : ∀ m ≤ d, UInt64.ofNat m * r ≤ s.worker.iolimit
  submitted : s.workload.submittedBytes = UInt64.ofNat n * r
  within : WithinLimit s
  /-- A limit that leaves room for one more request keeps the counter from wrapping. -/
  nowrap : s.worker.iolimit.toNat + r.toNat < 2 ^ 64 → n * r.toNat < 2 ^ 64
  size : ∀ i, i < d → (s.queue.ioaqes i).request.size = if i < n then r else 0
  inflight : ∀ i ∈ s.device.inflight, i < n ∧ i < d
  ready : s.pc.Running → ∃ recycled, s.queue.ready = List.range' n (d - n) ++ recycled ∧
    ∀ i ∈ recycled, i < n ∧ i < d

/-- The first ready entry is the next fresh one, or one that carries the request size. -/
theorem OneSize.first {r : UInt64} {P : γ → Prop} {d n i : ℕ} {rest : List ℕ} {s : IoState γ}
    (h : OneSize r P d n s) (hrunning : s.pc.Running) (hready : s.queue.ready = i :: rest) :
    ∃ recycled, rest = List.range' (n + 1) (d - (n + 1)) ++ recycled ∧
      (∀ j ∈ recycled, j < n ∧ j < d) ∧ i < d ∧ (n < d ∧ i = n ∨ d ≤ n ∧ i < n) := by
  obtain ⟨recycled, hsplit, hrecycled⟩ := h.ready hrunning
  rw [hready] at hsplit
  rcases Nat.lt_or_ge n d with hlt | hge
  · obtain ⟨m, hm⟩ : ∃ m, d - n = m + 1 := ⟨d - n - 1, by omega⟩
    rw [hm, List.range'_succ, List.cons_append, List.cons.injEq] at hsplit
    obtain ⟨rfl, hrest⟩ := hsplit
    refine ⟨recycled, ?_, hrecycled, hlt, Or.inl ⟨hlt, rfl⟩⟩
    rw [hrest]
    congr 2
    omega
  · have hzero : d - n = 0 := by omega
    rw [hzero, List.range'_zero, List.nil_append] at hsplit
    obtain ⟨hi, hid⟩ := hrecycled i (hsplit ▸ List.mem_cons_self)
    refine ⟨rest, ?_, fun j hj => hrecycled j (hsplit ▸ List.mem_cons_of_mem i hj), hid,
      Or.inr ⟨hge, hi⟩⟩
    have hzero' : d - (n + 1) = 0 := by omega
    rw [hzero', List.range'_zero, List.nil_append]

theorem OneSize.submit {r : UInt64} {P : γ → Prop} {d n i : ℕ} {rest : List ℕ} {s : IoState γ}
    {data : γ} {seed : UInt64} {target : Target} {clock : Clock} {accepted : Bool}
    (h : OneSize r P d n s) (hrunning : s.pc.Running) (hready : s.queue.ready = i :: rest)
    (hlimit : s.workload.submittedBytes + (s.queue.ioaqes i).request.size ≤ s.worker.iolimit)
    (hsize : target.size = r) (hdata : P data) :
    OneSize r P d (n + 1) (s.submit config i rest data seed target clock accepted) := by
  obtain ⟨recycled, hrest, hrecycled, hi, hcase⟩ := h.first hrunning hready
  have hsum : s.workload.submittedBytes + r = UInt64.ofNat (n + 1) * r := by
    rw [h.submitted, ofNat_succ_mul]
  -- The next request fits: by the test when the entry carries `r`, by the depth when it is fresh.
  have hnext : s.workload.submittedBytes + r ≤ s.worker.iolimit := by
    rcases hcase with ⟨hlt, _⟩ | ⟨_, hlt⟩
    · rw [hsum]
      exact h.room (n + 1) hlt
    · rwa [h.size i hi, if_pos hlt] at hlimit
  refine ⟨hdata, fun m hm => ?_, ?_, ?_, fun hnowrap => ?_, fun j hj => ?_, fun j hj => ?_,
    fun _ => ⟨recycled, hrest, fun j hj => ?_⟩⟩
  · rw [submit_iolimit]
    exact h.room m hm
  · rw [submit_submittedBytes, hsize, hsum]
  · rw [WithinLimit, submit_submittedBytes, submit_iolimit, hsize]
    exact hnext
  · rw [submit_iolimit] at hnowrap
    have hwithin := UInt64.le_iff_toNat_le.mp h.within
    rw [h.submitted, toNat_ofNat_mul (h.nowrap hnowrap)] at hwithin
    rw [Nat.succ_mul]
    omega
  · by_cases hji : j = i
    · subst hji
      rw [submit_entry_self.2.2.1, hsize, if_pos (by omega)]
    · rw [submit_entry_of_ne hji, h.size j hj]
      congr 1
      exact propext (by omega)
  · cases accepted with
    | true =>
      have hmem : j ∈ s.device.inflight ++ [i] := hj
      rcases List.mem_append.mp hmem with hmem | hmem
      · have := h.inflight j hmem
        omega
      · rw [List.mem_singleton] at hmem
        omega
    | false =>
      have := h.inflight j hj
      omega
  · have := hrecycled j hj
    omega

theorem OneSize.start {r : UInt64} {P : γ → Prop} {s : IoState γ} {l : Launch γ}
    {queue : AsyncQueue} (hgenerator : P l.generator)
    (hroom : ∀ m ≤ l.queueDepth.toInt.toNat, UInt64.ofNat m * r ≤ l.iolimit)
    (hcreate : genericQueueCreate config s.worker l.queueDepth l.memory = .ok queue) :
    OneSize r P l.queueDepth.toInt.toNat 0 (s.start l queue) := by
  obtain ⟨bufsize, rfl⟩ := genericQueueCreate_ok hcreate
  refine ⟨hgenerator, hroom, (UInt64.zero_mul (a := r)).symm,
    UInt64.le_iff_toNat_le.mpr (Nat.zero_le _), fun _ => by omega,
    fun i _ => (if_neg (Nat.not_lt_zero i)).symm, fun i hi => absurd hi List.not_mem_nil,
    fun _ => ⟨[], ?_, fun i hi => absurd hi List.not_mem_nil⟩⟩
  show List.range l.queueDepth.toInt.toNat = List.range' 0 (l.queueDepth.toInt.toNat - 0) ++ []
  rw [List.append_nil, Nat.sub_zero, List.range_eq_range']

theorem OneSize.effect {r : UInt64} {P : γ → Prop} {d n i k : ℕ} {s : IoState γ}
    (h : OneSize r P d n s) : OneSize r P d n (s.effect i k) := by
  obtain ⟨buf, hqueue⟩ := effect_queue s i k
  constructor
  · rw [effect_generator]
    exact h.generator
  · rw [effect_worker]
    exact h.room
  · rw [effect_workload]
    exact h.submitted
  · rw [WithinLimit, effect_workload, effect_worker]
    exact h.within
  · rw [effect_worker]
    exact h.nowrap
  · intro j hj
    have hsize := congrFun (pendingSizes_congr s.queue i
      ((s.queue.ioaqes i).request.setBuf buf) rfl) j
    rw [hqueue]
    exact hsize.trans (h.size j hj)
  · rw [effect_inflight]
    exact h.inflight
  · rw [effect_pc, hqueue]
    exact h.ready

theorem OneSize.notify {r : UInt64} {P : γ → Prop} {d n i : ℕ} {s : IoState γ}
    {transfer : Transfer} {now : AprTime} {caller : Caller} {events received : ℕ}
    {oldActive : UInt32} {block : Bool} {worker : IoWorker} {workload : IoWorkload}
    {queue : AsyncQueue} (h : OneSize r P d n s)
    (hpc : s.pc = .wait caller events received oldActive block) (hi : i ∈ s.device.inflight)
    (hnotify : genericQueueNotify config s.worker s.workload s.queue i now =
      .ok (worker, workload, queue)) :
    OneSize r P d n { s with
      worker := worker
      workload := workload
      queue := queue
      pc := afterNotify config queue s.pc caller events received oldActive
      device := s.device.complete i (s.queue.ioaqes i).request transfer } := by
  obtain ⟨hsubmitted, hiolimit⟩ := notify_limit hnotify
  obtain ⟨hqueue, _⟩ := genericQueueNotify_ok hnotify
  constructor
  · exact h.generator
  · show ∀ m ≤ d, UInt64.ofNat m * r ≤ worker.iolimit
    rw [hiolimit]
    exact h.room
  · show workload.submittedBytes = UInt64.ofNat n * r
    rw [hsubmitted]
    exact h.submitted
  · show workload.submittedBytes ≤ worker.iolimit
    rw [hsubmitted, hiolimit]
    exact h.within
  · show worker.iolimit.toNat + r.toNat < 2 ^ 64 → _
    rw [hiolimit]
    exact h.nowrap
  · intro j hj
    have hsize := congrFun (pendingSizes_congr s.queue i
      ((s.queue.ioaqes i).request.setCompleted now) rfl) j
    show (queue.ioaqes j).request.size = _
    rw [hqueue]
    exact hsize.trans (h.size j hj)
  · intro j hj
    exact h.inflight j (List.mem_of_mem_erase hj)
  · intro hrunning
    have hcaller : caller = .ioworker := by
      have hafter := hrunning
      dsimp only at hafter
      rw [hpc] at hafter
      exact hafter.of_afterNotify
    obtain ⟨recycled, hready, hrecycled⟩ := h.ready (by rw [hpc]; exact hcaller)
    refine ⟨recycled ++ [i], ?_, fun j hj => ?_⟩
    · show queue.ready = _
      rw [hqueue, AsyncQueue.release_ready, AsyncQueue.setRequest_ready, hready,
        List.append_assoc]
    · rcases List.mem_append.mp hj with hj | hj
      · exact hrecycled j hj
      · rw [List.mem_singleton] at hj
        exact hj ▸ h.inflight i hi

/-- Every step of the workload keeps the invariant. On a cooperative platform the requests that have
been submitted are those that the device has accepted. -/
theorem OneSize.of_step {r : UInt64} {P : γ → Prop} {d n : ℕ} {s t : IoState γ} {a : Action γ}
    (hdraws : G.Draws {r} P) (h : OneSize r P d n s) (hsame : SameWorkload s a)
    (hstep : step config G s a = some t) :
    ∃ n', OneSize r P d n' t ∧ (Cooperative config s a →
      n' + s.device.submissions.length = n + t.device.submissions.length) := by
  cases step_next hstep with
  | start l queue hpc hcreate => exact absurd rfl (hsame l)
  | startFails l reason hreason => exact absurd rfl (hsame l)
  | timeout clock accepted hpc htime =>
    exact ⟨n, { h with ready := fun hrunning => by cases hrunning.of_waitLoop }, fun _ => rfl⟩
  | sentinel clock accepted hpc hready =>
    exact ⟨n, { h with ready := fun hrunning => hrunning.elim }, fun _ => rfl⟩
  | stop clock accepted i rest hpc hready hlimit =>
    exact ⟨n, { h with ready := fun hrunning => by cases hrunning.of_waitLoop }, fun _ => rfl⟩
  | submitFails clock accepted reason hpc hreason =>
    exact ⟨n, { h with ready := fun hrunning => hrunning.elim }, fun _ => rfl⟩
  | submit clock accepted i rest data seed target hpc htime hready hlimit hfill hassert =>
    obtain ⟨hsize, hdata⟩ := hdraws _ _ _ _ _ _ h.generator hfill
    refine ⟨n + 1, h.submit (by rw [hpc]; trivial) hready hlimit hsize hdata, fun hco => ?_⟩
    obtain rfl : accepted = true := hco
    have hlength : (s.submit config i rest data seed target clock true).device.submissions.length =
        s.device.submissions.length + 1 := List.length_append
    omega
  | effect i k hi hk =>
    refine ⟨n, h.effect, fun _ => ?_⟩
    rw [effect_submissions]
  | notify i transfer now caller events received oldActive block worker workload queue hpc hi
      hnotifies hnotify => exact ⟨n, h.notify hpc hi hnotify, fun _ => rfl⟩
  | notifyFails i transfer now reason hi hnotify =>
    exact ⟨n, { h with ready := fun hrunning => hrunning.elim }, fun _ => rfl⟩
  | drop i transfer now caller events received oldActive block hpc hi hnotifies =>
    refine ⟨n, { h with
      inflight := fun j hj => h.inflight j (List.mem_of_mem_erase hj)
      ready := fun hrunning => h.ready (by rw [hpc]; exact hrunning.of_waitReturned) },
      fun _ => rfl⟩
  | waitReturn ok caller events received oldActive block hpc hok =>
    exact ⟨n, { h with
      ready := fun hrunning => h.ready (by rw [hpc]; exact hrunning.of_waitReturned) },
      fun _ => rfl⟩
  | finish now hpc =>
    exact ⟨n, { h with ready := fun hrunning => hrunning.elim }, fun _ => rfl⟩

/-- Every run on a cooperative platform keeps the invariant. -/
theorem OneSize.of_exec {r : UInt64} {P : γ → Prop} {d : ℕ} {s t : IoState γ}
    {as : List (Action γ)} (hdraws : G.Draws {r} P)
    (h : OneSize r P d s.device.submissions.length s) (hrun : exec (step config G) s as = some t)
    (hduring : Along (step config G) (DuringWorkload config) s as) :
    OneSize r P d t.device.submissions.length t := by
  apply exec_invariant (I := fun s => OneSize r P d s.device.submissions.length s) _ hrun hduring h
  intro s a t hs hP hstep
  obtain ⟨n, hn, hlength⟩ := hs.of_step hdraws hP.2 hstep
  obtain rfl : n = t.device.submissions.length := by
    have := hlength hP.1
    omega
  exact hn

/-- A workload keeps the limit when that has room for its requests. -/
theorem RoomFor.keepsLimit {sizes : Set UInt64} {P : γ → Prop} {s : IoState γ} {l : Launch γ}
    {queue : AsyncQueue} (hroom : RoomFor sizes l.queueDepth.toInt.toNat l.iolimit)
    (hdraws : G.Draws sizes P) (hgenerator : P l.generator)
    (hcreate : genericQueueCreate config s.worker l.queueDepth l.memory = .ok queue) :
    KeepsLimit config G (s.start l queue) := by
  intro t ht
  obtain ⟨r, hsizes, hroom⟩ | ⟨k, hk, hmultiples, hlimit⟩ := hroom
  · have hone : G.Draws {r} P := fun data filesize seed data' seed' target hdata hfill =>
      (hdraws data filesize seed data' seed' target hdata hfill).imp_left fun h => hsizes h
    have hinv : ∃ n, OneSize r P l.queueDepth.toInt.toNat n t := by
      apply ht.invariant (I := fun s => ∃ n, OneSize r P l.queueDepth.toInt.toNat n s) _
        ⟨0, OneSize.start hgenerator hroom hcreate⟩
      rintro s a u ⟨n, hn⟩ hsame hstep
      obtain ⟨n', hn', _⟩ := hn.of_step hone hsame hstep
      exact ⟨n', hn'⟩
    obtain ⟨n, hn⟩ := hinv
    exact hn.within
  · have hstart : Multiples k P (s.start l queue) := ⟨hgenerator, Nat.dvd_zero _, hlimit⟩
    have hinv : Multiples k P t :=
      ht.invariant (fun _ _ _ h hsame hstep => h.of_step hdraws hk hmultiples hsame hstep) hstart
    exact hinv.within hk

/-- While entries are free, the wait inside the loop does not block. -/
theorem waitLoop_of_free {queue : AsyncQueue} (hactive : 0 < queue.active.toNat)
    (hfree : 0 < queue.free.toNat) :
    waitLoop queue .ioworker 0 0 = .wait .ioworker 0 0 queue.active false := by
  have hpos : queue.active > 0 := UInt32.lt_iff_toNat_lt.mpr hactive
  have hne : queue.free ≠ 0 := by
    intro hzero
    rw [hzero] at hfree
    exact Nat.lt_irrefl 0 hfree
  simp [waitLoop, hpos, hne]

/-- A wait that has not notified anything returns to the head of the loop. -/
theorem waitReturned_of_eq (queue : AsyncQueue) (events received : ℕ) :
    waitReturned config queue .ioworker events received queue.active true = .head := by
  simp [waitReturned, Caller.resume]

/-- A step of a workload in which nothing completes. -/
def Submits (config : Config) (s : IoState γ) (a : Action γ) : Prop :=
  DuringWorkload config s a ∧ ∀ i transfer now, a ≠ .reap i transfer now

theorem Submits.iterate {s : IoState γ} {clock : Clock} :
    Submits config s (.iterate clock true) :=
  ⟨⟨rfl, fun l hl => by cases hl⟩, fun i transfer now ha => by cases ha⟩

/-- The state at the head of the loop after the first `m` requests, all of them in flight. -/
structure Started (r : UInt64) (P : γ → Prop) (d m : ℕ) (s : IoState γ) : Prop where
  slots : SlotInv s
  pc : s.pc = .head
  generator : P s.generator
  submitted : s.workload.submittedBytes = UInt64.ofNat m * r
  ready : s.queue.ready = List.range' m (d - m)
  fresh : ∀ j, m ≤ j → (s.queue.ioaqes j).request.size = 0

theorem Started.start {r : UInt64} {P : γ → Prop} {s : IoState γ} {l : Launch γ}
    {queue : AsyncQueue} (hgenerator : P l.generator) (hdepth : 1 ≤ l.queueDepth)
    (hcreate : genericQueueCreate config s.worker l.queueDepth l.memory = .ok queue) :
    Started r P l.queueDepth.toInt.toNat 0 (s.start l queue) := by
  have hslots : SlotInv (s.start l queue) := SlotInv.start hdepth hcreate
  obtain ⟨bufsize, rfl⟩ := genericQueueCreate_ok hcreate
  refine ⟨hslots, rfl, hgenerator, (UInt64.zero_mul (a := r)).symm, ?_, fun _ _ => rfl⟩
  show List.range l.queueDepth.toInt.toNat = List.range' 0 (l.queueDepth.toInt.toNat - 0)
  rw [Nat.sub_zero, List.range_eq_range']

/-- The next request is submitted as long as the bytes submitted so far keep within the limit. -/
theorem Started.next {r : UInt64} {P : γ → Prop} {d m : ℕ} {s : IoState γ}
    (hproduces : G.Produces r P P) (h : Started r P d m s) (hm : m < d)
    (hwithin : WithinLimit s) :
    ∃ u, step config G s (.iterate ⟨s.terminateAt, 0, 0⟩ true) = some u ∧
      u.pc = waitLoop u.queue .ioworker 0 0 ∧ u.worker.iolimit = s.worker.iolimit ∧
      u.workload.submittedBytes = UInt64.ofNat (m + 1) * r ∧
      (m + 1 < d → (∃ active, u.pc = .wait .ioworker 0 0 active false) ∧
        step config G u (.waitReturn true) = some { u with pc := .head } ∧
        Started r P d (m + 1) { u with pc := .head }) := by
  obtain ⟨data, seed, target, hfill, hsize, hdata⟩ :=
    hproduces s.generator s.worker.filesize s.worker.randomSeed h.generator
  obtain ⟨rest, hrest⟩ : ∃ rest, rest = List.range' (m + 1) (d - (m + 1)) := ⟨_, rfl⟩
  have hready : s.queue.ready = m :: rest := by
    obtain ⟨k, hk⟩ : ∃ k, d - m = k + 1 := ⟨d - m - 1, by omega⟩
    have hk' : k = d - (m + 1) := by omega
    rw [h.ready, hk, List.range'_succ, hrest, hk']
  have hlimit : s.workload.submittedBytes + (s.queue.ioaqes m).request.size ≤
      s.worker.iolimit := by
    rw [h.fresh m (Nat.le_refl m), UInt64.add_zero]
    exact hwithin
  obtain ⟨u, hu⟩ : ∃ u, s.submit config m rest data seed target ⟨s.terminateAt, 0, 0⟩ true = u :=
    ⟨_, rfl⟩
  have hstep : step config G s (.iterate ⟨s.terminateAt, 0, 0⟩ true) = some u := by
    rw [← hu]
    exact step_submit h.pc (Int.le_refl _) hready hlimit hfill fun _ => rfl
  have hslots := h.slots.of_step (a := .iterate ⟨s.terminateAt, 0, 0⟩ true) rfl hstep
  have hiolimit : u.worker.iolimit = s.worker.iolimit := by rw [← hu, submit_iolimit]
  have hsubmitted : u.workload.submittedBytes = UInt64.ofNat (m + 1) * r := by
    rw [← hu, submit_submittedBytes, h.submitted, hsize, ofNat_succ_mul]
  have hwait : u.pc = waitLoop u.queue .ioworker 0 0 := by
    rw [← hu]
    rfl
  refine ⟨u, hstep, hwait, hiolimit, hsubmitted, fun hnext => ?_⟩
  -- An entry is still free, so the wait does not block and can return at once.
  have hready' : u.queue.ready = List.range' (m + 1) (d - (m + 1)) := by
    rw [← hu, ← hrest]
    rfl
  have hfree : 0 < u.queue.free.toNat := by
    rw [← hslots.conserved.free_eq, hready', List.length_range']
    omega
  have hactive : 0 < u.queue.active.toNat := by
    rw [← hslots.conserved.active_eq, ← hu]
    exact List.length_pos_of_mem (List.mem_append_right _ List.mem_cons_self)
  have hpc : u.pc = .wait .ioworker 0 0 u.queue.active false := by
    rw [hwait, waitLoop_of_free hactive hfree]
  have hfresh : ∀ j, m + 1 ≤ j → (u.queue.ioaqes j).request.size = 0 := by
    intro j hj
    rw [← hu, submit_entry_of_ne (by omega)]
    exact h.fresh j (by omega)
  have hreturn : step config G u (.waitReturn true) = some { u with pc := .head } := by
    rw [step_waitReturn hpc, waitReturned_of_eq]
  refine ⟨⟨_, hpc⟩, hreturn, { hslots with at_pc := hfree }, rfl, ?_, hsubmitted, hready', hfresh⟩
  rw [← hu]
  exact hdata

/-- A run of a launched workload that submits `m` requests and has them all in flight. -/
theorem Started.exec {r : UInt64} {P : γ → Prop} {d : ℕ} {s : IoState γ}
    (hproduces : G.Produces r P P) (h : Started r P d 0 s) (m : ℕ) (hm : m < d)
    (hle : ∀ n ≤ m, UInt64.ofNat n * r ≤ s.worker.iolimit) :
    ∃ u, Reaches (step config G) (Submits config) s u ∧ Started r P d m u ∧
      u.worker.iolimit = s.worker.iolimit ∧ WithinLimit u := by
  induction m with
  | zero =>
    refine ⟨s, .refl _ s, h, rfl, ?_⟩
    rw [WithinLimit, h.submitted]
    exact hle 0 (Nat.le_refl 0)
  | succ m ih =>
    obtain ⟨u, hu, hstarted, hiolimit, hwithin⟩ :=
      ih (by omega) fun n hn => hle n (Nat.le_succ_of_le hn)
    obtain ⟨v, hstep, _, hv, hsubmitted, hnext⟩ := hstarted.next hproduces (by omega) hwithin
    obtain ⟨⟨active, hpc⟩, hreturn, hstarted'⟩ := hnext hm
    refine ⟨{ v with pc := .head }, hu.trans ((Reaches.single hstep Submits.iterate).trans
      (.single hreturn ⟨⟨?_, fun l hl => by cases hl⟩, fun i transfer now ha => by cases ha⟩)),
      hstarted', hv.trans hiolimit, ?_⟩
    · intro caller events received oldActive hwait
      rw [hpc] at hwait
      cases hwait
    · show v.workload.submittedBytes ≤ v.worker.iolimit
      rw [hsubmitted, hv, hiolimit]
      exact hle (m + 1) (Nat.le_refl _)

/-- A launched workload with one request size keeps the limit if and only if that has room for one
request of every entry. -/
theorem within_iolimit_iff {r : UInt64} {P : γ → Prop} {s : IoState γ} {l : Launch γ}
    {queue : AsyncQueue} (hproduces : G.Produces r P P) (hgenerator : P l.generator)
    (hdepth : 1 ≤ l.queueDepth)
    (hcreate : genericQueueCreate config s.worker l.queueDepth l.memory = .ok queue) :
    KeepsLimit config G (s.start l queue) ↔
      ∀ m ≤ l.queueDepth.toInt.toNat, UInt64.ofNat m * r ≤ l.iolimit := by
  constructor
  · intro hkept m
    -- The first requests go to fresh entries, so each of them passes the test.
    induction m using Nat.strong_induction_on with
    | _ m ih =>
      intro hm
      cases m with
      | zero => exact UInt64.le_iff_toNat_le.mpr (by simp)
      | succ m =>
        have hstarted := Started.start (r := r) hgenerator hdepth hcreate
        obtain ⟨u, hreaches, hu, hiolimit, hwithin⟩ := hstarted.exec hproduces m hm
          fun n hn => ih n (Nat.lt_succ_of_le hn) (by omega)
        obtain ⟨v, hstep, _, hvlimit, hvsubmitted, _⟩ := hu.next hproduces hm hwithin
        have hkeptv := hkept v ((hreaches.trans (.single hstep Submits.iterate)).mono
          fun _ _ h => h.1.2)
        rw [WithinLimit, hvsubmitted, hvlimit, hiolimit] at hkeptv
        exact hkeptv
  · intro hroom
    exact RoomFor.keepsLimit (Or.inl ⟨r, Set.Subset.refl _, hroom⟩) hproduces.draws hgenerator
      hcreate

end DiskBench
