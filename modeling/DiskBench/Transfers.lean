import DiskBench.Steps
import DiskBench.Workloads.Workloads

/-!
# Completions and transferred data

The Linux version of `queue_wait` ignores `ioe->res`, the Windows version the number of bytes, and
the callbacks count the size of the request. So a run accounts for the data really transferred if
and only if every completion that it survives is a transfer of the whole request.
-/

namespace DiskBench

open Transition WordMemory

variable {γ : Type} {config : Config} {G : Generator γ}

/-- The bytes counted and the watermark stay as they are. -/
structure SameAccount (s t : IoState γ) : Prop where
  read : t.workload.read.bytes = s.workload.read.bytes
  write : t.workload.write.bytes = s.workload.write.bytes
  watermark : t.worker.lastIntegrityWrittenOffset = s.worker.lastIntegrityWrittenOffset

/-- The completion of entry `i` has counted the bytes of the transfer, moved the watermark at most
over bytes that a write has transferred, and compared only bytes that a read has transferred. -/
structure Accounted (config : Config) (s t : IoState γ) (i : ℕ) (transfer : Transfer) : Prop where
  read : t.workload.read.bytes = s.workload.read.bytes +
    if (s.queue.ioaqes i).callback = .readComplete then
      transfer.bytes (s.queue.ioaqes i).request else 0
  write : t.workload.write.bytes = s.workload.write.bytes +
    if (s.queue.ioaqes i).callback = .writeComplete then
      transfer.bytes (s.queue.ioaqes i).request else 0
  watermark : t.worker.lastIntegrityWrittenOffset = s.worker.lastIntegrityWrittenOffset ∨
    (s.queue.ioaqes i).callback = .writeComplete ∧
      (s.queue.ioaqes i).request.off = s.worker.lastIntegrityWrittenOffset ∧
      t.worker.lastIntegrityWrittenOffset - s.worker.lastIntegrityWrittenOffset ≤
        transfer.bytes (s.queue.ioaqes i).request
  compared : (s.queue.ioaqes i).callback = .readComplete → ∀ n,
    checkBuffer config.writeRandom (s.queue.ioaqes i).request
      s.worker.lastIntegrityWrittenOffset = .ok n →
    n ≤ (transfer.bytes (s.queue.ioaqes i).request).toNat

/-- A step from `s` to `t` counts and compares only data really transferred. A completion has the
same class on both platforms, and it ends the process or is accounted for. A new workload starts
its counters anew. -/
def Honest (config : Config) (s t : IoState γ) : Action γ → Prop
  | .launch _ => t.worker.lastIntegrityWrittenOffset = s.worker.lastIntegrityWrittenOffset
  | .reap i transfer _ =>
    Platform.linux.notifies transfer = Platform.win32.notifies transfer ∧
      ((∃ reason, t.pc = .halted reason) ∨ Accounted config s t i transfer)
  | _ => SameAccount s t

/-- `generic_queue_notify` does not return for entry `i`: there is no callback, or `read_complete`
reaches a sector without the pattern. -/
def Rejected (config : Config) (s : IoState γ) (i : ℕ) : Prop :=
  (s.queue.ioaqes i).callback = .null ∨
    (s.queue.ioaqes i).callback = .readComplete ∧ ∃ k, k < (s.queue.ioaqes i).request.sectors ∧
      (∀ j, j ≤ k → (s.queue.ioaqes i).request.sectorOff j < s.worker.lastIntegrityWrittenOffset) ∧
      ¬CarriesPattern config.writeRandom ((s.queue.ioaqes i).request.sectorOff k)
        (block 64 (s.queue.ioaqes i).request.buf k)

/-- No completion is a failure, and one that is not rejected is a transfer of the whole request.
A read of which all sectors lie below the watermark consists of whole sectors. -/
def WholeTransfer (config : Config) (s : IoState γ) : Action γ → Prop
  | .reap i transfer _ => (∀ errno, transfer ≠ .failed errno) ∧
    (Rejected config s i ∨
      transfer.bytes (s.queue.ioaqes i).request = (s.queue.ioaqes i).request.size ∧
      ((s.queue.ioaqes i).callback = .readComplete →
        512 ∣ (s.queue.ioaqes i).request.size.toNat ∨
          ∃ k, k < (s.queue.ioaqes i).request.sectors ∧
            ¬(s.queue.ioaqes i).request.sectorOff k < s.worker.lastIntegrityWrittenOffset))
  | _ => True

instance : ∀ transfer : Transfer, Decidable (∀ errno, transfer ≠ .failed errno)
  | .failed errno => isFalse fun h => h errno rfl
  | .full | .short _ => isTrue (by simp)

instance (config : Config) (s : IoState γ) (i : ℕ) : Decidable (Rejected config s i) :=
  inferInstanceAs (Decidable (_ ∨ _ ∧ ∃ k, k < _ ∧ (∀ j, j ≤ k → _ < _) ∧ ¬CarriesPattern _ _ _))

instance (config : Config) (s : IoState γ) : ∀ a, Decidable (WholeTransfer config s a)
  | .reap i _ _ => inferInstanceAs (Decidable (_ ∧ (Rejected config s i ∨ _ = _ ∧
      (_ = Iocallback.readComplete → _ ∣ _ ∨ ∃ k, k < _ ∧ ¬_ < _))))
  | .launch _ | .iterate _ _ | .effect _ _ | .waitReturn _ | .finish _ => isTrue trivial

/-- The platforms give a completion different classes exactly when it is a failure. -/
theorem notifies_eq_iff {transfer : Transfer} :
    Platform.linux.notifies transfer = Platform.win32.notifies transfer ↔
      ∀ errno, transfer ≠ .failed errno := by
  cases transfer with
  | full => exact ⟨fun _ errno h => (by cases h), fun _ => rfl⟩
  | short bytes => exact ⟨fun _ errno h => (by cases h), fun _ => rfl⟩
  | failed errno => exact ⟨fun h => (by cases h), fun h => absurd rfl (h errno)⟩

/-- Both platforms notify a completion that is not a failure. -/
theorem notifies_of_ne_failed {platform : Platform} {transfer : Transfer}
    (h : ∀ errno, transfer ≠ .failed errno) : platform.notifies transfer = true := by
  cases platform with
  | linux => rfl
  | win32 =>
    rw [← notifies_eq_iff.mpr h]
    rfl

/-- The thread goes on after a notification. -/
theorem afterNotify_ne_halted {queue : AsyncQueue} {pc : Pc} {caller : Caller}
    {events received : ℕ} {oldActive : UInt32} {reason : Halt} (hpc : pc ≠ .halted reason) :
    afterNotify config queue pc caller events received oldActive ≠ .halted reason := by
  have hresume : caller.resume ≠ .halted reason := by
    cases caller <;> exact fun h => by cases h
  unfold afterNotify waitReturned waitLoop
  split
  · exact hpc
  · simp only [not_true_eq_false, and_false, if_false]
    split
    · exact hresume
    · split
      · exact fun h => by cases h
      · exact hresume

/-- Steps other than a launch and a completion leave the account as it is. -/
theorem sameAccount_of_step {s t : IoState γ} {a : Action γ} (hlaunch : ∀ l, a ≠ .launch l)
    (hreap : ∀ i transfer now, a ≠ .reap i transfer now)
    (hstep : step config G s a = some t) : SameAccount s t := by
  cases step_next hstep with
  | start l queue hpc hcreate => exact absurd rfl (hlaunch l)
  | startFails l reason hreason => exact absurd rfl (hlaunch l)
  | timeout clock accepted hpc htime => exact ⟨rfl, rfl, rfl⟩
  | sentinel clock accepted hpc hready => exact ⟨rfl, rfl, rfl⟩
  | stop clock accepted i rest hpc hready hlimit => exact ⟨rfl, rfl, rfl⟩
  | submitFails clock accepted reason hpc hreason => exact ⟨rfl, rfl, rfl⟩
  | submit clock accepted i rest data seed target hpc htime hready hlimit hfill hassert =>
    exact ⟨rfl, rfl, submit_watermark⟩
  | effect i k hi hk =>
    exact ⟨by rw [effect_workload], by rw [effect_workload], by rw [effect_worker]⟩
  | notify i transfer now caller events received oldActive block worker workload queue hpc hi
      hnotifies hnotify => exact absurd rfl (hreap i transfer now)
  | notifyFails i transfer now reason hi hnotify => exact absurd rfl (hreap i transfer now)
  | drop i transfer now caller events received oldActive block hpc hi hnotifies =>
    exact absurd rfl (hreap i transfer now)
  | waitReturn ok caller events received oldActive block hpc hok => exact ⟨rfl, rfl, rfl⟩
  | finish now hpc => exact ⟨rfl, rfl, rfl⟩

/-- A launch leaves the watermark as it is. -/
theorem launch_watermark {s t : IoState γ} {l : Launch γ}
    (hstep : step config G s (.launch l) = some t) :
    t.worker.lastIntegrityWrittenOffset = s.worker.lastIntegrityWrittenOffset := by
  cases step_next hstep with
  | start l queue hpc hcreate => rfl
  | startFails l reason hreason => rfl

/-- `write_complete` moves the watermark by the size of the request or not at all. -/
theorem IoWorker.advance_watermark (worker : IoWorker) (request : IoRequest) :
    (worker.advance request).lastIntegrityWrittenOffset = worker.lastIntegrityWrittenOffset ∨
      request.off = worker.lastIntegrityWrittenOffset ∧
        (worker.advance request).lastIntegrityWrittenOffset - worker.lastIntegrityWrittenOffset =
          request.size := by
  unfold IoWorker.advance
  split
  · rename_i hoff
    refine Or.inr ⟨hoff, ?_⟩
    rw [← hoff, UInt64.add_comm]
    exact UInt64.add_sub_cancel _ _
  · exact Or.inl rfl

/-- A completion that `generic_queue_notify` survives is accounted for if and only if the whole
request has been transferred and nothing past its end has been compared. -/
theorem accounted_iff {s t : IoState γ} {i : ℕ} {transfer : Transfer} {now : AprTime}
    {worker : IoWorker} {workload : IoWorkload} {queue : AsyncQueue}
    (hnotify : genericQueueNotify config s.worker s.workload s.queue i now =
      .ok (worker, workload, queue)) (hworker : t.worker = worker)
    (hworkload : t.workload = workload) :
    Accounted config s t i transfer ↔
      transfer.bytes (s.queue.ioaqes i).request = (s.queue.ioaqes i).request.size ∧
      ((s.queue.ioaqes i).callback = .readComplete →
        512 ∣ (s.queue.ioaqes i).request.size.toNat ∨
          ∃ k, k < (s.queue.ioaqes i).request.sectors ∧
            ¬(s.queue.ioaqes i).request.sectorOff k < s.worker.lastIntegrityWrittenOffset) := by
  obtain ⟨_, ⟨hcallback, ⟨n, hcheck⟩, rfl, rfl⟩ | ⟨hcallback, rfl, rfl⟩⟩ :=
    genericQueueNotify_ok hnotify
  · constructor
    · intro h
      have hbytes : (s.queue.ioaqes i).request.size =
          transfer.bytes (s.queue.ioaqes i).request := by
        have hread := h.read
        rw [hworkload, if_pos hcallback] at hread
        exact (UInt64.add_right_inj _).mp hread
      refine ⟨hbytes.symm, fun _ => ?_⟩
      rw [← checkBuffer_ok_le_iff hcheck, hbytes]
      exact h.compared hcallback n hcheck
    · rintro ⟨hbytes, hwhole⟩
      refine ⟨?_, ?_, Or.inl (by rw [hworker]), fun _ m hm => ?_⟩
      · rw [hworkload, if_pos hcallback, hbytes]
        rfl
      · rw [hworkload, if_neg (by rw [hcallback]; decide)]
        exact (UInt64.add_zero _).symm
      · rw [hbytes, checkBuffer_ok_le_iff hm]
        exact hwhole hcallback
  · constructor
    · intro h
      have hwrite := h.write
      rw [hworkload, if_pos hcallback] at hwrite
      refine ⟨((UInt64.add_right_inj _).mp hwrite).symm, fun hread => ?_⟩
      rw [hcallback] at hread
      cases hread
    · rintro ⟨hbytes, _⟩
      refine ⟨?_, ?_, ?_, fun hread => ?_⟩
      · rw [hworkload, if_neg (by rw [hcallback]; decide)]
        exact (UInt64.add_zero _).symm
      · rw [hworkload, if_pos hcallback, hbytes]
        rfl
      · rw [hworker, hbytes]
        rcases s.worker.advance_watermark (s.queue.ioaqes i).request with hsame | ⟨hoff, hsize⟩
        · exact Or.inl hsame
        · exact Or.inr ⟨hcallback, hoff, Nat.le_of_eq (congrArg UInt64.toNat hsize)⟩
      · rw [hcallback] at hread
        cases hread

/-- A completion counts and compares only data really transferred if and only if it is whole. -/
theorem honest_reap_iff {s t : IoState γ} {i : ℕ} {transfer : Transfer} {now : AprTime}
    (hstep : step config G s (.reap i transfer now) = some t) :
    Honest config s t (.reap i transfer now) ↔
      WholeTransfer config s (.reap i transfer now) := by
  refine and_congr notifies_eq_iff Iff.rfl |>.trans (and_congr_right fun hfailed => ?_)
  have hrejected := @genericQueueNotify_error_iff config s.worker s.workload s.queue i now
  cases step_next hstep with
  | notify i transfer now caller events received oldActive block worker workload queue hpc hi
      hnotifies hnotify =>
    have hnot : ¬Rejected config s i := by
      intro h
      obtain ⟨reason, herror⟩ := hrejected.mpr h
      rw [hnotify] at herror
      cases herror
    have hruns : ¬∃ reason,
        afterNotify config queue s.pc caller events received oldActive = .halted reason := by
      rintro ⟨reason, hreason⟩
      exact afterNotify_ne_halted (by rw [hpc]; exact fun h => by cases h) hreason
    rw [or_iff_right hruns, or_iff_right hnot]
    exact accounted_iff hnotify rfl rfl
  | notifyFails i transfer now reason hi hnotify =>
    exact iff_of_true (Or.inl ⟨reason, rfl⟩) (Or.inl (hrejected.mp ⟨reason, hnotify⟩))
  | drop i transfer now caller events received oldActive block hpc hi hnotifies =>
    rw [notifies_of_ne_failed hfailed] at hnotifies
    cases hnotifies

/-- A step counts and compares only data really transferred if and only if its completion, if it
is one, is whole. -/
theorem honest_iff {s t : IoState γ} {a : Action γ} (hstep : step config G s a = some t) :
    Honest config s t a ↔ WholeTransfer config s a := by
  cases a with
  | launch l => exact iff_of_true (launch_watermark hstep) trivial
  | iterate clock accepted =>
    exact iff_of_true (sameAccount_of_step (by simp) (by simp) hstep) trivial
  | effect i k => exact iff_of_true (sameAccount_of_step (by simp) (by simp) hstep) trivial
  | reap i transfer now => exact honest_reap_iff hstep
  | waitReturn ok => exact iff_of_true (sameAccount_of_step (by simp) (by simp) hstep) trivial
  | finish now => exact iff_of_true (sameAccount_of_step (by simp) (by simp) hstep) trivial

/-- **Only data really transferred is counted.** A run counts, marks as written and compares only
data really transferred, in the same way on both platforms, if and only if none of its completions
is a failure and each one that is not rejected is a transfer of the whole request. -/
theorem transfers_accounted_iff {s t : IoState γ} {as : List (Action γ)}
    (hrun : exec (step config G) s as = some t) :
    Along (step config G) (fun s a => ∀ t, step config G s a = some t → Honest config s t a) s as ↔
      Along (step config G) (WholeTransfer config) s as := by
  induction as generalizing s with
  | nil => exact Iff.rfl
  | cons a as ih =>
    obtain ⟨u, hu, hrest⟩ := exec_cons_eq_some.mp hrun
    have hhead : (∀ t, step config G s a = some t → Honest config s t a) ↔
        WholeTransfer config s a := by
      constructor
      · intro h
        exact (honest_iff hu).mp (h u hu)
      · intro h t ht
        exact (honest_iff ht).mpr h
    rw [along_cons hu, along_cons hu, hhead, ih hrest]

/-- A worker for a new file of 512 bytes. -/
def oneWriteInitial : IoState GeneratorData :=
  .initial ⟨512, 4096, 512, 512, 0, 88172645463325252, true⟩ (.sequential ⟨true, 0, 512⟩) fun _ => 0

/-- The file is written by one request, whose completion is the given one. -/
def oneWriteRun (transfer : Transfer) : List (Action GeneratorData) :=
  [.launch ⟨.sequential ⟨true, 0, 512⟩, 1, 512, 512, 10, fun _ _ => 0, true, 0⟩,
    .iterate ⟨1, 1, 1⟩ true, .reap 0 transfer 2, .waitReturn true, .iterate ⟨3, 3, 3⟩ true,
    .finish 4]

/-- On Linux a write that fails with an I/O error is counted, and the watermark moves over the
sector that has not been written. -/
theorem failed_write_counted : ∃ t,
    exec (step ⟨false, .linux, 4096, true⟩ workloads) oneWriteInitial
      (oneWriteRun (.failed 5)) = some t ∧
    t.pc = .done ∧ (t.device.completions.map fun c => c.2.bytes c.1) = [0] ∧
    t.workload.write.bytes = 512 ∧ t.worker.lastIntegrityWrittenOffset = 512 ∧
    ¬Along (step ⟨false, .linux, 4096, true⟩ workloads)
      (fun s a => ∀ t, step ⟨false, .linux, 4096, true⟩ workloads s a = some t →
        Honest ⟨false, .linux, 4096, true⟩ s t a)
      oneWriteInitial (oneWriteRun (.failed 5)) := by
  have hrun : exec (step ⟨false, .linux, 4096, true⟩ workloads) oneWriteInitial
      (oneWriteRun (.failed 5)) = some _ := rfl
  refine ⟨_, hrun, rfl, rfl, rfl, rfl, fun h => ?_⟩
  have hreap := ((along_cons rfl).mp ((along_cons rfl).mp ((along_cons rfl).mp h).2).2).1
  have hclass : Platform.linux.notifies (.failed 5) = Platform.win32.notifies (.failed 5) :=
    (hreap _ rfl).1
  cases hclass

/-- A write that transfers the whole request is accounted for. -/
theorem whole_write_accounted : ∃ t,
    exec (step ⟨false, .linux, 4096, true⟩ workloads) oneWriteInitial
      (oneWriteRun .full) = some t ∧
    Along (step ⟨false, .linux, 4096, true⟩ workloads)
      (fun s a => ∀ t, step ⟨false, .linux, 4096, true⟩ workloads s a = some t →
        Honest ⟨false, .linux, 4096, true⟩ s t a)
      oneWriteInitial (oneWriteRun .full) := by
  have hrun : exec (step ⟨false, .linux, 4096, true⟩ workloads) oneWriteInitial
      (oneWriteRun .full) = some _ := rfl
  exact ⟨_, hrun, (transfers_accounted_iff hrun).mpr (by decide)⟩

end DiskBench
