import DiskBench.ThreadReports
import DiskBench.Threads

/-!
# Files that change by themselves

A file can lose its pattern in many ways: bits decay, sectors are torn, a write goes to another
place. Whatever has happened to it, a read that fetches a sector without the pattern keeps it in its
buffer until it completes, and then `read_complete` finds it.
-/

namespace DiskBench

open Transition WordMemory

variable {γ : Type} {config : Config} {G : Generator γ}

/-- The actions of a worker on a device that alters the file. -/
inductive FaultyAction (γ : Type) where
  | keeps (a : Action γ)
  /-- The file gets another content. -/
  | alters (disk : Memory)

/-- One action of a worker on such a device. -/
def faultyStep (config : Config) (G : Generator γ) (s : IoState γ) :
    FaultyAction γ → Option (IoState γ)
  | .keeps a => step config G s a
  | .alters disk => some (s.withDisk disk)

/-- What the platform promises beside the content of the file. -/
def FaultyCooperative (config : Config) (s : IoState γ) : FaultyAction γ → Prop
  | .keeps a => Cooperative config s a
  | .alters _ => True

instance (config : Config) (s : IoState γ) : ∀ a, Decidable (FaultyCooperative config s a)
  | .keeps a => inferInstanceAs (Decidable (Cooperative config s a))
  | .alters _ => isTrue trivial

/-- Neither a new workload nor the completion of entry `i`. -/
def LeavesEntry (i : ℕ) : FaultyAction γ → Prop
  | .keeps (.launch _) => False
  | .keeps (.reap j _ _) => j ≠ i
  | _ => True

/-- The pattern for one offset is not that for another: a write that has gone to another place
leaves a sector without the pattern there. -/
theorem CarriesPattern.misplaced {writeRandom : Bool} {off off' : UInt64} {words : ℕ → UInt64}
    (h : CarriesPattern writeRandom off words) (hne : off ≠ off') :
    ¬CarriesPattern writeRandom off' words :=
  fun h' => hne (h.first.symm.trans h'.first)

/-- The read `r` of entry `i` is in flight, and its buffer has sector `k` without the pattern. -/
structure HoldsBad (config : Config) (r : IoRequest) (i k : ℕ) (s : IoState γ) : Prop where
  inflight : i ∈ s.device.inflight
  same : (s.queue.ioaqes i).request.posting = r.posting
  served : s.device.served i k = true
  bad : ¬CarriesPattern config.writeRandom (r.sectorOff k)
    (block 64 (s.queue.ioaqes i).request.buf k)

section Steps

variable {s t : IoState γ} {r : IoRequest} {i k : ℕ}

/-- A read that fetches a sector without the pattern has it in its buffer. -/
theorem HoldsBad.of_effect (hread : (s.queue.ioaqes i).request.write = false)
    (hcorrupt : ¬CarriesPattern config.writeRandom ((s.queue.ioaqes i).request.sectorOff k)
      (block 64 s.device.disk ((s.queue.ioaqes i).request.sectorAddr k)))
    (hi : i ∈ s.device.inflight) :
    HoldsBad config (s.queue.ioaqes i).request i k (s.effect i k) := by
  rw [effect_of_read _ _ _ hread]
  refine ⟨hi, ?_, ?_, fun hcarries => hcorrupt (hcarries.congr fun w hw => ?_)⟩
  · rw [AsyncQueue.setRequest_self]
    rfl
  · exact (Device.serve_eq_true_iff i k).mpr (Or.inr ⟨rfl, rfl⟩)
  · rw [AsyncQueue.setRequest_self]
    exact (block_copyBlock_self hw).symm

/-- A state with the same entry. -/
theorem HoldsBad.congr (h : HoldsBad config r i k s) (hinflight : i ∈ t.device.inflight)
    (hposting : (t.queue.ioaqes i).request.posting = (s.queue.ioaqes i).request.posting)
    (hbuf : (t.queue.ioaqes i).request.buf = (s.queue.ioaqes i).request.buf)
    (hserved : t.device.served i = s.device.served i) : HoldsBad config r i k t where
  inflight := hinflight
  same := hposting.trans h.same
  served := hserved ▸ h.served
  bad := hbuf ▸ h.bad

/-- The buffer of a read keeps its bad sector until the read completes. -/
theorem HoldsBad.of_step {a : Action γ} (hread : r.write = false) (hslots : SlotInv s)
    (hco : Cooperative config s a) (hleaves : LeavesEntry i (.keeps a))
    (h : HoldsBad config r i k s) (hstep : step config G s a = some t) :
    HoldsBad config r i k t := by
  have hready : i ∉ s.queue.ready := fun hi =>
    (List.nodup_append.mp hslots.conserved.nodup).2.2 i hi i h.inflight rfl
  cases step_next hstep with
  | start l queue hpc hcreate => exact hleaves.elim
  | submit clock accepted j rest data seed target hpc htime hready' hlimit hfill hassert =>
    have hne : i ≠ j := fun heq => hready (by rw [hready', heq]; exact List.mem_cons_self)
    obtain rfl : accepted = true := hco
    refine h.congr (List.mem_append_left _ h.inflight) ?_ ?_ (Function.update_of_ne hne ..)
    · rw [submit_entry_of_ne hne]
    · rw [submit_entry_of_ne hne]
  | effect j k' hj hk' =>
    simp only [step, Option.ite_none_right_eq_some] at hstep
    obtain ⟨⟨_, _, hnot⟩, _⟩ := hstep
    by_cases hij : i = j
    · subst hij
      have hkk : k ≠ k' := fun heq => hnot (heq ▸ h.served)
      have hread' : (s.queue.ioaqes i).request.write = false :=
        (congrArg Posting.write h.same).trans hread
      rw [effect_of_read _ _ _ hread']
      refine ⟨h.inflight, ?_, ?_, fun hcarries => h.bad (hcarries.congr fun w hw => ?_)⟩
      · rw [AsyncQueue.setRequest_self]
        exact h.same
      · exact (Device.serve_eq_true_iff i k').mpr (Or.inl h.served)
      · rw [AsyncQueue.setRequest_self]
        exact (block_copyBlock_of_ne hkk hw).symm
    · have hentry : (s.effect j k').queue.ioaqes i = s.queue.ioaqes i := by
        unfold IoState.effect
        dsimp only
        split
        · rfl
        · exact AsyncQueue.setRequest_of_ne _ _ _ hij
      refine h.congr ?_ (by rw [hentry]) (by rw [hentry]) ?_
      · rw [effect_inflight]
        exact h.inflight
      · rw [effect_served]
        exact Function.update_of_ne hij ..
  | notify j transfer now caller events received oldActive block worker workload queue hpc hj
      hnotifies hnotify =>
    have hne : i ≠ j := Ne.symm hleaves
    obtain ⟨hqueue, _⟩ := genericQueueNotify_ok hnotify
    have hentry : queue.ioaqes i = s.queue.ioaqes i := by
      rw [hqueue, AsyncQueue.release_ioaqes, AsyncQueue.setRequest_of_ne _ _ _ hne]
    refine h.congr ((List.mem_erase_of_ne hne).mpr h.inflight) ?_ ?_ rfl
    · exact congrArg (fun entry : AsyncQueueEntry => entry.request.posting) hentry
    · exact congrArg (fun entry : AsyncQueueEntry => entry.request.buf) hentry
  | drop j transfer now caller events received oldActive block hpc hj hnotifies =>
    exact (hco.not_dropped hnotifies).elim
  | _ => exact h.congr h.inflight rfl rfl rfl

/-- A file that changes by itself does not change the buffers. -/
theorem HoldsBad.of_faultyStep {a : FaultyAction γ} (hread : r.write = false) (hslots : SlotInv s)
    (hco : FaultyCooperative config s a) (hleaves : LeavesEntry i a) (h : HoldsBad config r i k s)
    (hstep : faultyStep config G s a = some t) : HoldsBad config r i k t := by
  cases a with
  | keeps a => exact h.of_step hread hslots hco hleaves hstep
  | alters disk =>
    cases hstep
    exact h.congr h.inflight rfl rfl rfl

/-- The queue of a worker does not depend on what happens to the file. -/
theorem faulty_inv {a : FaultyAction γ} (h : SlotInv s ∧ CallbacksAgree s)
    (hco : FaultyCooperative config s a) (hstep : faultyStep config G s a = some t) :
    SlotInv t ∧ CallbacksAgree t := by
  cases a with
  | keeps a => exact ⟨h.1.of_step hco hstep, h.2.of_step hstep⟩
  | alters disk =>
    cases hstep
    exact ⟨{ h.1 with }, h.2⟩

/-- A read that completes with a bad sector below the watermark ends the process. -/
theorem HoldsBad.alarm {transfer : Transfer} {now : AprTime} (h : HoldsBad config r i k s)
    (hread : r.write = false) (hagrees : CallbacksAgree s) (hk : k < r.sectors)
    (hbelow : ∀ j ≤ k, r.sectorOff j < s.worker.lastIntegrityWrittenOffset)
    (hnotifies : config.platform.notifies transfer = true)
    (hstep : step config G s (.reap i transfer now) = some t) :
    ∃ output, t.pc = .halted (.integrityError output) := by
  have hoffset : (s.queue.ioaqes i).request.offset = r.offset := congrArg Posting.offset h.same
  have hsize : (s.queue.ioaqes i).request.size = r.size := congrArg Posting.size h.same
  have hwrite : (s.queue.ioaqes i).request.write = false :=
    (congrArg Posting.write h.same).trans hread
  have hoff : ∀ j, (s.queue.ioaqes i).request.sectorOff j = r.sectorOff j := fun j => by
    rw [IoRequest.sectorOff, IoRequest.off, hoffset, IoRequest.sectorOff, IoRequest.off]
  have hcallback : (s.queue.ioaqes i).callback = .readComplete := by
    rw [hagrees i h.inflight, hwrite]
    exact if_neg Bool.false_ne_true
  obtain ⟨reason, hreason⟩ := (@genericQueueNotify_error_iff config s.worker s.workload s.queue i
    now).mpr (Or.inr ⟨hcallback, k, by rwa [IoRequest.sectors, hsize],
      fun j hj => hoff j ▸ hbelow j hj, hoff k ▸ h.bad⟩)
  obtain ⟨hnull, _⟩ | ⟨_, output, rfl, _⟩ := genericQueueNotify_error hreason
  · rw [hcallback] at hnull
    cases hnull
  · refine ⟨output, ?_⟩
    cases step_next hstep with
    | notify i transfer now caller events received oldActive block worker workload queue hpc hi
        hnotifies hnotify =>
      rw [hnotify] at hreason
      cases hreason
    | notifyFails i transfer now reason hi hnotify =>
      rw [hnotify, Except.error.injEq] at hreason
      rw [hreason]
      rfl
    | drop i transfer now caller events received oldActive block hpc hi hnot =>
      rw [hnotifies] at hnot
      cases hnot

end Steps

/-- **Corruption is noticed.** The file of a worker may change at any time in any way. When a read
fetches a sector that does not carry the pattern for its offset, then the process ends with an alarm
at the completion of that read, if by then the read is below the watermark up to that sector:
whatever else takes effect, completes, or happens to the file in between. The platform is
cooperative: a read that Windows reports as failed would be dropped without a check. -/
theorem corruption_noticed {worker : IoWorker} {generator : γ} {disk : Memory}
    {bs as : List (FaultyAction γ)} {s u v : IoState γ} {i k : ℕ} {transfer : Transfer}
    {now : AprTime}
    (hreach : exec (faultyStep config G) (IoState.initial worker generator disk) bs = some s)
    (hread : (s.queue.ioaqes i).request.write = false)
    (hcorrupt : ¬CarriesPattern config.writeRandom ((s.queue.ioaqes i).request.sectorOff k)
      (block 64 s.device.disk ((s.queue.ioaqes i).request.sectorAddr k)))
    (hrun : exec (faultyStep config G) s (.keeps (.effect i k) :: as) = some u)
    (hleaves : ∀ a ∈ as, LeavesEntry i a)
    (hbelow : ∀ j ≤ k,
      (s.queue.ioaqes i).request.sectorOff j < u.worker.lastIntegrityWrittenOffset)
    (hreap : faultyStep config G u (.keeps (.reap i transfer now)) = some v)
    (hco : Along (faultyStep config G) (FaultyCooperative config)
      (IoState.initial worker generator disk)
      (bs ++ .keeps (.effect i k) :: (as ++ [.keeps (.reap i transfer now)]))) :
    ∃ output, v.pc = .halted (.integrityError output) := by
  obtain ⟨hbefore, hrest⟩ := (along_append hreach).mp hco
  have hs : SlotInv s ∧ CallbacksAgree s := exec_invariant (fun _ _ _ => faulty_inv) hreach hbefore
    ⟨SlotInv.initial, fun _ hi => absurd hi List.not_mem_nil⟩
  obtain ⟨w, hw, hlater⟩ := exec_cons_eq_some.mp hrun
  have heffect := hw
  simp only [faultyStep, step, Option.ite_none_right_eq_some, Option.some.injEq] at heffect
  obtain ⟨⟨hi, hk, _⟩, rfl⟩ := heffect
  have hw' := faulty_inv hs hrest.1 hw
  obtain ⟨hmiddle, hlast⟩ := (along_append hlater).mp (hrest.2 _ hw)
  have hu := exec_invariant (I := fun s => (SlotInv s ∧ CallbacksAgree s) ∧
      HoldsBad config _ i k s)
    (fun _ a _ hs hP hstep => ⟨faulty_inv hs.1 hP.1 hstep,
      hs.2.of_faultyStep hread hs.1.1 hP.1 hP.2 hstep⟩) hlater
    (along_and.mpr ⟨hmiddle, along_of_forall fun a ha _ => hleaves a ha⟩)
    ⟨hw', HoldsBad.of_effect hread hcorrupt hi⟩
  have hstep : step config G u (.reap i transfer now) = some v := hreap
  exact hu.2.alarm hread hu.1.2 hk hbelow hlast.1 hstep

/-- The file of one sector is written, a write of another program goes there, and it is read. -/
def misplacedWrite : List (FaultyAction GeneratorData) :=
  [.keeps (.launch ⟨.sequential ⟨true, 0, 512⟩, 1, 512, 512, 10, fun _ _ => 0, true, 0⟩),
    .keeps (.iterate ⟨1, 1, 1⟩ true), .keeps (.effect 0 0), .keeps (.reap 0 .full 2),
    .keeps (.waitReturn true), .keeps (.iterate ⟨3, 3, 3⟩ true), .keeps (.finish 4),
    .alters fun a => if a = 0 then 512 else nonrandomConstant,
    .keeps (.launch ⟨.sequential ⟨false, 0, 512⟩, 1, 512, 512, 10, fun _ _ => 0, true, 5⟩),
    .keeps (.iterate ⟨6, 6, 6⟩ true)]

/-- The read notices that the sector belongs to another place. -/
theorem corruption_noticed_misplaced : ∃ v, exec (faultyStep ⟨false, .linux, 4096, true⟩ workloads)
    (IoState.initial ⟨0, 8192, 0, 0, 0, 88172645463325252, true⟩ (.sequential ⟨true, 0, 512⟩)
      fun _ => 0) (misplacedWrite ++ [.keeps (.effect 0 0), .keeps (.reap 0 .full 7)]) = some v ∧
    ∃ output, v.pc = .halted (.integrityError output) := by
  have hreach : exec (faultyStep ⟨false, .linux, 4096, true⟩ workloads)
    (IoState.initial ⟨0, 8192, 0, 0, 0, 88172645463325252, true⟩ (.sequential ⟨true, 0, 512⟩)
      fun _ => 0) misplacedWrite = some _ := rfl
  have hcarries : CarriesPattern false 512
      (block 64 (fun a => if a = 0 then 512 else nonrandomConstant) 0) := by decide
  have hother : (512 : UInt64) ≠ 0 := by decide
  refine ⟨_, rfl, corruption_noticed (i := 0) (k := 0) hreach rfl (hcarries.misplaced hother) rfl
    (fun a ha => absurd ha List.not_mem_nil) ?_ rfl ?_⟩
  · decide
  · decide

end DiskBench
