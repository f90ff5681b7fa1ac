import DiskBench.Foundations.Acknowledgement
import DiskBench.Slots
import DiskBench.Workloads.Workloads

/-!
# Sequential workloads

A sequential workload goes in one direction and numbers its requests: request `k` covers the bytes
from `k * r` on. Until it comes to the end of the file it is a window of cumulatively acknowledged
requests, and the watermark of a write workload is the mark of that window.
-/

namespace DiskBench

open Transition Coverage Acknowledgement

variable {γ : Type} {config : Config}

/-- The start and the length of a request in the file. -/
def IoRequest.range (r : IoRequest) : ℕ × ℕ := (r.off.toNat, r.size.toNat)

/-- The parts of the file that completed requests of a direction have covered. -/
def Device.transferred (device : Device) (write : Bool) : List (ℕ × ℕ) :=
  (device.completions.filter fun c => c.1.write == write && c.2 = .full).map fun c => c.1.range

/-- A request that has been transferred in full covers its part of the file. -/
theorem Device.transferred_complete {device : Device} {i : ℕ} {request : IoRequest} {write : Bool}
    (hwrite : request.write = write) :
    (device.complete i request .full).transferred write =
      device.transferred write ++ [request.range] := by
  simp [Device.transferred, Device.complete, List.filter_append, hwrite]

/-- A workload on a cooperative platform whose requests are all transferred in full. -/
def SuccessfulWorkload (config : Config) (s : IoState γ) (a : Action γ) : Prop :=
  DuringWorkload config s a ∧ ∀ i transfer now, a = .reap i transfer now → transfer = .full

instance : ∀ a : Action γ, Decidable (∀ i transfer now, a = .reap i transfer now → transfer = .full)
  | .reap _ transfer _ => decidable_of_iff (transfer = .full)
      ⟨fun h _ _ _ ha => by cases ha; exact h, fun h => h _ _ _ rfl⟩
  | .launch _ | .iterate _ _ | .effect _ _ | .waitReturn _ | .finish _ => isTrue (by simp)

instance (config : Config) (s : IoState γ) (a : Action γ) :
    Decidable (SuccessfulWorkload config s a) :=
  inferInstanceAs (Decidable (_ ∧ _))

/-- The oldest request in flight is the first one to complete. -/
def CompletesInOrder (s : IoState γ) : Action γ → Prop
  | .reap i _ _ => s.device.inflight.head? = some i
  | _ => True

instance (s : IoState γ) : ∀ a, Decidable (CompletesInOrder s a)
  | .reap _ _ _ => inferInstanceAs (Decidable (_ = _))
  | .launch _ | .iterate _ _ | .effect _ _ | .waitReturn _ | .finish _ => isTrue trivial

/-- The requests of `r` bytes submitted so far, one after the other, fit into the file. -/
def Unwrapped (r : UInt64) (s : IoState γ) : Prop :=
  s.device.submissions.length * r.toNat ≤ s.worker.filesize.toNat

theorem toNat_ofNat_of_le {x : UInt64} {n : ℕ} (h : n ≤ x.toNat) : (UInt64.ofNat n).toNat = n :=
  UInt64.toNat_ofNat_of_lt' (Nat.lt_of_le_of_lt h x.toNat_lt)

/-- The next request of a sequential workload that has not come to the end of the file. -/
theorem sequential_next {r filesize seed : UInt64} {write : Bool} {n : ℕ}
    (h : (n + 1) * r.toNat ≤ filesize.toNat) :
    workloads.fillRequest (.sequential ⟨write, (UInt64.ofNat (n * r.toNat)).toInt64, r⟩) filesize
        seed =
      some (.sequential ⟨write, (UInt64.ofNat ((n + 1) * r.toNat)).toInt64, r⟩, seed,
        ⟨(UInt64.ofNat (n * r.toNat)).toInt64, r, write⟩) := by
  have hnext : UInt64.ofNat (n * r.toNat) + r = UInt64.ofNat ((n + 1) * r.toNat) := by
    rw [Nat.succ_mul, UInt64.ofNat_add, UInt64.ofNat_toNat]
  have hle : (UInt64.ofNat (n * r.toNat)).toInt64.toUInt64 + r ≤ filesize := by
    rw [UInt64.toUInt64_toInt64, hnext, UInt64.le_iff_toNat_le, toNat_ofNat_of_le h]
    exact h
  rw [workloads_sequential,
    @sequentialFillRequest_of_le ⟨write, (UInt64.ofNat (n * r.toNat)).toInt64, r⟩ filesize hle]
  simp only [UInt64.toUInt64_toInt64, hnext]

/-- A workload that is still unwrapped has been unwrapped before. -/
theorem Unwrapped.of_step {G : Generator γ} {r : UInt64} {s t : IoState γ} {a : Action γ}
    (hduring : DuringWorkload config s a) (hstep : step config G s a = some t)
    (h : Unwrapped r t) : Unwrapped r s := by
  obtain ⟨hworker, hlog⟩ := step_keeps hduring.2 hstep
  rw [Unwrapped, hworker.filesize] at h
  exact Nat.le_trans (Nat.mul_le_mul_right _ hlog.length_le) h

/-- A sequential workload in one direction, that has counted requests of this direction only. A
read workload runs before anything has been written. -/
structure OneWay (write : Bool) (s : IoState GeneratorData) : Prop where
  generator : ∃ data, s.generator = .sequential data ∧ data.write = write
  callback : ∀ i ∈ s.device.inflight, (s.queue.ioaqes i).callback =
    if write then .writeComplete else .readComplete
  counted : write = true → s.workload.read.bytes = 0
  unwritten : write = false → s.worker.lastIntegrityWrittenOffset = 0

/-- A launched workload has nothing in flight and nothing counted. -/
theorem OneWay.start {write : Bool} {s : IoState GeneratorData} {l : Launch GeneratorData}
    {queue : AsyncQueue} {data : SequentialData} (hgenerator : l.generator = .sequential data)
    (hwrite : data.write = write)
    (hunwritten : write = false → s.worker.lastIntegrityWrittenOffset = 0) :
    OneWay write (s.start l queue) :=
  ⟨⟨data, hgenerator, hwrite⟩, fun _ hi => absurd hi List.not_mem_nil, fun _ => rfl, hunwritten⟩

/-- The completions of the workload never end the process. -/
theorem OneWay.notify_ok {write : Bool} {s : IoState GeneratorData} {i : ℕ} (h : OneWay write s)
    (hi : i ∈ s.device.inflight) (now : AprTime) :
    ∃ worker workload queue, genericQueueNotify config s.worker s.workload s.queue i now =
      .ok (worker, workload, queue) := by
  have hcallback := h.callback i hi
  cases write with
  | true => exact ⟨_, _, _, genericQueueNotify_of_write hcallback⟩
  | false =>
    have hcheck : ∃ n, checkBuffer config.writeRandom (s.queue.ioaqes i).request
        s.worker.lastIntegrityWrittenOffset = .ok n := by
      apply checkBuffer_ok_iff.mpr
      intro k _ hreach
      -- No sector is below a watermark of 0.
      have hbelow := UInt64.lt_iff_toNat_lt.mp (hreach k (Nat.le_refl k))
      rw [h.unwritten rfl] at hbelow
      exact absurd hbelow (Nat.not_lt_zero _)
    exact ⟨_, _, _, genericQueueNotify_of_read hcallback
      (readComplete_ok_iff.mpr ⟨hcheck, rfl⟩)⟩

/-- Every step of a workload keeps its direction. -/
theorem OneWay.of_step {write : Bool} {s t : IoState GeneratorData} {a : Action GeneratorData}
    (h : OneWay write s) (hduring : DuringWorkload config s a)
    (hstep : step config workloads s a = some t) : OneWay write t := by
  have hcallback : ∀ j ∈ t.device.inflight, (t.queue.ioaqes j).callback =
      if write then .writeComplete else .readComplete := by
    intro j hj
    obtain ⟨hold, heq⟩ | ⟨data, seed, target, hfill, heq⟩ := step_callback hduring.2 hstep hj
    · rw [heq]
      exact h.callback j hold
    · obtain ⟨d, hgenerator, hwrite⟩ := h.generator
      rw [hgenerator, workloads_sequential, Option.some.injEq, Prod.mk.injEq,
        Prod.mk.injEq] at hfill
      obtain ⟨_, _, rfl⟩ := hfill
      rw [heq, (sequentialFillRequest_fixed d s.worker.filesize).2.2.2, hwrite]
  cases step_next hstep with
  | start l queue hpc hcreate => exact absurd rfl (hduring.2 l)
  | startFails l reason hreason => exact absurd rfl (hduring.2 l)
  | timeout clock accepted hpc htime => exact { h with }
  | sentinel clock accepted hpc hready => exact { h with }
  | stop clock accepted i rest hpc hready hlimit => exact { h with }
  | submitFails clock accepted reason hpc hreason => exact { h with }
  | submit clock accepted i rest data seed target hpc htime hready hlimit hfill hassert =>
    obtain ⟨d, hgenerator, hwrite⟩ := h.generator
    rw [hgenerator, workloads_sequential, Option.some.injEq, Prod.mk.injEq, Prod.mk.injEq] at hfill
    obtain ⟨rfl, rfl, rfl⟩ := hfill
    obtain ⟨hdata, _, _, _⟩ := sequentialFillRequest_fixed d s.worker.filesize
    refine ⟨⟨_, rfl, hdata.trans hwrite⟩, hcallback, h.counted, fun hread => ?_⟩
    rw [submit_watermark]
    exact h.unwritten hread
  | effect i k hi hk =>
    refine ⟨?_, hcallback, ?_, ?_⟩
    · rw [effect_generator]
      exact h.generator
    · rw [effect_workload]
      exact h.counted
    · rw [effect_worker]
      exact h.unwritten
  | notify i transfer now caller events received oldActive block worker workload queue hpc hi
      hnotifies hnotify =>
    have hold := h.callback i hi
    obtain ⟨_, hcase⟩ := genericQueueNotify_ok hnotify
    cases write with
    | true =>
      obtain ⟨hread, _⟩ | ⟨_, rfl, rfl⟩ := hcase
      · exact absurd (hold.symm.trans hread) (by decide)
      · exact ⟨h.generator, hcallback, h.counted, fun hread => absurd hread (by decide)⟩
    | false =>
      obtain ⟨_, _, rfl, _⟩ | ⟨hwrite, _⟩ := hcase
      · exact ⟨h.generator, hcallback, fun hwrite => absurd hwrite (by decide), h.unwritten⟩
      · exact absurd (hold.symm.trans hwrite) (by decide)
  | notifyFails i transfer now reason hi hnotify => exact { h with }
  | drop i transfer now caller events received oldActive block hpc hi hnotifies =>
    exact { h with callback := hcallback }
  | waitReturn ok caller events received oldActive block hpc hok => exact { h with }
  | finish now hpc => exact { h with }

/-- What the end of `write_complete` does to the watermark, in request numbers. -/
theorem advance_mark {worker : IoWorker} {request : IoRequest} {r : UInt64} {k m : ℕ}
    (hrange : request.range = (k * r.toNat, r.toNat))
    (hmark : worker.lastIntegrityWrittenOffset.toNat = m * r.toNat)
    (hbound : (k + 1) * r.toNat < 2 ^ 64) :
    (worker.advance request).lastIntegrityWrittenOffset.toNat =
      (if k = m then k + 1 else m) * r.toNat := by
  obtain ⟨hoff, hsize⟩ : request.off.toNat = k * r.toNat ∧ request.size.toNat = r.toNat :=
    Prod.mk.injEq .. ▸ hrange
  have hsum : k * r.toNat + r.toNat = (k + 1) * r.toNat := (Nat.succ_mul _ _).symm
  unfold IoWorker.advance
  by_cases heq : request.off = worker.lastIntegrityWrittenOffset
  · rw [if_pos heq]
    show (request.off + request.size).toNat = _
    rw [UInt64.toNat_add, hoff, hsize, hsum, Nat.mod_eq_of_lt hbound]
    by_cases hkm : k = m
    · rw [if_pos hkm]
    -- Different numbers have one offset only when requests are empty.
    · have hzero : r.toNat = 0 := by
        have hsame : k * r.toNat = m * r.toNat := by rw [← hoff, ← hmark, heq]
        by_contra hpos
        exact hkm (Nat.eq_of_mul_eq_mul_right (Nat.pos_of_ne_zero hpos) hsame)
      rw [hzero, Nat.mul_zero, Nat.mul_zero]
  · rw [if_neg heq]
    have hkm : k ≠ m := by
      rintro rfl
      exact heq (UInt64.toNat_inj.mp (hoff.trans hmark.symm))
    rw [if_neg hkm]
    exact hmark

/-- Removing an element commutes with a function that tells the elements apart. -/
theorem map_erase_of_nodup {f : ℕ → ℕ} {l : List ℕ} {i : ℕ} (hnodup : (l.map f).Nodup)
    (hi : i ∈ l) : (l.erase i).map f = (l.map f).erase (f i) := by
  induction l with
  | nil => rfl
  | cons a l ih =>
    by_cases ha : a = i
    · rw [ha, List.erase_cons_head, List.map_cons, List.erase_cons_head]
    · have hmem : i ∈ l := by
        rcases List.mem_cons.mp hi with heq | hmem
        · exact absurd heq.symm ha
        · exact hmem
      rw [List.map_cons, List.nodup_cons] at hnodup
      have hne : f a ≠ f i := fun heq => hnodup.1 (heq ▸ List.mem_map_of_mem hmem)
      rw [List.erase_cons_tail (by simpa using ha), List.map_cons, List.map_cons,
        List.erase_cons_tail (by simpa using hne), ih hnodup.2 hmem]

/-- The workload of requests of `r` bytes is at the place that the window says. The request of
entry `i` has the number `num i`. -/
structure Tracks (write : Bool) (r : UInt64) (num : ℕ → ℕ) (s : IoState GeneratorData)
    (w : Window) : Prop where
  slots : SlotInv s
  oneWay : OneWay write s
  valid : w.Valid
  generator : s.generator = .sequential ⟨write, (UInt64.ofNat (w.issued * r.toNat)).toInt64, r⟩
  issued : s.device.submissions.length = w.issued
  flying : s.device.inflight.map num = w.flying
  request : ∀ i ∈ s.device.inflight, (s.queue.ioaqes i).request.write = write ∧
    (s.queue.ioaqes i).request.range = (num i * r.toNat, r.toNat)
  transferred : s.device.transferred write = ranges r.toNat w.acked
  mark : write = true → s.worker.lastIntegrityWrittenOffset.toNat = w.mark * r.toNat

/-- A launched workload starts with the empty window. -/
theorem Tracks.start {write : Bool} {r : UInt64} {s : IoState GeneratorData}
    {l : Launch GeneratorData} {queue : AsyncQueue} (hdepth : 1 ≤ l.queueDepth)
    (hcreate : genericQueueCreate config s.worker l.queueDepth l.memory = .ok queue)
    (hgenerator : l.generator = .sequential (sequentialReset (sequentialFactory write) r))
    (hunwritten : s.worker.lastIntegrityWrittenOffset = 0) :
    Tracks write r id (s.start l queue) Window.empty where
  slots := SlotInv.start hdepth hcreate
  oneWay := OneWay.start hgenerator rfl fun _ => hunwritten
  valid := Window.Valid.empty
  generator := by
    show l.generator = _
    rw [hgenerator]
    simp [sequentialReset, sequentialFactory, Window.empty]
  issued := rfl
  flying := rfl
  request i hi := absurd hi List.not_mem_nil
  transferred := rfl
  mark _ := by
    show s.worker.lastIntegrityWrittenOffset.toNat = 0 * r.toNat
    rw [hunwritten, Nat.zero_mul]
    rfl

/-- The requests in flight have different numbers. -/
theorem Tracks.nodup {write : Bool} {r : UInt64} {num : ℕ → ℕ} {s : IoState GeneratorData}
    {w : Window} (h : Tracks write r num s w) : (s.device.inflight.map num).Nodup := by
  rw [h.flying]
  exact (List.nodup_append.mp (h.valid.perm.nodup_iff.mpr List.nodup_range)).2.1

/-- The oldest request in flight has the oldest number. -/
theorem Tracks.inOrder_iff {write : Bool} {r : UInt64} {num : ℕ → ℕ} {s : IoState GeneratorData}
    {w : Window} {i : ℕ} (h : Tracks write r num s w) (hi : i ∈ s.device.inflight) :
    s.device.inflight.head? = some i ↔ w.flying.head? = some (num i) := by
  have hnodup := h.nodup
  rw [← h.flying, List.head?_map, Option.map_eq_some_iff]
  constructor
  · intro hhead
    exact ⟨i, hhead, rfl⟩
  · rintro ⟨j, hhead, heq⟩
    have hj : j ∈ s.device.inflight := List.mem_of_mem_head? hhead
    exact List.inj_on_of_nodup_map hnodup hj hi heq ▸ hhead

/-- A request that is submitted before the end of the file gets the next number. -/
theorem Tracks.submit {write : Bool} {r : UInt64} {num : ℕ → ℕ} {i : ℕ} {rest : List ℕ}
    {s t : IoState GeneratorData} {w : Window} {data : GeneratorData} {seed : UInt64}
    {target : Target} {clock : Clock} (h : Tracks write r num s w)
    (hready : s.queue.ready = i :: rest)
    (hfill : workloads.fillRequest s.generator s.worker.filesize s.worker.randomSeed =
      some (data, seed, target))
    (hunwrapped : (s.device.submissions.length + 1) * r.toNat ≤ s.worker.filesize.toNat)
    (ht : s.submit config i rest data seed target clock true = t) (hslots : SlotInv t)
    (honeWay : OneWay write t) :
    ∃ w', w.step .issue = some w' ∧ Tracks write r (Function.update num i w.issued) t w' := by
  rw [h.issued] at hunwrapped
  rw [h.generator, sequential_next hunwrapped, Option.some.injEq, Prod.mk.injEq,
    Prod.mk.injEq] at hfill
  obtain ⟨rfl, rfl, rfl⟩ := hfill
  have hinflight : t.device.inflight = s.device.inflight ++ [i] := by
    rw [← ht]
    rfl
  have hnot : ∀ j ∈ s.device.inflight, j ≠ i := by
    have hnodup := h.slots.conserved.nodup
    rw [hready, List.cons_append, List.nodup_cons] at hnodup
    rintro j hj rfl
    exact hnodup.1 (List.mem_append_right _ hj)
  have hnum : ∀ j ∈ s.device.inflight, Function.update num i w.issued j = num j :=
    fun j hj => Function.update_of_ne (hnot j hj) ..
  have hself : (t.queue.ioaqes i).request.write = write ∧
      (t.queue.ioaqes i).request.range = (w.issued * r.toNat, r.toNat) := by
    have hlt := s.worker.filesize.toNat_lt
    have hle : w.issued * r.toNat ≤ (w.issued + 1) * r.toNat :=
      Nat.mul_le_mul_right _ (Nat.le_succ _)
    have hbound : w.issued * r.toNat < 2 ^ 64 := by omega
    rw [← ht]
    simpa [IoState.submit, IoRequest.range, IoRequest.off] using hbound
  have hissue : w.step .issue = some _ := rfl
  refine ⟨_, hissue, hslots, honeWay, h.valid.step hissue, ?_, ?_, ?_, fun j hj => ?_, ?_,
    fun hwrite => ?_⟩
  · rw [← ht]
    rfl
  · rw [← ht]
    show (s.device.submissions ++ [_]).length = w.issued + 1
    rw [List.length_append, h.issued, List.length_singleton]
  · rw [hinflight, List.map_append, List.map_congr_left hnum, h.flying, List.map_singleton,
      Function.update_self]
  · rw [hinflight, List.mem_append, List.mem_singleton] at hj
    rcases hj with hj | rfl
    · rw [← ht, submit_entry_of_ne (hnot j hj), hnum j hj]
      exact h.request j hj
    · rw [Function.update_self]
      exact hself
  · rw [← ht]
    exact h.transferred
  · rw [← ht, submit_watermark]
    exact h.mark hwrite

/-- A completed request is acknowledged under its number. -/
theorem Tracks.notify {write : Bool} {r : UInt64} {num : ℕ → ℕ} {i : ℕ} {s : IoState GeneratorData}
    {w : Window} {now : AprTime} {pc : Pc} {worker : IoWorker} {workload : IoWorkload}
    {queue : AsyncQueue} {t : IoState GeneratorData} (h : Tracks write r num s w)
    (hi : i ∈ s.device.inflight)
    (hnotify : genericQueueNotify config s.worker s.workload s.queue i now =
      .ok (worker, workload, queue)) (hunwrapped : Unwrapped r s)
    (ht : { s with
      worker := worker
      workload := workload
      queue := queue
      pc := pc
      device := s.device.complete i (s.queue.ioaqes i).request .full } = t) (hslots : SlotInv t)
    (honeWay : OneWay write t) :
    ∃ w', w.step (.ack (num i)) = some w' ∧ Tracks write r num t w' := by
  obtain ⟨hwrite, hrange⟩ := h.request i hi
  have hk : num i ∈ w.flying := h.flying ▸ List.mem_map_of_mem hi
  have hissued : num i < w.issued := by
    have hmem := List.mem_append_right w.acked hk
    rwa [h.valid.perm.mem_iff, List.mem_range] at hmem
  have hbound : (num i + 1) * r.toNat < 2 ^ 64 := by
    have hlt := s.worker.filesize.toNat_lt
    have hle : (num i + 1) * r.toNat ≤ w.issued * r.toNat := Nat.mul_le_mul_right _ hissued
    rw [Unwrapped, h.issued] at hunwrapped
    omega
  have hstep : w.step (.ack (num i)) = some { w with
      flying := w.flying.erase (num i)
      acked := w.acked ++ [num i]
      mark := if num i = w.mark then num i + 1 else w.mark } := if_pos hk
  obtain ⟨rfl, hcase⟩ := genericQueueNotify_ok hnotify
  subst ht
  refine ⟨_, hstep, hslots, honeWay, h.valid.step hstep, h.generator, h.issued, ?_,
    fun j hj => ?_, ?_, fun hmark => ?_⟩
  · show (s.device.inflight.erase i).map num = w.flying.erase (num i)
    rw [map_erase_of_nodup h.nodup hi, h.flying]
  · obtain ⟨now', hentry⟩ := notified_entry s.queue i now j
    dsimp only
    rw [hentry]
    exact h.request j (List.mem_of_mem_erase hj)
  · dsimp only
    rw [Device.transferred_complete hwrite, h.transferred, ranges_append, hrange]
    rfl
  · subst hmark
    have hcallback := h.oneWay.callback i hi
    obtain ⟨hread, _⟩ | ⟨_, rfl, _⟩ := hcase
    · exact absurd (hcallback.symm.trans hread) (by decide)
    · exact advance_mark hrange (h.mark rfl) hbound

/-- Every step of the workload is an operation on the window, or none. -/
theorem Tracks.of_step {write : Bool} {r : UInt64} {num : ℕ → ℕ} {s t : IoState GeneratorData}
    {w : Window} {a : Action GeneratorData} (h : Tracks write r num s w)
    (hsuccess : SuccessfulWorkload config s a) (hunwrapped : Unwrapped r t)
    (hstep : step config workloads s a = some t) :
    ∃ ops w', exec Window.step w ops = some w' ∧ (∃ num', Tracks write r num' t w') ∧
      (CompletesInOrder s a ↔ Along Window.step InOrder w ops) := by
  have hslots := h.slots.of_step hsuccess.1.1 hstep
  have honeWay := h.oneWay.of_step hsuccess.1 hstep
  cases step_next hstep with
  | start l queue hpc hcreate => exact absurd rfl (hsuccess.1.2 l)
  | startFails l reason hreason => exact absurd rfl (hsuccess.1.2 l)
  | timeout clock accepted hpc htime =>
    exact ⟨[], w, rfl, ⟨num, { h with slots := hslots, oneWay := honeWay }⟩, Iff.rfl⟩
  | sentinel clock accepted hpc hready =>
    exact ⟨[], w, rfl, ⟨num, { h with slots := hslots, oneWay := honeWay }⟩, Iff.rfl⟩
  | stop clock accepted i rest hpc hready hlimit =>
    exact ⟨[], w, rfl, ⟨num, { h with slots := hslots, oneWay := honeWay }⟩, Iff.rfl⟩
  | submitFails clock accepted reason hpc hreason =>
    exact ⟨[], w, rfl, ⟨num, { h with slots := hslots, oneWay := honeWay }⟩, Iff.rfl⟩
  | submit clock accepted i rest data seed target hpc htime hready hlimit hfill hassert =>
    obtain rfl : accepted = true := hsuccess.1.1
    have hlength : (s.submit config i rest data seed target clock true).device.submissions.length =
        s.device.submissions.length + 1 := List.length_append
    rw [Unwrapped, submit_filesize, hlength] at hunwrapped
    obtain ⟨w', hissue, hw'⟩ := h.submit hready hfill hunwrapped rfl hslots honeWay
    refine ⟨[.issue], w', exec_cons_eq_some.mpr ⟨w', hissue, rfl⟩, ⟨_, hw'⟩, ?_⟩
    rw [along_cons hissue]
    exact ⟨fun _ => ⟨trivial, trivial⟩, fun _ => trivial⟩
  | effect i k hi hk =>
    refine ⟨[], w, rfl, ⟨num, hslots, honeWay, h.valid, ?_, ?_, ?_, fun j hj => ?_, ?_, ?_⟩,
      Iff.rfl⟩
    · rw [effect_generator]
      exact h.generator
    · rw [effect_submissions]
      exact h.issued
    · rw [effect_inflight]
      exact h.flying
    · rw [effect_inflight] at hj
      obtain ⟨buf, hentry⟩ := effect_entry s i k j
      rw [hentry]
      exact h.request j hj
    · rw [Device.transferred, effect_completions]
      exact h.transferred
    · rw [effect_worker]
      exact h.mark
  | notify i transfer now caller events received oldActive block worker workload queue hpc hi
      hnotifies hnotify =>
    obtain rfl : transfer = .full := hsuccess.2 i transfer now rfl
    obtain ⟨w', hack, hw'⟩ :=
      h.notify hi hnotify (hunwrapped.of_step hsuccess.1 hstep) rfl hslots honeWay
    refine ⟨[.ack (num i)], w', exec_cons_eq_some.mpr ⟨w', hack, rfl⟩, ⟨num, hw'⟩, ?_⟩
    rw [along_cons hack]
    exact (h.inOrder_iff hi).trans ⟨fun horder => ⟨horder, trivial⟩, fun horder => horder.1⟩
  | notifyFails i transfer now reason hi hnotify =>
    obtain ⟨worker, workload, queue, hok⟩ := @OneWay.notify_ok config _ _ _ h.oneWay hi now
    rw [hok] at hnotify
    cases hnotify
  | drop i transfer now caller events received oldActive block hpc hi hnotifies =>
    have htrue : config.platform.notifies transfer = true := hsuccess.1.1
    rw [htrue] at hnotifies
    cases hnotifies
  | waitReturn ok caller events received oldActive block hpc hok =>
    exact ⟨[], w, rfl, ⟨num, { h with slots := hslots, oneWay := honeWay }⟩, Iff.rfl⟩
  | finish now hpc =>
    exact ⟨[], w, rfl, ⟨num, { h with slots := hslots, oneWay := honeWay }⟩, Iff.rfl⟩

/-- A run of the workload that does not wrap is a run of the window. -/
theorem Tracks.of_exec {write : Bool} {r : UInt64} {num : ℕ → ℕ} {s t : IoState GeneratorData}
    {w : Window} {as : List (Action GeneratorData)} (h : Tracks write r num s w)
    (hrun : Transition.exec (step config workloads) s as = some t)
    (hsuccess : Along (step config workloads) (SuccessfulWorkload config) s as)
    (hunwrapped : Unwrapped r t) :
    ∃ ops w' num', Transition.exec Window.step w ops = some w' ∧ Tracks write r num' t w' ∧
      (Along (step config workloads) CompletesInOrder s as ↔
        Along Window.step InOrder w ops) := by
  have hbefore := (along_of_end (fun _ _ _ hP hstep hJ => hJ.of_step hP.1 hstep) hrun hsuccess
    hunwrapped).2
  obtain ⟨ops, w', hops, ⟨num', hw'⟩, hiff⟩ :=
    exec_simulation (R := fun s w => ∃ num, Tracks write r num s w)
      (fun s a t w ⟨num, h⟩ hP hstep => h.of_step hP.1 (hP.2 t hstep) hstep) hrun
      (along_and.mpr ⟨hsuccess, hbefore⟩) ⟨num, h⟩
  exact ⟨ops, w', num', hops, hw', hiff⟩

/-- After the barrier no number is in flight. -/
theorem Tracks.flying_nil {write : Bool} {r : UInt64} {num : ℕ → ℕ} {s : IoState GeneratorData}
    {w : Window} (h : Tracks write r num s w) (hpc : s.pc = .drained ∨ s.pc = .done) :
    w.flying = [] := by
  rw [← h.flying, h.slots.inflight_nil hpc, List.map_nil]

/-- After the barrier the bytes of all requests have been transferred, and no others. -/
theorem Tracks.covers_iff {write : Bool} {r : UInt64} {num : ℕ → ℕ} {s : IoState GeneratorData}
    {w : Window} (h : Tracks write r num s w) (hr : 0 < r.toNat)
    (hpc : s.pc = .drained ∨ s.pc = .done) {b : ℕ} :
    Covers (s.device.transferred write) b ↔ b / r.toNat < s.device.submissions.length := by
  rw [h.transferred, covers_ranges_iff hr, h.valid.mem_acked_iff (h.flying_nil hpc), h.issued]

end DiskBench
