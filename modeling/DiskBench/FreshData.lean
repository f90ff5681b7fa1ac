import DiskBench.RandomPeriod

/-!
# Random data never repeats

With random data a write takes the words of its sectors from the generator, one draw for each word
behind the offset and the seed. All draws of a worker come one after the other, for the places and
for the data, so the data of all its requests, in all its workloads, are words of one orbit.
-/

namespace DiskBench

open Function Transition

/-- The draws that follow a seed. -/
def drawn (seed : UInt64) (n : ℕ) : List UInt64 :=
  List.iterate randomUint64T (randomUint64T seed) n

theorem drawn_add (seed : UInt64) (m n : ℕ) :
    drawn seed (m + n) = drawn seed m ++ drawn (randomUint64T^[m] seed) n := by
  rw [drawn, List.iterate_add, ← iterate_succ_apply, iterate_succ_apply']
  rfl

/-- The words of a sector that are drawn. -/
def sectorWords (buf : Memory) (k : ℕ) : List UInt64 :=
  (List.range 62).map fun j => buf (64 * k + 2 + j)

/-- The words of a request that are drawn. -/
def IoRequest.randomWords (r : IoRequest) : List UInt64 :=
  if r.write then (List.range r.sectors).flatMap (sectorWords r.buf) else []

section Filling

variable {buf : Memory} {seed offset size : UInt64} {n p k : ℕ}

theorem fillRandom_apply {j : ℕ} (hj : j < n) :
    (fillRandom n p buf seed).1 (p + j) = randomUint64T^[j + 1] seed := by
  induction n generalizing p buf seed j with
  | zero => omega
  | succ n ih =>
    rw [fillRandom]
    cases j with
    | zero =>
      rw [fillRandom_frame (by omega), Nat.add_zero, Function.update_self]
      rfl
    | succ j =>
      have hplace : p + (j + 1) = p + 1 + j := by omega
      rw [hplace, ih (by omega)]
      rfl

theorem sectorWords_fillSector :
    sectorWords (fillSector true offset (512 * k) buf seed).1 k = drawn seed 62 := by
  rw [drawn, ← List.range_map_iterate, sectorWords]
  refine List.map_congr_left fun j hj => ?_
  rw [fillSector_random, fillRandom_apply (List.mem_range.mp hj)]
  rfl

/-- The words of the sectors from `k` on, after the filling loop. -/
theorem sectorWords_fillLoop (hsize : 512 * (k + n) < size.toNat + 512) :
    ((List.range n).flatMap fun i =>
        sectorWords (fillLoop true offset size n (512 * k) buf seed).1 (k + i)) =
      drawn seed (62 * n) := by
  induction n generalizing k buf seed with
  | zero => rfl
  | succ n ih =>
    have hnext : 512 * k + 512 = 512 * (k + 1) := by omega
    have hfirst : sectorWords (fillLoop true offset size n (512 * (k + 1))
        (fillSector true offset (512 * k) buf seed).1
        (fillSector true offset (512 * k) buf seed).2).1 (k + 0) = drawn seed 62 := by
      rw [← sectorWords_fillSector]
      refine List.map_congr_left fun j hj => ?_
      have hj := List.mem_range.mp hj
      exact fillLoop_frame (by omega) (by omega)
    have hrest := @ih (fillSector true offset (512 * k) buf seed).1
      (fillSector true offset (512 * k) buf seed).2 (k + 1) (by omega)
    have hcount : 62 * (n + 1) = 62 + 62 * n := by omega
    rw [fillLoop, if_pos (by omega), hnext, List.range_succ_eq_map, List.flatMap_cons,
      List.flatMap_map, hcount, drawn_add]
    dsimp only
    rw [hfirst]
    congr 1
    rw [← @fillSector_seed offset seed buf (512 * k), ← hrest]
    refine List.flatMap_congr fun i _ => ?_
    rw [Nat.add_right_comm]
    rfl

theorem sectorWords_fillBuffer (request : IoRequest) (seed : UInt64) :
    (List.range request.sectors).flatMap (sectorWords (fillBuffer true request seed).1.buf) =
      drawn seed (62 * request.sectors) := by
  have hsectors := request.sectors_spec
  rw [← @sectorWords_fillLoop request.buf seed request.off request.size request.sectors 0
    (by omega)]
  refine List.flatMap_congr fun i _ => ?_
  rw [Nat.zero_add]
  rfl

end Filling

/-- The words of a prepared request. -/
theorem randomWords_prepareEntry {config : Config} (hrandom : config.writeRandom = true)
    (worker : IoWorker) (entry : AsyncQueueEntry) (seed : UInt64) (target : Target)
    (now : AprTime) :
    (prepareEntry config worker entry seed target now).1.request.randomWords =
      drawn seed (dataDraws config target.write target.size) := by
  cases hwrite : target.write with
  | false =>
    rw [IoRequest.randomWords, prepareEntry_write, hwrite]
    rfl
  | true =>
    rw [IoRequest.randomWords, prepareEntry_write, hwrite, if_pos rfl, dataDraws,
      if_pos ⟨rfl, hrandom⟩, IoRequest.sectors, prepareEntry_size]
    simp only [prepareEntry, hwrite, if_true, genericQueueWrite, hrandom]
    exact sectorWords_fillBuffer _ seed

section Runs

variable {config : Config} {s t : IoState GeneratorData} {a : Action GeneratorData}
  {as : List (Action GeneratorData)}

/-- The draws of a step: those for the place and those for the data of the request. -/
def IoState.drawsOf (config : Config) (s : IoState GeneratorData) (a : Action GeneratorData) :
    Option ℕ :=
  (s.handsOver config workloads a).map fun r =>
    s.generator.draws + dataDraws config r.write r.size

/-- The words that a step hands over are among its draws, and it leaves the seed behind them unless
the process ends. -/
theorem step_drawn (hrandom : config.writeRandom = true)
    (hstep : step config workloads s a = some t) :
    ((s.handsOver config workloads a).toList.flatMap IoRequest.randomWords).Sublist
        (drawn s.worker.randomSeed (s.drawsOf config a).toList.sum) ∧
      ((∃ reason, t.pc = .halted reason) ∨ t.worker.randomSeed =
        randomUint64T^[(s.drawsOf config a).toList.sum] s.worker.randomSeed) := by
  cases hsee : s.handsOver config workloads a with
  | some r =>
    obtain ⟨clock, accepted, i, rest, data, seed, target, rfl, hfill, rfl, hnext⟩ :=
      handsOver_eq_some hsee
    obtain rfl := workloads_seed hfill
    simp only [IoState.drawsOf, hsee, Option.map_some, Option.toList_some, List.flatMap_singleton,
      List.sum_singleton, prepareEntry_write, prepareEntry_size,
      randomWords_prepareEntry hrandom, drawn_add]
    refine ⟨List.sublist_append_right _ _, ?_⟩
    obtain ⟨-, -, hhalted⟩ | rfl := hnext t hstep
    · exact Or.inl ⟨_, hhalted⟩
    · refine Or.inr ((prepareEntry_randomSeed _ _ _ _ _ _).trans ?_)
      rw [← iterate_add_apply, Nat.add_comm]
  | none =>
    simp only [IoState.drawsOf, hsee, Option.map_none, Option.toList_none, List.flatMap_nil,
      List.sum_nil]
    refine ⟨List.nil_sublist _, Or.inr ?_⟩
    cases step_next hstep with
    | submit clock accepted i rest data seed target hpc htime hready hlimit hfill hassert =>
      simp [IoState.handsOver, hpc, htime, hready, hlimit, hfill] at hsee
    | effect i k hi hk => rw [effect_worker]; rfl
    | notify i transfer now caller events received oldActive block worker workload queue hpc hi
        hnotifies hnotify =>
      obtain ⟨_, ⟨_, _, rfl, _⟩ | ⟨_, rfl, _⟩⟩ := genericQueueNotify_ok hnotify
      · rfl
      · exact advance_randomSeed _ _
    | _ => rfl

/-- A process that has ended hands nothing over any more. -/
theorem halted_observes_nothing {reason : Halt} (hpc : s.pc = .halted reason) :
    observe (step config workloads) (IoState.handsOver config workloads) s as = [] := by
  induction as generalizing s with
  | nil => rfl
  | cons a as ih =>
    rw [observe]
    split
    · rfl
    next t hstep =>
      have hlaunch : ∀ l, a ≠ .launch l := by
        rintro l rfl
        simp [step, hpc] at hstep
      obtain ⟨hnone, ht⟩ := halted_hands_nothing hpc hlaunch hstep
      rw [hnone, ih ht]
      rfl

/-- The words that a run hands over are among its draws, in their order. -/
theorem observe_drawn (hrandom : config.writeRandom = true) :
    ((observe (step config workloads) (IoState.handsOver config workloads) s as).flatMap
        IoRequest.randomWords).Sublist
      (drawn s.worker.randomSeed
        (observe (step config workloads) (IoState.drawsOf config) s as).sum) := by
  induction as generalizing s with
  | nil => exact List.nil_sublist _
  | cons a as ih =>
    cases hstep : step config workloads s a with
    | none =>
      rw [observe, hstep]
      exact List.nil_sublist _
    | some t =>
      obtain ⟨hwords, hseed⟩ := step_drawn hrandom hstep
      rw [observe_cons hstep, observe_cons hstep, List.flatMap_append, List.sum_append, drawn_add]
      refine hwords.append ?_
      obtain ⟨reason, hpc⟩ | hseed := hseed
      · rw [halted_observes_nothing hpc]
        exact List.nil_sublist _
      · rw [← hseed]
        exact ih

end Runs

/-- **Random data never repeats.** In every run of a worker, of any workloads one after the other
and whatever the platform does, the random words of all writes are different from each other and
from 0, unless the run takes as many draws as the generator has states. -/
theorem random_data_never_repeats {config : Config} (hrandom : config.writeRandom = true)
    {s : IoState GeneratorData} (hseed : s.worker.randomSeed ≠ 0)
    {as : List (Action GeneratorData)}
    (hfew : (observe (step config workloads) (IoState.drawsOf config) s as).sum < 2 ^ 64) :
    ((observe (step config workloads) (IoState.handsOver config workloads) s as).flatMap
      IoRequest.randomWords).Nodup ∧
    0 ∉ (observe (step config workloads) (IoState.handsOver config workloads) s as).flatMap
      IoRequest.randomWords := by
  have hfirst : randomUint64T s.worker.randomSeed ≠ 0 :=
    XorShift.iterate_ne_of_fixed randomUint64T_injective randomUint64T_zero hseed 1
  have hdrawn := @observe_drawn config s as hrandom
  refine ⟨hdrawn.nodup (Orbit.nodup_iterate ?_), fun hzero => ?_⟩
  · rw [minimalPeriod_randomUint64T hfirst]
    omega
  · obtain ⟨n, hn, hiterate⟩ := List.mem_iterate.mp (hdrawn.subset hzero)
    exact XorShift.iterate_ne_of_fixed randomUint64T_injective randomUint64T_zero hfirst n
      hiterate.symm

/-- The words of two writes of one run. -/
theorem random_data_never_repeats_pair :
    ((observe (step ⟨true, .linux, 4096, true⟩ workloads)
      (IoState.handsOver ⟨true, .linux, 4096, true⟩ workloads) pairStart (pairRun 1 0)).flatMap
        IoRequest.randomWords).Nodup :=
  (random_data_never_repeats rfl (by decide) (by decide)).1

end DiskBench
