import DiskBench.Reproducible
import DiskBench.Streams

/-!
# The state of the random generator

`random_uint64_t` is a permutation of the words that leaves 0 in place. `fill_request` draws from
the seed of the worker, and so does the filling of a write, one word for each but the first two of a
sector. Nothing else changes the seed, so every state of it is an iterate of the one that
`create_worker` has set.
-/

namespace DiskBench

open Transition

/-- One word is the next of exactly one other. -/
theorem randomUint64T_bijective : Function.Bijective randomUint64T :=
  ⟨randomUint64T_injective, exists_seed⟩

theorem randomUint64T_zero : randomUint64T 0 = 0 := by decide

section Filling

variable {offset size seed : UInt64} {buf : Memory} {n i p : ℕ}

theorem fillRandom_seed : (fillRandom n p buf seed).2 = randomUint64T^[n] seed := by
  induction n generalizing p buf seed with
  | zero => rfl
  | succ n ih => exact ih

/-- A sector takes its first two words from elsewhere. -/
theorem fillSector_seed : (fillSector true offset i buf seed).2 = randomUint64T^[62] seed := by
  have hwords : (i + 512 - (i + 8 + 8)) / 8 = 62 := by omega
  rw [fillSector, if_pos rfl]
  dsimp only
  rw [hwords]
  exact fillRandom_seed

theorem fillLoop_seed (h : ∀ j < n, i + 512 * j < size.toNat) :
    (fillLoop true offset size n i buf seed).2 = randomUint64T^[62 * n] seed := by
  induction n generalizing i buf seed with
  | zero => rfl
  | succ n ih =>
    have hfirst : i < size.toNat := h 0 n.succ_pos
    have hrest : ∀ j < n, i + 512 + 512 * j < size.toNat := by
      intro j hj
      have hnext := h (j + 1) (by omega)
      omega
    rw [fillLoop, if_pos hfirst]
    calc
      (fillLoop true offset size n (i + 512) (fillSector true offset i buf seed).1
          (fillSector true offset i buf seed).2).2
        = randomUint64T^[62 * n] (fillSector true offset i buf seed).2 := ih hrest
      _ = randomUint64T^[62 * (n + 1)] seed := by
        rw [fillSector_seed, ← Function.iterate_add_apply, Nat.mul_succ]

/-- The draws of the filling of a buffer. -/
theorem fillBuffer_seed (writeRandom : Bool) (request : IoRequest) (seed : UInt64) :
    (fillBuffer writeRandom request seed).2 =
      randomUint64T^[if writeRandom then 62 * request.sectors else 0] seed := by
  cases writeRandom with
  | false => exact fillLoop_constant_seed
  | true =>
    refine fillLoop_seed fun j hj => ?_
    have hsectors := request.sectors_spec
    omega

end Filling

/-- The draws of `fill_request`. -/
def GeneratorData.draws : GeneratorData → ℕ
  | .sequential _ => 0
  | .random _ => 1
  | .mixed _ => 1

theorem workloads_seed {data data' : GeneratorData} {filesize seed seed' : UInt64} {t : Target}
    (h : workloads.fillRequest data filesize seed = some (data', seed', t)) :
    seed' = randomUint64T^[data.draws] seed := by
  cases data with
  | sequential data =>
    rw [workloads_sequential] at h
    cases h
    rfl
  | random data =>
    obtain ⟨⟨seed', t⟩, hfill, heq⟩ := Option.map_eq_some_iff.mp h
    cases heq
    unfold randomFillRequest at hfill
    split at hfill
    · cases hfill
    · cases hfill
      rfl
  | mixed data =>
    obtain ⟨⟨data', seed', t⟩, hfill, heq⟩ := Option.map_eq_some_iff.mp h
    cases heq
    exact (mixedFillRequest_next hfill).1

section Runs

variable {config : Config} {s t : IoState GeneratorData} {as : List (Action GeneratorData)}

/-- One seed comes after another. -/
def Draws (seed seed' : UInt64) : Prop := ∃ n, seed' = randomUint64T^[n] seed

theorem Draws.refl (seed : UInt64) : Draws seed seed := ⟨0, rfl⟩

theorem Draws.trans {seed seed' seed'' : UInt64} (h : Draws seed seed') (h' : Draws seed' seed'') :
    Draws seed seed'' := by
  obtain ⟨m, rfl⟩ := h
  obtain ⟨n, rfl⟩ := h'
  exact ⟨n + m, (Function.iterate_add_apply _ n m seed).symm⟩

/-- The preparation of a request draws for the data of a write. -/
theorem prepareEntry_draws (config : Config) (worker : IoWorker) (entry : AsyncQueueEntry)
    (seed : UInt64) (target : Target) (now : AprTime) :
    Draws seed (prepareEntry config worker entry seed target now).2.randomSeed := by
  unfold prepareEntry
  split
  · exact ⟨_, fillBuffer_seed _ _ _⟩
  · exact .refl seed

/-- A step draws from the seed of the worker or leaves it. -/
theorem step_draws {a : Action GeneratorData} (h : step config workloads s a = some t) :
    Draws s.worker.randomSeed t.worker.randomSeed := by
  cases step_next h with
  | submit clock accepted i rest data seed target hpc htime hready hlimit hfill hassert =>
    exact .trans ⟨_, workloads_seed hfill⟩ (prepareEntry_draws _ _ _ _ _ _)
  | effect i k hi hk =>
    rw [effect_worker]
    exact .refl _
  | notify i transfer now caller events received oldActive block worker workload queue hpc hi
      hnotifies hnotify =>
    obtain ⟨_, ⟨_, _, rfl, _⟩ | ⟨_, rfl, _⟩⟩ := genericQueueNotify_ok hnotify
    · exact .refl _
    · rw [advance_randomSeed]
      exact .refl _
  | _ => exact .refl _

/-- In a run the draws of requests and of data come one after the other. -/
theorem exec_draws (h : exec (step config workloads) s as = some t) :
    Draws s.worker.randomSeed t.worker.randomSeed := by
  have hstep : ∀ (u : IoState GeneratorData) (a : Action GeneratorData) (v : IoState GeneratorData),
      Draws s.worker.randomSeed u.worker.randomSeed → True →
        step config workloads u a = some v → Draws s.worker.randomSeed v.worker.randomSeed :=
    fun u a v hdraws _ hv => hdraws.trans (step_draws hv)
  exact exec_invariant hstep h along_true (.refl _)

end Runs

theorem createWorker_randomSeed (bufsize filesize iolimit : UInt64) :
    (createWorker bufsize filesize iolimit).randomSeed ≠ 0 := by
  have hseed : (88172645463325252 : UInt64) ≠ 0 := by decide
  exact hseed

/-- **The random generator never degenerates.** It is a permutation that leaves 0 in place, so a
seed that is not 0 stays so, and two seeds stay apart. In every run of a worker, of any workloads
one after the other, the seed is one of the iterates of that of `create_worker`, and never 0. -/
theorem randomUint64T_never_degenerates :
    Function.Bijective randomUint64T ∧ randomUint64T 0 = 0 ∧
    (∀ n seed, seed ≠ 0 → randomUint64T^[n] seed ≠ 0) ∧
    (∀ n seed seed', seed ≠ seed' → randomUint64T^[n] seed ≠ randomUint64T^[n] seed') ∧
    ∀ (config : Config) (bufsize filesize iolimit length : UInt64) (truncated : Bool)
      (data : GeneratorData) (disk : Memory) (as : List (Action GeneratorData))
      (s : IoState GeneratorData),
      exec (step config workloads) (IoState.initial
        (openWorker (createWorker bufsize filesize iolimit) length truncated) data disk) as =
          some s →
      (∃ n, s.worker.randomSeed =
        randomUint64T^[n] (createWorker bufsize filesize iolimit).randomSeed) ∧
      s.worker.randomSeed ≠ 0 := by
  have hnonzero (n : ℕ) (seed : UInt64) (h : seed ≠ 0) : randomUint64T^[n] seed ≠ 0 :=
    XorShift.iterate_ne_of_fixed randomUint64T_injective randomUint64T_zero h n
  refine ⟨randomUint64T_bijective, randomUint64T_zero, hnonzero,
    fun n seed seed' h => (randomUint64T_injective.iterate n).ne h, ?_⟩
  intro config bufsize filesize iolimit length truncated data disk as s hrun
  obtain ⟨n, hseed⟩ := exec_draws hrun
  refine ⟨⟨n, hseed⟩, ?_⟩
  rw [hseed]
  exact hnonzero n _ (createWorker_randomSeed bufsize filesize iolimit)

/-- A random write with random data and its completion. -/
def randomWrite : List (Action GeneratorData) :=
  [.launch ⟨.random ⟨true, 16, 512⟩, 1, 8192, 8192, 10, fun _ _ => 0, true, 0⟩,
    .iterate ⟨1, 1, 1⟩ true, .effect 0 0, .reap 0 .full 2]

/-- The seed after the write. -/
theorem randomUint64T_never_degenerates_write :
    ∃ s, exec (step ⟨true, .linux, 4096, true⟩ workloads) (IoState.initial
        (openWorker (createWorker 8192 8192 8192) 8192 true) (.random ⟨true, 16, 512⟩)
        fun _ => 0) randomWrite = some s ∧
      s.worker.randomSeed ≠ 0 := by
  have hrun : exec (step ⟨true, .linux, 4096, true⟩ workloads) (IoState.initial
      (openWorker (createWorker 8192 8192 8192) 8192 true) (.random ⟨true, 16, 512⟩)
      fun _ => 0) randomWrite = some _ := rfl
  exact ⟨_, hrun, (randomUint64T_never_degenerates.2.2.2.2 _ _ _ _ _ _ _ _ _ _ hrun).2⟩

end DiskBench
