import DiskBench.IoLimit
import DiskBench.Progress

/-!
# When the IO limit is kept

A limit without room for the requests is exceeded in some run. For requests of one size these are
the first requests, all to fresh entries. For requests of several sizes some of the smallest are
completed one after the other, until the test lets a larger one through that goes beyond the limit.
-/

namespace DiskBench

open Transition

variable {γ : Type} {config : Config} {G : Generator γ}

/-- A generator of writes to the start of the file, `n` of `a` bytes and then all of `b` bytes. Its
data are the number of requests that it has produced. -/
def stepUp (n : ℕ) (a b : UInt64) : Generator ℕ where
  fillRequest m _ seed := some (m + 1, seed, ⟨0, if m < n then a else b, true⟩)
  maxIoSize _ := b

theorem stepUp_draws {n : ℕ} {a b : UInt64} {sizes : Set UInt64} (ha : a ∈ sizes)
    (hb : b ∈ sizes) : (stepUp n a b).Draws sizes fun _ => True := by
  intro m filesize seed m' seed' target _ hfill
  simp only [stepUp, Option.some.injEq, Prod.mk.injEq] at hfill
  obtain ⟨_, _, rfl⟩ := hfill
  refine ⟨?_, trivial⟩
  dsimp only
  split
  · exact ha
  · exact hb

/-- The first requests are the small ones. -/
theorem stepUp_produces_first {n m : ℕ} {a b : UInt64} (hm : m < n) :
    (stepUp n a b).Produces a (· = m) (· = m + 1) := by
  rintro _ filesize seed rfl
  exact ⟨_, seed, _, rfl, if_pos hm, rfl⟩

/-- After them comes a large one. -/
theorem stepUp_produces_next {n : ℕ} {a b : UInt64} :
    (stepUp n a b).Produces b (· = n) (· = n + 1) := by
  rintro _ filesize seed rfl
  exact ⟨_, seed, _, rfl, if_neg (Nat.lt_irrefl _), rfl⟩

/-- All requests in flight are writes. -/
def Writing (s : IoState γ) : Prop :=
  ∀ i ∈ s.device.inflight, (s.queue.ioaqes i).callback = .writeComplete

/-- A workload that only writes has nothing but writes in flight, and these can be completed. -/
theorem Writing.completable (hwrite : ∀ data filesize seed data' seed' target,
      G.fillRequest data filesize seed = some (data', seed', target) → target.write = true) :
    Completable config G Writing := by
  constructor
  · intro s a t h hduring hstep i hi
    obtain ⟨hold, heq⟩ | ⟨data, seed, target, hfill, heq⟩ := step_callback hduring.2 hstep hi
    · rw [heq]
      exact h i hold
    · rw [heq, if_pos (hwrite _ _ _ _ _ _ hfill)]
  · intro s h i hi
    exact ⟨_, _, _, genericQueueNotify_of_write (h i hi)⟩

/-- A request that is larger than the last ones of all entries can pass the test and exceed the
limit. -/
theorem Resting.exceeds {I : IoState γ → Prop} {P Q : γ → Prop} {r b : UInt64} {m : ℕ}
    {s : IoState γ} (h : Resting I P r m s) (hnext : G.Produces b P Q)
    (hroom : (m + 1) * r.toNat ≤ s.worker.iolimit.toNat)
    (hover : s.worker.iolimit.toNat < m * r.toNat + b.toNat)
    (hnowrap : m * r.toNat + b.toNat < 2 ^ 64) :
    ∃ t, Reaches (step config G) (FaultFree config) s t ∧ ¬WithinLimit t := by
  obtain ⟨i, rest, data, seed, target, hstep, rfl, _⟩ :=
    @Resting.submits γ config G _ _ _ _ _ _ _ h hnext hroom
  refine ⟨_, .single hstep FaultFree.iterate, fun hwithin => ?_⟩
  rw [WithinLimit, submit_submittedBytes, submit_iolimit, UInt64.le_iff_toNat_le, UInt64.toNat_add,
    h.submitted, Nat.mod_eq_of_lt hnowrap] at hwithin
  omega

/-- A limit that has room for a request of `q * a` bytes is exceeded by it after some requests of
`a` bytes, while one more of these would still fit. -/
theorem exists_last_fit {a q limit : ℕ} (ha : 0 < a) (hq : 2 ≤ q) (hle : q * a ≤ limit) :
    ∃ n, (n + 1) * a ≤ limit ∧ limit < n * a + q * a ∧ n * a + q * a ≤ limit + a := by
  obtain ⟨p, hp⟩ : ∃ p, p = limit / a := ⟨_, rfl⟩
  have hfit : p * a ≤ limit := hp ▸ Nat.div_mul_le_self _ _
  have hqp : q ≤ p := hp ▸ (Nat.le_div_iff_mul_le ha).mpr hle
  have hnext : limit < p * a + a := by
    rw [hp, ← Nat.succ_mul, Nat.mul_comm]
    exact Nat.lt_mul_div_succ _ ha
  have hsum : (p + 1 - q) * a + q * a = p * a + a := by
    rw [← Nat.add_mul, Nat.sub_add_cancel (by omega), Nat.succ_mul]
  have hlast : (p + 1 - q + 1) * a ≤ p * a := Nat.mul_le_mul_right _ (by omega)
  exact ⟨p + 1 - q, by omega, by omega, by omega⟩

/-- With a smallest size `a` and a larger multiple of it, some workload exceeds every limit that is
not among the last `a` words, without any fault of the platform. -/
theorem exists_excess {a b : UInt64} {s : IoState ℕ} {l : Launch ℕ} {queue : AsyncQueue}
    (ha : 0 < a.toNat) (hdvd : a.toNat ∣ b.toNat) (hab : 2 * a.toNat ≤ b.toNat)
    (hlimit : l.iolimit.toNat + a.toNat < 2 ^ 64) (hgenerator : l.generator = 0)
    (hdepth : 1 ≤ l.queueDepth)
    (hcreate : genericQueueCreate config s.worker l.queueDepth l.memory = .ok queue) :
    ∃ n t, Reaches (step config (stepUp n a b)) (FaultFree config) (s.start l queue) t ∧
      ¬WithinLimit t := by
  have hwriting : Writing (s.start l queue) := fun i hi => absurd hi List.not_mem_nil
  have hcompletable : ∀ n, Completable config (stepUp n a b) Writing := by
    intro n
    apply Writing.completable
    intro m filesize seed m' seed' target hfill
    simp only [stepUp, Option.some.injEq, Prod.mk.injEq] at hfill
    obtain ⟨_, _, rfl⟩ := hfill
    rfl
  obtain ⟨q, hq⟩ := hdvd
  rw [Nat.mul_comm] at hq
  rcases Nat.lt_or_ge l.iolimit.toNat b.toNat with hlt | hge
  · -- The first request is too large, and its entry has not been used.
    have hresting : Resting Writing (· = 0) 0 0 (s.start l queue) :=
      Resting.start hdepth hcreate hwriting hgenerator
    have hover : (s.start l queue).worker.iolimit.toNat < 0 * (0 : UInt64).toNat + b.toNat := by
      rw [Nat.zero_mul, Nat.zero_add]
      exact hlt
    have hnowrap : 0 * (0 : UInt64).toNat + b.toNat < 2 ^ 64 := by
      rw [Nat.zero_mul, Nat.zero_add]
      exact b.toNat_lt
    obtain ⟨t, ht, hexceeded⟩ :=
      @Resting.exceeds ℕ config (stepUp 0 a b) _ _ _ _ _ _ _ hresting stepUp_produces_next
        (Nat.zero_le _) hover hnowrap
    exact ⟨0, t, ht, hexceeded⟩
  · have htwo : 2 ≤ q := by
      rw [hq] at hab
      exact Nat.le_of_mul_le_mul_right hab ha
    obtain ⟨n, hroom, hover, hle⟩ := exists_last_fit ha htwo (hq ▸ hge)
    rw [← hq] at hover hle
    -- The small requests come first, and each of them is completed before the next.
    have hresting : Resting Writing (· = 0) a 0 (s.start l queue) :=
      Resting.start hdepth hcreate hwriting hgenerator
    obtain ⟨u, hu, hurest, hsettings⟩ := hresting.exec (P := fun m data => data = m)
      (hcompletable n) n (fun m hm => stepUp_produces_first hm)
      (Nat.le_trans (Nat.mul_le_mul_right _ (Nat.le_succ n)) hroom)
    have hiolimit : u.worker.iolimit = l.iolimit := hsettings.iolimit
    rw [← hiolimit] at hroom hover hle
    obtain ⟨t, ht, hexceeded⟩ :=
      @Resting.exceeds ℕ config (stepUp n a b) _ _ _ _ _ _ _ hurest stepUp_produces_next hroom hover
        (by rw [hiolimit] at hle; omega)
    exact ⟨n, t, hu.trans ht, hexceeded⟩

/-- The sizes of a workload as the program makes them: one size, or several multiples of the
smallest of them, which is a power of two. -/
def Graded (sizes : Set UInt64) : Prop :=
  (∃ r, sizes = {r}) ∨ ∃ a ∈ sizes, ∃ b ∈ sizes, 2 * a.toNat ≤ b.toNat ∧
    (∃ k, a.toNat = 2 ^ k) ∧ ∀ r ∈ sizes, a.toNat ∣ r.toNat

/-- The workloads of the program have such sizes. -/
theorem GeneratorData.Sized.graded {data : GeneratorData} (h : data.Sized) :
    Graded data.sizes := by
  cases data with
  | sequential data => exact Or.inl ⟨data.reqSize, rfl⟩
  | random data => exact Or.inl ⟨data.reqSize, rfl⟩
  | mixed data =>
    have htail : data.Tail := h
    rcases Nat.lt_or_eq_of_le htail.minBlocksizeIdx_le with hlt | heq
    · refine Or.inr ⟨_, ⟨data.minBlocksizeIdx, Nat.le_refl _, hlt.le, rfl⟩, _,
        ⟨data.minBlocksizeIdx + 1, Nat.le_succ _, hlt, rfl⟩, ?_, ⟨9 + data.minBlocksizeIdx, ?_⟩, ?_⟩
      · rw [blocksize_eq_pow hlt.le, blocksize_eq_pow hlt, Nat.add_succ, Nat.pow_succ']
      · exact blocksize_eq_pow hlt.le
      · rintro _ ⟨j, hmin, hj, rfl⟩
        rw [blocksize_eq_pow hlt.le, blocksize_eq_pow hj]
        exact Nat.pow_dvd_pow 2 (by omega)
    · refine Or.inl ⟨(blocksize 12).toUInt64, Set.ext fun r => ⟨?_, ?_⟩⟩
      · rintro ⟨j, hmin, hj, rfl⟩
        obtain rfl : j = 12 := by omega
        rfl
      · rintro rfl
        exact ⟨12, by omega, Nat.le_refl _, rfl⟩

/-- A workload of the program keeps a limit with room for its requests, whichever of them it is. -/
theorem Factory.keepsLimit {factory : Factory} {filesize reqsize : UInt64} {data : GeneratorData}
    {s : IoState GeneratorData} {l : Launch GeneratorData} {queue : AsyncQueue}
    (hreset : factory.reset filesize reqsize = some data) (hgenerator : l.generator = data)
    (hcreate : genericQueueCreate config s.worker l.queueDepth l.memory = .ok queue)
    (hroom : RoomFor data.sizes l.queueDepth.toInt.toNat l.iolimit) :
    KeepsLimit config workloads (s.start l queue) := by
  subst hgenerator
  exact hroom.keepsLimit (GeneratorData.draws_sizes _) ⟨Factory.reset_sized hreset, rfl⟩ hcreate

/-- Whatever generator a worker is started with, and whatever its requests are besides their sizes,
it keeps the limit. -/
def EveryWorkloadKeeps (config : Config) (sizes : Set UInt64) (worker : IoWorker)
    (queueDepth : Int32) (iolimit : UInt64) : Prop :=
  ∀ (γ : Type) (G : Generator γ) (P : γ → Prop) (s : IoState γ) (l : Launch γ) (queue : AsyncQueue),
    G.Draws sizes P → P l.generator → s.worker = worker → l.queueDepth = queueDepth →
    l.iolimit = iolimit → genericQueueCreate config worker queueDepth l.memory = .ok queue →
    KeepsLimit config G (s.start l queue)

/-- There is a launch for every generator, queue depth, limit and content of the buffer. -/
theorem exists_launch (data : γ) (queueDepth : Int32) (iolimit : UInt64) (memory : ℕ → Memory) :
    ∃ l : Launch γ, l.generator = data ∧ l.queueDepth = queueDepth ∧ l.iolimit = iolimit ∧
      l.memory = memory :=
  ⟨⟨data, queueDepth, 0, iolimit, 0, memory, true, 0⟩, rfl, rfl, rfl, rfl⟩

/-- **The IO limit.** For requests of one size, or of several multiples of the smallest size, a
power of two, every workload of a worker keeps the limit in all states that it can reach if and
only if the limit has room for such requests. -/
theorem iolimit_kept_iff {sizes : Set UInt64} {worker : IoWorker} {queueDepth : Int32}
    {iolimit : UInt64} {memory : ℕ → Memory} {queue : AsyncQueue} (hsizes : Graded sizes)
    (hdepth : 1 ≤ queueDepth)
    (hcreate : genericQueueCreate config worker queueDepth memory = .ok queue) :
    EveryWorkloadKeeps config sizes worker queueDepth iolimit ↔
      RoomFor sizes queueDepth.toInt.toNat iolimit := by
  constructor
  · intro hkeeps
    obtain ⟨r, rfl⟩ | ⟨a, ha, b, hb, hab, ⟨k, hk⟩, hdvd⟩ := hsizes
    · -- One size: the sequential workload of that size shows it.
      obtain ⟨l, hgenerator, rfl, rfl, rfl⟩ :=
        exists_launch (GeneratorData.sequential ⟨true, 0, r⟩) queueDepth iolimit memory
      have hdata : ∃ d : SequentialData, l.generator = .sequential d ∧ d.reqSize = r :=
        ⟨_, hgenerator, rfl⟩
      have hkept := hkeeps _ workloads _ (IoState.initial worker l.generator fun _ => 0) l queue
        (sequential_produces r).draws hdata rfl rfl rfl hcreate
      exact Or.inl ⟨r, Set.Subset.refl _,
        (within_iolimit_iff (sequential_produces r) hdata hdepth hcreate).mp hkept⟩
    · -- Several sizes: with a limit below the last words some workload would exceed it.
      have hk64 : k ≤ 64 := by
        by_contra hgt
        have hpow : 2 ^ 64 ≤ 2 ^ k := Nat.pow_le_pow_right (by decide) (by omega)
        have hlt := a.toNat_lt
        omega
      refine Or.inr ⟨k, hk64, fun r hr => hk ▸ hdvd r hr, ?_⟩
      by_contra hlimit
      obtain ⟨l, hgenerator, rfl, rfl, rfl⟩ := exists_launch (0 : ℕ) queueDepth iolimit memory
      obtain ⟨n, t, ht, hexceeded⟩ := @exists_excess config a b
        (IoState.initial worker l.generator fun _ => 0) l queue (hk ▸ Nat.two_pow_pos k)
        (hdvd b hb) hab (by omega) hgenerator hdepth hcreate
      exact hexceeded (hkeeps _ (stepUp n a b) _ _ l queue (stepUp_draws ha hb) trivial rfl rfl rfl
        hcreate t (ht.mono fun _ _ h => h.1.2))
  · rintro hroom γ G P s l queue hdraws hgenerator rfl rfl rfl hqueue
    exact hroom.keepsLimit hdraws hgenerator hqueue

/-- A mixed workload with blocks of 4 KiB or more. -/
def mixedFrom4K : MixedData :=
  ⟨fun _ => 0, fun _ => 0, 3, 10, 0, 0, 0, 0⟩

/-- A worker with a buffer of 2 MiB. -/
def limitedWorker : IoWorker := ⟨8192, 2097152, 512, 512, 0, 88172645463325252, false⟩

/-- Mixed workloads keep the default limit. -/
theorem iolimit_kept_default : EveryWorkloadKeeps ⟨true, .linux, 4096, true⟩
    (GeneratorData.sizes (.mixed mixedFrom4K)) limitedWorker 1 18446744073709551615 := by
  have htail : GeneratorData.Sized (.mixed mixedFrom4K) := ⟨by decide, by decide⟩
  have hcreate : genericQueueCreate ⟨true, .linux, 4096, true⟩ limitedWorker 1 (fun _ _ => 0) =
    .ok _ := rfl
  refine (iolimit_kept_iff htail.graded (by decide) hcreate).mpr
    (Or.inr ⟨9, by decide, ?_, by decide⟩)
  rintro _ ⟨j, _, hj, rfl⟩
  rw [blocksize_eq_pow hj]
  exact Nat.pow_dvd_pow 2 (Nat.le_add_right 9 j)

/-- A sequential write of 8 KiB in requests of 4 KiB, one at a time, with a limit of one sector. -/
def limitedLaunch : Launch GeneratorData :=
  ⟨.sequential ⟨true, 0, 4096⟩, 1, 8192, 512, 10, fun _ _ => 0, true, 0⟩

/-- The first request of an entry is submitted without a test of its size. -/
theorem iolimit_exceeded : ∃ t, exec (step ⟨true, .linux, 4096, true⟩ workloads)
      (IoState.initial limitedWorker (.sequential ⟨true, 0, 4096⟩) fun _ => 0)
      [.launch limitedLaunch, .iterate ⟨1, 1, 1⟩ true] = some t ∧
    t.workload.submittedBytes = 4096 ∧ t.worker.iolimit = 512 ∧ ¬WithinLimit t := by
  have hlimit : ¬(4096 : UInt64) ≤ 512 := by decide
  exact ⟨_, rfl, rfl, rfl, hlimit⟩

end DiskBench
