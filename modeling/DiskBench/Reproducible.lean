import DiskBench.Foundations.Observation
import DiskBench.Preparation
import DiskBench.Watermark

/-!
# The request stream is reproducible

The generator and the random seed of the worker give one request after the other. Completions
change neither of them, and what is written into a buffer depends on the seed and not on what the
buffer has held before. So the requests of a workload are the same in any order of its completions.
-/

namespace DiskBench

open Transition

variable {γ : Type} {config : Config} {G : Generator γ}

/-- The same offset, size and direction, and for a write the same words in all sectors. -/
structure IoRequest.SamePayload (r r' : IoRequest) : Prop where
  offset : r.offset = r'.offset
  size : r.size = r'.size
  write : r.write = r'.write
  words : r.write = true → ∀ a < 64 * r.sectors, r.buf a = r'.buf a

/-- The request that a step hands over to the platform. -/
def IoState.handsOver (config : Config) (G : Generator γ) (s : IoState γ) :
    Action γ → Option IoRequest
  | .iterate clock _ =>
    if s.pc = .head ∧ clock.now ≤ s.terminateAt then
      match s.queue.ready with
      | [] => none
      | i :: _ =>
        if s.workload.submittedBytes + (s.queue.ioaqes i).request.size > s.worker.iolimit then none
        else
          (G.fillRequest s.generator s.worker.filesize s.worker.randomSeed).map
            fun (_, seed, target) =>
              (prepareEntry config s.worker (s.queue.ioaqes i) seed target
                clock.preSubmission).1.request
    else none
  | _ => none

/-- An entry that has not been used. -/
def blankEntry : AsyncQueueEntry := ⟨⟨0, 0, fun _ => 0, 0, 0, 0, 0, 0, false⟩, .null⟩

/-- The next request of a generator with a random seed, in an unused entry, and what it leaves of
both. -/
def nextRequest (config : Config) (G : Generator γ) (filesize : UInt64) (source : γ × UInt64) :
    Option (IoRequest × γ × UInt64) :=
  (G.fillRequest source.1 filesize source.2).map fun (data, seed, target) =>
    let prepared := prepareEntry config (createWorker 0 filesize 0) blankEntry seed target 0
    (prepared.1.request, data, prepared.2.randomSeed)

section Filling

/-- The random filling depends on the buffer only outside of the words that it fills. -/
theorem fillRandom_congr {n p : ℕ} {buf buf' : Memory} {seed : UInt64} :
    (fillRandom n p buf seed).2 = (fillRandom n p buf' seed).2 ∧
      ∀ a, (¬(p ≤ a ∧ a < p + n) → buf a = buf' a) →
        (fillRandom n p buf seed).1 a = (fillRandom n p buf' seed).1 a := by
  induction n generalizing p buf buf' seed with
  | zero => exact ⟨rfl, fun a h => h (by omega)⟩
  | succ n ih =>
    rw [fillRandom, fillRandom]
    refine ⟨ih.1, fun a h => ih.2 a fun hout => ?_⟩
    by_cases hp : a = p
    · rw [hp, Function.update_self, Function.update_self]
    · rw [Function.update_of_ne hp, Function.update_of_ne hp]
      exact h (by omega)

/-- And so does the filling of a sector. -/
theorem fillSector_congr {writeRandom : Bool} {offset : UInt64} {k : ℕ} {buf buf' : Memory}
    {seed : UInt64} :
    (fillSector writeRandom offset (512 * k) buf seed).2 =
        (fillSector writeRandom offset (512 * k) buf' seed).2 ∧
      ∀ a, (¬(64 * k ≤ a ∧ a < 64 * k + 64) → buf a = buf' a) →
        (fillSector writeRandom offset (512 * k) buf seed).1 a =
          (fillSector writeRandom offset (512 * k) buf' seed).1 a := by
  cases writeRandom with
  | true =>
    rw [fillSector_random, fillSector_random]
    refine ⟨fillRandom_congr.1, fun a h => fillRandom_congr.2 a fun hout => ?_⟩
    simp only [Function.update_apply]
    split
    · rfl
    · split
      · rfl
      · exact h (by omega)
  | false =>
    rw [fillSector_constant, fillSector_constant]
    refine ⟨rfl, fun a h => ?_⟩
    simp only [fillConstant_apply, Function.update_apply]
    split
    · rfl
    · split
      · rfl
      · exact h (by omega)

/-- And so does the filling loop. -/
theorem fillLoop_congr {writeRandom : Bool} {offset size : UInt64} {n k₀ : ℕ}
    {buf buf' : Memory} {seed : UInt64} (hsize : 512 * (k₀ + n) < size.toNat + 512) :
    (fillLoop writeRandom offset size n (512 * k₀) buf seed).2 =
        (fillLoop writeRandom offset size n (512 * k₀) buf' seed).2 ∧
      ∀ a, (¬(64 * k₀ ≤ a ∧ a < 64 * (k₀ + n)) → buf a = buf' a) →
        (fillLoop writeRandom offset size n (512 * k₀) buf seed).1 a =
          (fillLoop writeRandom offset size n (512 * k₀) buf' seed).1 a := by
  induction n generalizing k₀ buf buf' seed with
  | zero => exact ⟨rfl, fun a h => h (by omega)⟩
  | succ n ih =>
    have hnext : 512 * k₀ + 512 = 512 * (k₀ + 1) := by omega
    obtain ⟨hseed, hwords⟩ := @fillSector_congr writeRandom offset k₀ buf buf' seed
    rw [fillLoop, fillLoop, if_pos (by omega), if_pos (by omega), hnext]
    simp only [hseed]
    obtain ⟨hseed', hwords'⟩ := @ih (k₀ + 1)
      (fillSector writeRandom offset (512 * k₀) buf seed).1
      (fillSector writeRandom offset (512 * k₀) buf' seed).1
      (fillSector writeRandom offset (512 * k₀) buf' seed).2 (by omega)
    exact ⟨hseed', fun a h => hwords' a fun hout => hwords a fun hout' => h (by omega)⟩

/-- What a write is filled with does not depend on what its buffer holds. -/
theorem fillBuffer_congr {writeRandom : Bool} {r r' : IoRequest} {seed : UInt64}
    (hoffset : r.offset = r'.offset) (hsize : r.size = r'.size) :
    (fillBuffer writeRandom r seed).2 = (fillBuffer writeRandom r' seed).2 ∧
      ∀ a < 64 * r.sectors,
        (fillBuffer writeRandom r seed).1.buf a = (fillBuffer writeRandom r' seed).1.buf a := by
  have hoff : r.off = r'.off := congrArg Int64.toUInt64 hoffset
  have hsectors : r.sectors = r'.sectors := by rw [IoRequest.sectors, hsize, IoRequest.sectors]
  have hrounds := r.sectors_spec
  unfold fillBuffer
  rw [← hoff, ← hsize, ← hsectors]
  obtain ⟨hseed, hwords⟩ := @fillLoop_congr writeRandom r.off r.size r.sectors 0 r.buf r'.buf seed
    (by omega)
  exact ⟨hseed, fun a ha => hwords a fun hout => absurd ⟨by omega, by omega⟩ hout⟩

end Filling

/-- A prepared request depends on the seed and on what `fill_request` has chosen. -/
theorem prepareEntry_congr (worker worker' : IoWorker) (entry entry' : AsyncQueueEntry)
    (seed : UInt64) (target : Target) (now now' : AprTime) :
    (prepareEntry config worker entry seed target now).1.request.SamePayload
        (prepareEntry config worker' entry' seed target now').1.request ∧
      (prepareEntry config worker entry seed target now).2.randomSeed =
        (prepareEntry config worker' entry' seed target now').2.randomSeed := by
  cases hwrite : target.write with
  | false =>
    have hread : ∀ (worker : IoWorker) (entry : AsyncQueueEntry) (now : AprTime),
        (prepareEntry config worker entry seed target now).1.request.write = false := by
      intro worker entry now
      rw [prepareEntry_write, hwrite]
    refine ⟨⟨by simp, by simp, by simp, fun h => ?_⟩, ?_⟩
    · rw [hread] at h
      cases h
    · simp [prepareEntry, hwrite]
  | true =>
    obtain ⟨hseed, hwords⟩ := @fillBuffer_congr config.writeRandom
      { entry.request with
        offset := target.offset, size := target.size, write := target.write, preSubmission := now }
      { entry'.request with
        offset := target.offset, size := target.size, write := target.write, preSubmission := now' }
      seed rfl rfl
    refine ⟨⟨by simp, by simp, by simp, fun _ a ha => ?_⟩, ?_⟩
    · have hsectors : (prepareEntry config worker entry seed target now).1.request.sectors =
          (target.size.toNat + 511) / 512 := by
        rw [IoRequest.sectors, prepareEntry_size]
      rw [hsectors] at ha
      simp only [prepareEntry, hwrite, if_true]
      simp only [hwrite] at hwords
      exact hwords a ha
    · simp only [prepareEntry, hwrite, if_true]
      simp only [hwrite] at hseed
      exact hseed

/-- A request that is handed over is the next one of the generator. The pass submits it, or an
assertion ends the process. -/
theorem handsOver_eq_some {s : IoState γ} {a : Action γ} {r : IoRequest}
    (h : s.handsOver config G a = some r) :
    ∃ clock accepted i rest data seed target, a = .iterate clock accepted ∧
      G.fillRequest s.generator s.worker.filesize s.worker.randomSeed = some (data, seed, target) ∧
      r = (prepareEntry config s.worker (s.queue.ioaqes i) seed target
        clock.preSubmission).1.request ∧
      ∀ t, step config G s a = some t →
        config.assertions = true ∧ accepted = false ∧ t.pc = .halted .assertion ∨
          t = s.submit config i rest data seed target clock accepted := by
  cases a with
  | iterate clock accepted =>
    simp only [IoState.handsOver] at h
    split at h
    · rename_i hpass
      split at h
      · cases h
      · rename_i i rest hready
        split at h
        · cases h
        · rename_i hlimit
          obtain ⟨⟨data, seed, target⟩, hfill, rfl⟩ := Option.map_eq_some_iff.mp h
          refine ⟨clock, accepted, i, rest, data, seed, target, rfl, hfill, rfl, fun t ht => ?_⟩
          by_cases hassert : config.assertions ∧ ¬accepted
          · simp only [step, hpass.1, if_true, IoState.iterate, hpass.2, hready, hlimit, if_false,
              hfill, if_pos hassert, Option.some.injEq] at ht
            exact Or.inl ⟨hassert.1, by simpa using hassert.2, by rw [← ht]; rfl⟩
          · simp only [step, hpass.1, if_true, IoState.iterate, hpass.2, hready, hlimit, if_false,
              hfill, if_neg hassert, Option.some.injEq] at ht
            exact Or.inr ht.symm
    · cases h
  | launch l => cases h
  | effect i k => cases h
  | reap i transfer now => cases h
  | waitReturn ok => cases h
  | finish now => cases h

/-- A running workload is at a place of its source, or the process has ended. -/
def AtSource (filesize : UInt64) (s : IoState γ) (source : γ × UInt64) : Prop :=
  (∃ reason, s.pc = .halted reason) ∨
    s.worker.filesize = filesize ∧ s.generator = source.1 ∧ s.worker.randomSeed = source.2

/-- A process that has ended hands nothing over, and it does not start again. -/
theorem halted_hands_nothing {s t : IoState γ} {a : Action γ} {reason : Halt}
    (hpc : s.pc = .halted reason) (hlaunch : ∀ l, a ≠ .launch l)
    (hstep : step config G s a = some t) :
    s.handsOver config G a = none ∧ t.pc = .halted reason := by
  cases a with
  | launch l => exact absurd rfl (hlaunch l)
  | effect i k =>
    simp only [step, Option.ite_none_right_eq_some, Option.some.injEq] at hstep
    obtain ⟨_, rfl⟩ := hstep
    exact ⟨rfl, (effect_pc s i k).trans hpc⟩
  | iterate clock accepted => simp [step, hpc] at hstep
  | reap i transfer now => simp [step, hpc] at hstep
  | waitReturn ok => simp [step, hpc] at hstep
  | finish now => simp [step, hpc] at hstep

/-- The random seed is not changed by a completion. -/
theorem advance_randomSeed (worker : IoWorker) (request : IoRequest) :
    (worker.advance request).randomSeed = worker.randomSeed := by
  unfold IoWorker.advance
  split <;> rfl

/-- A step of a running workload leaves its source alone, or hands over the next request. -/
theorem step_takesFrom {filesize : UInt64} {s : IoState γ} {a : Action γ}
    (hlaunch : ∀ l, a ≠ .launch l) :
    TakesFrom (step config G) (IoState.handsOver config G) (nextRequest config G filesize)
      IoRequest.SamePayload (AtSource filesize) s a := by
  intro t source hs hstep
  obtain ⟨reason, hpc⟩ | ⟨hfilesize, hgenerator, hseed⟩ := hs
  · obtain ⟨hnone, ht⟩ := halted_hands_nothing hpc hlaunch hstep
    exact Or.inl ⟨hnone, Or.inl ⟨reason, ht⟩⟩
  cases hsee : s.handsOver config G a with
  | some r =>
    obtain ⟨clock, accepted, i, rest, data, seed, target, rfl, hfill, rfl, hnext⟩ :=
      handsOver_eq_some hsee
    obtain ⟨hlike, hseed'⟩ := @prepareEntry_congr config s.worker (createWorker 0 filesize 0)
      (s.queue.ioaqes i) blankEntry seed target clock.preSubmission 0
    rw [hfilesize, hgenerator, hseed] at hfill
    refine Or.inr ⟨_, _, _, rfl, by rw [nextRequest, hfill]; rfl, hlike, ?_⟩
    obtain ⟨_, _, hhalted⟩ | rfl := hnext t hstep
    · exact Or.inl ⟨_, hhalted⟩
    · exact Or.inr ⟨by rw [submit_filesize, hfilesize], rfl, hseed'⟩
  | none =>
    -- Only a submission moves the generator or the seed.
    refine Or.inl ⟨rfl, ?_⟩
    cases step_next hstep with
    | start l queue hpc hcreate => exact absurd rfl (hlaunch l)
    | startFails l reason hreason => exact absurd rfl (hlaunch l)
    | timeout clock accepted hpc htime => exact Or.inr ⟨hfilesize, hgenerator, hseed⟩
    | sentinel clock accepted hpc hready => exact Or.inl ⟨_, rfl⟩
    | stop clock accepted i rest hpc hready hlimit => exact Or.inr ⟨hfilesize, hgenerator, hseed⟩
    | submitFails clock accepted reason hpc hreason => exact Or.inl ⟨_, rfl⟩
    | submit clock accepted i rest data seed target hpc htime hready hlimit hfill hassert =>
      simp [IoState.handsOver, hpc, htime, hready, hlimit, hfill] at hsee
    | effect i k hi hk =>
      refine Or.inr ⟨?_, ?_, ?_⟩
      · rw [effect_worker, hfilesize]
      · rw [effect_generator, hgenerator]
      · rw [effect_worker, hseed]
    | notify i transfer now caller events received oldActive block worker workload queue hpc hi
        hnotifies hnotify =>
      obtain ⟨_, ⟨_, _, rfl, _⟩ | ⟨_, rfl, _⟩⟩ := genericQueueNotify_ok hnotify
      · exact Or.inr ⟨hfilesize, hgenerator, hseed⟩
      · refine Or.inr ⟨?_, hgenerator, ?_⟩
        · exact (IoWorker.advance_sameSettings _ _).filesize.trans hfilesize
        · exact (advance_randomSeed _ _).trans hseed
    | notifyFails i transfer now reason hi hnotify => exact Or.inl ⟨_, rfl⟩
    | drop i transfer now caller events received oldActive block hpc hi hnotifies =>
      exact Or.inr ⟨hfilesize, hgenerator, hseed⟩
    | waitReturn ok caller events received oldActive block hpc hok =>
      exact Or.inr ⟨hfilesize, hgenerator, hseed⟩
    | finish now hpc => exact Or.inr ⟨hfilesize, hgenerator, hseed⟩

/-- What the platform accepts is what is handed over. -/
theorem step_submissions {s t : IoState γ} {a : Action γ} (hlaunch : ∀ l, a ≠ .launch l)
    (haccepted : ∀ clock accepted, a = .iterate clock accepted → accepted = true)
    (hstep : step config G s a = some t) :
    ∃ requests, t.device.submissions = s.device.submissions ++ requests ∧
      List.Forall₂ IoRequest.SamePayload requests (s.handsOver config G a).toList := by
  cases hsee : s.handsOver config G a with
  | some r =>
    obtain ⟨clock, accepted, i, rest, data, seed, target, rfl, hfill, rfl, hnext⟩ :=
      handsOver_eq_some hsee
    obtain rfl := haccepted clock accepted rfl
    obtain ⟨_, hrejected, _⟩ | rfl := hnext t hstep
    · cases hrejected
    · exact ⟨_, rfl, .cons ⟨rfl, rfl, rfl, fun _ _ _ => rfl⟩ .nil⟩
  | none =>
    refine ⟨[], ?_, .nil⟩
    rw [List.append_nil]
    cases step_next hstep with
    | start l queue hpc hcreate => exact absurd rfl (hlaunch l)
    | submit clock accepted i rest data seed target hpc htime hready hlimit hfill hassert =>
      simp [IoState.handsOver, hpc, htime, hready, hlimit, hfill] at hsee
    | effect i k hi hk => exact effect_submissions s i k
    | _ => rfl

/-- The log of the device is what is observed, when the platform accepts all requests. -/
theorem exec_submissions {s t : IoState γ} {as : List (Action γ)} (hone : ∀ l, .launch l ∉ as)
    (haccepted : ∀ clock accepted, .iterate clock accepted ∈ as → accepted = true)
    (hrun : exec (step config G) s as = some t) :
    ∃ requests, t.device.submissions = s.device.submissions ++ requests ∧
      List.Forall₂ IoRequest.SamePayload requests
        (observe (step config G) (IoState.handsOver config G) s as) := by
  induction as generalizing s with
  | nil =>
    cases hrun
    exact ⟨[], (List.append_nil _).symm, .nil⟩
  | cons a as ih =>
    obtain ⟨u, hu, hrest⟩ := exec_cons_eq_some.mp hrun
    obtain ⟨requests, hsubmissions, hlike⟩ := step_submissions
      (fun l h => hone l (h ▸ List.mem_cons_self))
      (fun clock accepted h => haccepted clock accepted (h ▸ List.mem_cons_self)) hu
    obtain ⟨requests', hsubmissions', hlike'⟩ := ih
      (fun l h => hone l (List.mem_cons_of_mem _ h))
      (fun clock accepted h => haccepted clock accepted (List.mem_cons_of_mem _ h)) hrest
    refine ⟨requests ++ requests', ?_, ?_⟩
    · rw [hsubmissions', hsubmissions, List.append_assoc]
    · rw [observe, hu]
      exact List.rel_append hlike hlike'

/-- **The request stream is reproducible.** Two runs of a workload on workers with the same random
seed and file size, with generators in the same state: the requests that are handed over at the same
place have the same offset, size and direction, and for writes the same words, whatever else
differs between the runs. -/
theorem request_stream_reproducible {s s' : IoState γ} {l l' : Launch γ} {queue queue' : AsyncQueue}
    {as as' : List (Action γ)} (hseed : s.worker.randomSeed = s'.worker.randomSeed)
    (hfilesize : l.filesize = l'.filesize) (hgenerator : l.generator = l'.generator)
    (hone : ∀ l, .launch l ∉ as) (hone' : ∀ l, .launch l ∉ as') {k : ℕ} {r r' : IoRequest}
    (hr : (observe (step config G) (IoState.handsOver config G) (s.start l queue) as)[k]? = some r)
    (hr' : (observe (step config G) (IoState.handsOver config G) (s'.start l' queue') as')[k]? =
      some r') : r.SamePayload r' := by
  have halike : ∀ a b c : IoRequest, a.SamePayload c → b.SamePayload c → a.SamePayload b := by
    intro a b c ha hb
    refine ⟨ha.offset.trans hb.offset.symm, ha.size.trans hb.size.symm,
      ha.write.trans hb.write.symm, fun hwrite n hn => ?_⟩
    have hsectors : a.sectors = b.sectors := by
      rw [IoRequest.sectors, ha.size, ← hb.size, IoRequest.sectors]
    rw [ha.words hwrite n hn, hb.words (by rw [hb.write, ← ha.write, hwrite]) n (hsectors ▸ hn)]
  have hsteps : ∀ (as : List (Action γ)), (∀ l, .launch l ∉ as) → ∀ s : IoState γ,
      Along (step config G) (TakesFrom (step config G) (IoState.handsOver config G)
        (nextRequest config G l.filesize) IoRequest.SamePayload (AtSource l.filesize)) s as :=
    fun as hone s => along_of_forall fun a ha t =>
      step_takesFrom fun l hlaunch => hone l (hlaunch ▸ ha)
  exact observe_alike halike (hsteps as hone (s.start l queue))
    (hsteps as' hone' (s'.start l' queue')) (x := (l.generator, s.worker.randomSeed))
    (Or.inr ⟨rfl, rfl, rfl⟩) (Or.inr ⟨hfilesize.symm, hgenerator.symm, hseed.symm⟩) hr hr'

/-- The two writes of `pairRun`, completed in one order and in the other. -/
theorem request_stream_reproducible_pair : ∃ r r',
    (observe (step ⟨false, .linux, 4096, true⟩ workloads)
      (IoState.handsOver ⟨false, .linux, 4096, true⟩ workloads) pairStart (pairRun 0 1))[1]? =
        some r ∧
    (observe (step ⟨false, .linux, 4096, true⟩ workloads)
      (IoState.handsOver ⟨false, .linux, 4096, true⟩ workloads) pairStart (pairRun 1 0))[1]? =
        some r' ∧ r.SamePayload r' := by
  refine ⟨_, _, rfl, rfl, ?_⟩
  exact @request_stream_reproducible _ ⟨false, .linux, 4096, true⟩ workloads pairInitial pairInitial
    pairLaunch pairLaunch pairQueue pairQueue (pairRun 0 1) (pairRun 1 0) rfl rfl rfl
    (by simp [pairRun]) (by simp [pairRun]) 1 _ _ rfl rfl

end DiskBench
