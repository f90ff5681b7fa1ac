import DiskBench.Integrity

/-!
# Writes that get lost

The pattern of a sector depends on its offset, and with random writing on a seed that the sector
itself holds. So a device that loses a sector of a write leaves an older pattern behind, if there
has been one, and no read can tell the difference.
-/

namespace DiskBench

open Transition

variable {γ : Type} {config : Config} {G : Generator γ}

/-- The actions of a worker on a device that loses sectors. -/
inductive LossyAction (γ : Type) where
  | keeps (a : Action γ)
  /-- Sector `k` of the write of entry `i` is reported as written, and the file stays as it is. -/
  | loses (i k : ℕ)

/-- One action of a worker on such a device. -/
def lossyStep (config : Config) (G : Generator γ) (s : IoState γ) :
    LossyAction γ → Option (IoState γ)
  | .keeps a => step config G s a
  | .loses i k =>
    if i ∈ s.device.inflight ∧ k < (s.queue.ioaqes i).request.sectors ∧ ¬s.device.served i k ∧
        (s.queue.ioaqes i).request.write then
      some { s with device := s.device.serve i k }
    else none

/-- What the device keeps is right, and what it loses is written over an older pattern. -/
def LosesRewrites (config : Config) (s : IoState γ) : LossyAction γ → Prop
  | .keeps a => CorrectDevice s a
  | .loses i k => SectorCarries config.writeRandom s.device.disk
      ((s.queue.ioaqes i).request.sectorAddr k)

instance (config : Config) (s : IoState γ) : ∀ a, Decidable (LosesRewrites config s a)
  | .keeps a => inferInstanceAs (Decidable (CorrectDevice s a))
  | .loses _ _ => inferInstanceAs (Decidable (CarriesPattern _ _ _))

/-- A condition on the actions in which nothing is lost. -/
def Keeping (P : IoState γ → Action γ → Prop) (s : IoState γ) : LossyAction γ → Prop
  | .keeps a => P s a
  | .loses _ _ => True

instance (P : IoState γ → Action γ → Prop) [∀ s a, Decidable (P s a)] (s : IoState γ) :
    ∀ a, Decidable (Keeping P s a)
  | .keeps a => inferInstanceAs (Decidable (P s a))
  | .loses _ _ => isTrue trivial

/-- A lost sector leaves a request sound where the file has carried the pattern before. -/
theorem Sound.lose {writeRandom : Bool} {disk : Memory} {watermark : UInt64} {r : IoRequest}
    {served served' : ℕ → Bool} {k : ℕ} (h : Sound writeRandom disk watermark r served)
    (hwrite : r.write = true) (hcarries : SectorCarries writeRandom disk (r.sectorAddr k))
    (hserved : ∀ n, served' n = true → served n = true ∨ n = k) :
    Sound writeRandom disk watermark r served' where
  aligned := h.aligned
  filled := h.filled
  stored _ n hn hs := by
    rcases hserved n hs with hold | rfl
    · exact h.stored hwrite n hn hold
    · exact hcarries
  fetched hread := by
    rw [hwrite] at hread
    cases hread

theorem IntegrityInv.lose {s : IoState γ} {i k : ℕ} (h : IntegrityInv config s)
    (hwrite : (s.queue.ioaqes i).request.write = true)
    (hcarries : SectorCarries config.writeRandom s.device.disk
      ((s.queue.ioaqes i).request.sectorAddr k)) :
    IntegrityInv config { s with device := s.device.serve i k } where
  distinct := h.distinct
  callback := h.callback
  disk := h.disk
  sound j hj := by
    by_cases hji : j = i
    · subst hji
      refine (h.sound j hj).lose hwrite hcarries fun n hn => ?_
      exact (Device.serve_eq_true_iff j k).mp hn |>.imp_right And.right
    · have hsame : (s.device.serve i k).served j = s.device.served j := Function.update_of_ne hji ..
      show Sound _ _ _ _ ((s.device.serve i k).served j)
      rw [hsame]
      exact h.sound j hj

/-- **Lost rewrites stay unnoticed.** Let the watermark be 0 at the start, let the requests be for
whole sectors, and let no write complete that moves the watermark over a sector without the pattern
which a read in flight has fetched: these are the conditions under which a device that loses nothing
raises no false alarm. Then on a device that may at any time lose a sector of a write, as long as
the file already carries the pattern there, a worker raises no integrity error: neither when the
write completes nor in any read after it. -/
theorem lost_rewrites_unnoticed {worker : IoWorker} {generator : γ} {disk : Memory}
    {as : List (LossyAction γ)} {t : IoState γ} (hzero : worker.lastIntegrityWrittenOffset = 0)
    (hrun : exec (lossyStep config G) (IoState.initial worker generator disk) as = some t)
    (hlosses : Along (lossyStep config G) (LosesRewrites config)
      (IoState.initial worker generator disk) as)
    (haligned : Along (lossyStep config G) (Keeping (AlignedRequests G))
      (IoState.initial worker generator disk) as)
    (hstale : Along (lossyStep config G) (Keeping (NoStaleRead config))
      (IoState.initial worker generator disk) as) (output : String) :
    t.pc ≠ .halted (.integrityError output) := by
  have hinv : IntegrityInv config t ∧ t.pc ≠ .halted (.integrityError output) := by
    apply exec_invariant (I := fun s => IntegrityInv config s ∧
      s.pc ≠ .halted (.integrityError output)) _ hrun
      (along_and.mpr ⟨hlosses, along_and.mpr ⟨haligned, hstale⟩⟩)
    · exact ⟨IntegrityInv.initial hzero, fun hpc => by cases hpc⟩
    · rintro s a t hs ⟨hloss, haligned, hstale⟩ hstep
      cases a with
      | keeps a =>
        refine ⟨hs.1.of_step hloss haligned hstale hstep, fun ht => ?_⟩
        obtain ⟨i, transfer, now, rfl, hi, hnotify⟩ := step_alarm hs.2 hstep ht
        exact hs.1.notifies hi hloss.2 hnotify
      | loses i k =>
        simp only [lossyStep, Option.ite_none_right_eq_some, Option.some.injEq] at hstep
        obtain ⟨⟨_, _, _, hwrite⟩, rfl⟩ := hstep
        exact ⟨hs.1.lose hwrite hloss, hs.2⟩
  exact hinv.2

/-- The only write to a file of one sector is lost, and the file is read. -/
def lostRewrite : List (LossyAction GeneratorData) :=
  [.keeps (.launch ⟨.sequential ⟨true, 0, 512⟩, 1, 512, 512, 10, fun _ _ => 0, true, 0⟩),
    .keeps (.iterate ⟨1, 1, 1⟩ true), .loses 0 0, .keeps (.reap 0 .full 2),
    .keeps (.waitReturn true), .keeps (.iterate ⟨3, 3, 3⟩ true), .keeps (.finish 4),
    .keeps (.launch ⟨.sequential ⟨false, 0, 512⟩, 1, 512, 512, 10, fun _ _ => 0, true, 5⟩),
    .keeps (.iterate ⟨6, 6, 6⟩ true), .keeps (.effect 0 0), .keeps (.reap 0 .full 7)]

/-- A file from an earlier test, which carries the pattern. -/
def writtenBefore : Memory := fun a => if a = 0 then 0 else nonrandomConstant

/-- The read accepts what the earlier test has left. -/
theorem lost_rewrites_unnoticed_sector : ∃ t,
    exec (lossyStep ⟨false, .linux, 4096, true⟩ workloads)
      (IoState.initial ⟨0, 8192, 0, 0, 0, 88172645463325252, true⟩ (.sequential ⟨true, 0, 512⟩)
        writtenBefore) lostRewrite = some t ∧ t.pc ≠ .halted (.integrityError "") := by
  have hrun : exec (lossyStep ⟨false, .linux, 4096, true⟩ workloads)
    (IoState.initial ⟨0, 8192, 0, 0, 0, 88172645463325252, true⟩ (.sequential ⟨true, 0, 512⟩)
      writtenBefore) lostRewrite = some _ := rfl
  exact ⟨_, hrun, lost_rewrites_unnoticed rfl hrun (by decide) (by decide) (by decide) ""⟩

end DiskBench
