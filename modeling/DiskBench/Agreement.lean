import DiskBench.Completion
import DiskBench.Device

/-!
# Agreement of the writer and the checker

What `generic_queue_write` puts into a sector is what `read_complete` expects there,
whichever writes the sectors of a read come from. Conversely a sector that keeps one
word of its chain and loses another is rejected.
-/

namespace DiskBench

open WordMemory

/-- Sector `n` of a file carries the pattern for its place. -/
def SectorCarries (writeRandom : Bool) (disk : Memory) (n : ℕ) : Prop :=
  CarriesPattern writeRandom (UInt64.ofNat (512 * n)) (block 64 disk n)

/-- The offset of a sector of an aligned request is its place in the file. -/
theorem IoRequest.Aligned.sectorOff_eq {r : IoRequest} (h : r.Aligned) (k : ℕ) :
    r.sectorOff k = UInt64.ofNat (512 * r.sectorAddr k) := by
  have hdvd := h.sectorOff_dvd k
  rw [IoRequest.sectorAddr, Nat.mul_div_cancel' hdvd, UInt64.ofNat_toNat]

/-- Storing a sector that carries the pattern keeps the pattern wherever it was
and puts it at the place of the stored sector. -/
theorem SectorCarries.store {writeRandom : Bool} {disk : Memory} {r : IoRequest} {k n : ℕ}
    (hr : r.Aligned)
    (hbuf : CarriesPattern writeRandom (r.sectorOff k) (block 64 r.buf k))
    (hn : SectorCarries writeRandom disk n ∨ n = r.sectorAddr k) :
    SectorCarries writeRandom (storeSector disk r k) n := by
  by_cases heq : n = r.sectorAddr k
  · rw [hr.sectorOff_eq, ← heq] at hbuf
    apply hbuf.congr
    intro w hw
    rw [storeSector, block_copyBlock hw, if_pos heq]
  · have hdisk : SectorCarries writeRandom disk n := hn.resolve_right heq
    apply CarriesPattern.congr hdisk
    intro w hw
    rw [storeSector, block_copyBlock hw, if_neg heq]

/-- Storing a filled request keeps the pattern wherever it was and puts it at the
place of each of its sectors. -/
theorem SectorCarries.storeRequest {writeRandom : Bool} {disk : Memory} {r : IoRequest} {n : ℕ}
    (hr : r.Aligned)
    (hbuf : ∀ k, k < r.sectors → CarriesPattern writeRandom (r.sectorOff k) (block 64 r.buf k))
    (hn : SectorCarries writeRandom disk n ∨ ∃ k, k < r.sectors ∧ n = r.sectorAddr k) :
    SectorCarries writeRandom (storeRequest disk r) n := by
  have hsectors : ∀ m, m ≤ r.sectors →
      (SectorCarries writeRandom disk n ∨ ∃ k, k < m ∧ n = r.sectorAddr k) →
      SectorCarries writeRandom (storeSectors disk r m) n := by
    intro m
    induction m with
    | zero =>
      rintro _ (hdisk | ⟨k, hk, _⟩)
      · exact hdisk
      · omega
    | succ m ih =>
      intro hm hn
      rw [storeSectors]
      apply SectorCarries.store hr (hbuf m (by omega))
      by_cases heq : n = r.sectorAddr m
      · exact Or.inr heq
      · left
        apply ih (by omega)
        rcases hn with hdisk | ⟨k, hk, hkn⟩
        · exact Or.inl hdisk
        · have hkm : k ≠ m := fun h => heq (h ▸ hkn)
          exact Or.inr ⟨k, by omega, hkn⟩
  exact hsectors r.sectors (Nat.le_refl _) hn

/-- Write requests handled one after the other: each one is filled with the worker's
seed and stored, and the seed it leaves is used for the next. -/
def writeAll (writeRandom : Bool) : List IoRequest → Memory → UInt64 → Memory × UInt64
  | [], disk, seed => (disk, seed)
  | r :: rs, disk, seed =>
    let (filled, seed) := fillBuffer writeRandom r seed
    writeAll writeRandom rs (storeRequest disk filled) seed

/-- After a sequence of aligned writes every sector of each of them carries the
pattern, and so does every sector that carried it before. -/
theorem writeAll_carries {writeRandom : Bool} {writes : List IoRequest} {disk : Memory}
    {seed : UInt64} {n : ℕ} (hwrites : ∀ r ∈ writes, r.Aligned)
    (hn : SectorCarries writeRandom disk n ∨
      ∃ r ∈ writes, ∃ k, k < r.sectors ∧ n = r.sectorAddr k) :
    SectorCarries writeRandom (writeAll writeRandom writes disk seed).1 n := by
  induction writes generalizing disk seed with
  | nil =>
    rcases hn with hdisk | ⟨r, hr, _⟩
    · exact hdisk
    · cases hr
  | cons r rs ih =>
    apply ih fun q hq => hwrites q (List.mem_cons_of_mem _ hq)
    have hr := hwrites r List.mem_cons_self
    have hstore : SectorCarries writeRandom disk n ∨ (∃ k, k < r.sectors ∧ n = r.sectorAddr k) →
        SectorCarries writeRandom (storeRequest disk (fillBuffer writeRandom r seed).1) n :=
      SectorCarries.storeRequest (r := (fillBuffer writeRandom r seed).1) ⟨hr.offset, hr.size⟩
        fun k hk => @fillBuffer_carries writeRandom r seed k hk
    rcases hn with hdisk | ⟨q, hq, k, hk, hkn⟩
    · exact Or.inl (hstore (Or.inl hdisk))
    · rcases List.mem_cons.mp hq with rfl | hq
      · exact Or.inl (hstore (Or.inr ⟨k, hk, hkn⟩))
      · exact Or.inr ⟨q, hq, k, hk, hkn⟩

/-- **The checker accepts what the writer wrote.** A read whose sectors below the
watermark were all written by a sequence of writes raises no integrity error. -/
theorem readComplete_accepts_written {writeRandom : Bool} {writes : List IoRequest}
    {disk : Memory} {seed : UInt64} {read : IoRequest} {worker : IoWorker}
    {workload : IoWorkload} {now : AprTime} (hwrites : ∀ r ∈ writes, r.Aligned)
    (hread : read.Aligned)
    (hwritten : ∀ k, k < read.sectors →
      read.sectorOff k < worker.lastIntegrityWrittenOffset →
      ∃ r ∈ writes, ∃ j, j < r.sectors ∧ read.sectorAddr k = r.sectorAddr j) :
    ∃ result, readComplete writeRandom worker workload
      (fetchRequest (writeAll writeRandom writes disk seed).1 read) now = .ok result := by
  obtain ⟨buf, hfetch, hblock⟩ :=
    fetchSectors_spec (writeAll writeRandom writes disk seed).1 read read.sectors
  rw [fetchRequest, hfetch]
  suffices hcheck : ∃ i, checkBuffer writeRandom (read.setBuf buf)
      worker.lastIntegrityWrittenOffset = .ok i from
    ⟨_, readComplete_ok_iff.mpr ⟨hcheck, rfl⟩⟩
  rw [checkBuffer_ok_iff]
  intro k hk hreach
  obtain ⟨r, hr, j, hj, haddr⟩ := hwritten k hk (hreach k (Nat.le_refl _))
  have hcarries := @writeAll_carries writeRandom writes disk seed (read.sectorAddr k) hwrites
    (Or.inr ⟨r, hr, j, hj, haddr⟩)
  have hoff : (read.setBuf buf).sectorOff k =
      UInt64.ofNat (512 * read.sectorAddr k) := hread.sectorOff_eq k
  rw [hoff]
  exact CarriesPattern.congr hcarries (hblock k hk)

/-- A write at offset 512 in random mode, read back together with the sector before it. -/
theorem readComplete_accepts_written_straddling : ∃ result, readComplete true
    ⟨1024, 4096, 4096, 4096, 1024, 88172645463325252, false⟩ ⟨0, .zero, .zero, 0, 0, 1, 0⟩
    (fetchRequest (writeAll true
      [⟨512, 512, fun _ => 0, 0, 4096, 0, 0, 0, true⟩,
        ⟨0, 512, fun _ => 0, 0, 4096, 0, 0, 0, true⟩]
      (fun _ => 0) 88172645463325252).1 ⟨0, 1024, fun _ => 0, 0, 4096, 0, 0, 0, false⟩) 0 =
      .ok result := by
  apply readComplete_accepts_written
  · intro r hr
    simp only [List.mem_cons, List.not_mem_nil, or_false] at hr
    rcases hr with rfl | rfl <;> exact ⟨by decide, by decide⟩
  · exact ⟨by decide, by decide⟩
  · intro k hk _
    have hk' : k < 2 := hk
    rcases (by omega : k = 0 ∨ k = 1) with rfl | rfl
    · exact ⟨_, List.mem_cons_of_mem _ List.mem_cons_self, 0, by decide, by decide⟩
    · exact ⟨_, List.mem_cons_self, 0, by decide, by decide⟩

/-- **Altered sectors are detected.** Take any sector of a filled write that lies below
the watermark, and any read that covers it. If the sector read differs from what was
written, but one of its words after the first does not, `read_complete` reports an
integrity error, whatever the other sectors of the read hold. -/
theorem readComplete_detects_altered {writeRandom : Bool} {written read : IoRequest}
    {seed : UInt64} {worker : IoWorker} {workload : IoWorkload} {now : AprTime} {j k : ℕ}
    (hj : j < written.sectors) (hk : k < read.sectors)
    (hplace : read.off.toNat + 512 * k = (written.sectorOff j).toNat)
    (hbelow : written.sectorOff j < worker.lastIntegrityWrittenOffset)
    (haltered : ∃ w, w < 64 ∧ block 64 read.buf k w ≠
      block 64 (fillBuffer writeRandom written seed).1.buf j w)
    (hkept : ∃ w, 1 ≤ w ∧ w < 64 ∧ block 64 read.buf k w =
      block 64 (fillBuffer writeRandom written seed).1.buf j w) :
    ∃ output, readComplete writeRandom worker workload read now = .error output := by
  have hlt := (written.sectorOff j).toNat_lt
  have hoff : ∀ i, i ≤ k → (read.sectorOff i).toNat = read.off.toNat + 512 * i := by
    intro i hi
    simp only [IoRequest.sectorOff, UInt64.toNat_add, UInt64.toNat_ofNat']
    omega
  have hsame : read.sectorOff k = written.sectorOff j :=
    UInt64.toNat_inj.mp ((hoff k (Nat.le_refl _)).trans hplace)
  refine readComplete_error_iff.mpr ⟨k, hk, fun i hi => ?_, fun hcarries => ?_⟩
  · rw [UInt64.lt_iff_toNat_lt] at hbelow ⊢
    rw [hoff i hi]
    omega
  · obtain ⟨c, hc, hc', hcommon⟩ := hkept
    obtain ⟨w, hw, hdiffer⟩ := haltered
    rw [hsame] at hcarries
    exact hdiffer (hcarries.eq_of_common_word (fillBuffer_carries hj) hc hc' hcommon w hw)

/-- A sector whose constant words survive but whose offset word is lost. -/
theorem readComplete_detects_lost_offset : ∃ output, readComplete false
    ⟨1024, 4096, 4096, 4096, 512, 1, false⟩ ⟨0, .zero, .zero, 0, 0, 1, 0⟩
    ⟨0, 512, fun w => if w = 0 then 7 else nonrandomConstant, 0, 4096, 0, 0, 0, false⟩ 0 =
      .error output :=
  @readComplete_detects_altered false ⟨0, 512, fun _ => 0, 0, 4096, 0, 0, 0, true⟩ _ 1 _ _ _ 0 0
    (by decide) (by decide) (by decide) (by decide) ⟨0, by decide, by decide⟩
    ⟨1, by decide, by decide, by decide⟩

end DiskBench
