import DiskBench.Types

/-!
# The integrity pattern

`generic_queue_write` fills the buffer of a write with a pattern, one sector of
512 bytes after the other, and `read_complete` walks over the buffer of a read
and compares. Both loops are translated with the byte counter `i` of the source;
the pointer `buf` is always at word `i / 8`. The specification of both is
`CarriesPattern`, a property of the 64 words of one sector.
-/

namespace DiskBench

open WordMemory

/-- The inner loop of `generic_queue_write` with random writing on, with `n`
words left before the end of the sector. -/
def fillRandom : ℕ → ℕ → Memory → UInt64 → Memory × UInt64
  | 0, _, buf, seed => (buf, seed)
  | n + 1, p, buf, seed =>
    let value := randomUint64T seed
    fillRandom n (p + 1) (Function.update buf p value) value

/-- The inner loop of `generic_queue_write` with random writing off. -/
def fillConstant : ℕ → ℕ → Memory → Memory
  | 0, _, buf => buf
  | n + 1, p, buf => fillConstant n (p + 1) (Function.update buf p nonrandomConstant)

/-- The body of the outer loop of `generic_queue_write` at byte `i`. -/
def fillSector (writeRandom : Bool) (offset : UInt64) (i : ℕ) (buf : Memory) (seed : UInt64) :
    Memory × UInt64 :=
  let stop := i + 512
  let buf := Function.update buf (i / 8) (offset + UInt64.ofNat i)
  let i := i + 8
  if writeRandom then
    let buf := Function.update buf (i / 8) seed
    let i := i + 8
    fillRandom ((stop - i) / 8) (i / 8) buf seed
  else
    (fillConstant ((stop - i) / 8) (i / 8) buf, seed)

/-- The outer loop of `generic_queue_write` from byte `i` on. The number of
rounds bounds the loop; every round moves `i` by one sector. -/
def fillLoop (writeRandom : Bool) (offset size : UInt64) :
    ℕ → ℕ → Memory → UInt64 → Memory × UInt64
  | 0, _, buf, seed => (buf, seed)
  | rounds + 1, i, buf, seed =>
    if i < size.toNat then
      let (buf, seed) := fillSector writeRandom offset i buf seed
      fillLoop writeRandom offset size rounds (i + 512) buf seed
    else (buf, seed)

/-- The filling part of `generic_queue_write`: the request with its buffer
filled, and the worker's seed after it. -/
def fillBuffer (writeRandom : Bool) (request : IoRequest) (seed : UInt64) : IoRequest × UInt64 :=
  let filled := fillLoop writeRandom request.off request.size request.sectors 0 request.buf seed
  ({ request with buf := filled.1 }, filled.2)

/-- The inner loop of `read_complete` with random writing on, with `n` words
left before the end of the sector. -/
def checkRandom (buf : Memory) : ℕ → ℕ → UInt64 → Bool
  | 0, _, _ => true
  | n + 1, p, seed =>
    let tmp := randomUint64T seed
    if buf p ≠ tmp then false else checkRandom buf n (p + 1) tmp

/-- The inner loop of `read_complete` with random writing off. -/
def checkConstant (buf : Memory) : ℕ → ℕ → Bool
  | 0, _ => true
  | n + 1, p => if buf p ≠ nonrandomConstant then false else checkConstant buf n (p + 1)

/-- `integrity_error`: the text printed before the process exits with status 1,
after what the caller printed. -/
def integrityError (request : IoRequest) (printed : String) : String :=
  printed ++ "ERROR: Data integrity error at offset " ++ toString request.off.toNat ++
    ". Check your hardware/software!\n"

/-- The body of the outer loop of `read_complete` at byte `i`. An error is a
call of `integrity_error`, which does not return. -/
def checkSector (writeRandom : Bool) (request : IoRequest) (i : ℕ) (off : UInt64) :
    Except String Unit :=
  let stop := i + 512
  if request.buf (i / 8) ≠ off then .error (integrityError request "")
  else
    let i := i + 8
    if writeRandom then
      let seed := request.buf (i / 8)
      let i := i + 8
      if checkRandom request.buf ((stop - i) / 8) (i / 8) seed then .ok ()
      else .error (integrityError request "Random mismatch")
    else if checkConstant request.buf ((stop - i) / 8) (i / 8) then .ok ()
    else .error (integrityError request "")

/-- The outer loop of `read_complete` from byte `i` on. It returns the number of
bytes inspected. -/
def checkLoop (writeRandom : Bool) (request : IoRequest) (watermark : UInt64) :
    ℕ → ℕ → UInt64 → Except String ℕ
  | 0, i, _ => .ok i
  | rounds + 1, i, off =>
    if i < request.size.toNat ∧ off < watermark then
      match checkSector writeRandom request i off with
      | .error output => .error output
      | .ok () => checkLoop writeRandom request watermark rounds (i + 512)
          (request.off + UInt64.ofNat (i + 512))
    else .ok i

/-- The comparing part of `read_complete`. -/
def checkBuffer (writeRandom : Bool) (request : IoRequest) (watermark : UInt64) :
    Except String ℕ :=
  checkLoop writeRandom request watermark request.sectors 0 request.off

/-- The 64 words of a sector at byte offset `off` carry the pattern: the first
word is the offset; the rest is a seed with its successors, or the constant. -/
structure CarriesPattern (writeRandom : Bool) (off : UInt64) (words : ℕ → UInt64) : Prop where
  first : words 0 = off
  chain : writeRandom = true → ∀ j, 1 ≤ j → j < 63 → words (j + 1) = randomUint64T (words j)
  constant : writeRandom = false → ∀ j, 1 ≤ j → j < 64 → words j = nonrandomConstant

instance (writeRandom : Bool) (off : UInt64) (words : ℕ → UInt64) :
    Decidable (CarriesPattern writeRandom off words) :=
  decidable_of_iff (words 0 = off ∧
      (writeRandom = true → ∀ j, j < 63 → 1 ≤ j → words (j + 1) = randomUint64T (words j)) ∧
      (writeRandom = false → ∀ j, j < 64 → 1 ≤ j → words j = nonrandomConstant))
    ⟨fun h => ⟨h.1, fun hr j hj hj' => h.2.1 hr j hj' hj, fun hr j hj hj' => h.2.2 hr j hj' hj⟩,
      fun h => ⟨h.first, fun hr j hj' hj => h.chain hr j hj hj',
        fun hr j hj' hj => h.constant hr j hj hj'⟩⟩

/-- The pattern depends on the 64 words only. -/
theorem CarriesPattern.congr {writeRandom : Bool} {off : UInt64} {u v : ℕ → UInt64}
    (h : CarriesPattern writeRandom off u) (huv : ∀ w, w < 64 → v w = u w) :
    CarriesPattern writeRandom off v where
  first := by rw [huv 0 (by omega), h.first]
  chain hr j hj hj' := by rw [huv (j + 1) (by omega), huv j (by omega), h.chain hr j hj hj']
  constant hr j hj hj' := by rw [huv j hj', h.constant hr j hj hj']

/-- Two sectors with the pattern for the same offset that agree in one word
after the first agree in every word. Towards the end of the sector the chain
carries the agreement, towards its start the generator's injectivity does. -/
theorem CarriesPattern.eq_of_common_word {writeRandom : Bool} {off : UInt64} {u v : ℕ → UInt64}
    (hu : CarriesPattern writeRandom off u) (hv : CarriesPattern writeRandom off v) {c : ℕ}
    (hc : 1 ≤ c) (hc' : c < 64) (hcommon : u c = v c) : ∀ w, w < 64 → u w = v w := by
  intro w hw
  by_cases hzero : w = 0
  · rw [hzero, hu.first, hv.first]
  cases writeRandom with
  | false => rw [hu.constant rfl w (by omega) hw, hv.constant rfl w (by omega) hw]
  | true =>
    have hstep : ∀ j, 1 ≤ j → j < 63 → (u (j + 1) = v (j + 1) ↔ u j = v j) := by
      intro j hj hj'
      rw [hu.chain rfl j hj hj', hv.chain rfl j hj hj', randomUint64T_injective.eq_iff]
    have hfirst : ∀ d, 1 + d < 64 → (u (1 + d) = v (1 + d) ↔ u 1 = v 1) := by
      intro d
      induction d with
      | zero => intro _; exact Iff.rfl
      | succ d ih =>
        intro hd
        rw [← Nat.add_assoc, hstep (1 + d) (by omega) (by omega)]
        exact ih (by omega)
    have hseed : u 1 = v 1 := by
      have h := hfirst (c - 1) (by omega)
      rw [Nat.add_sub_of_le hc] at h
      exact h.mp hcommon
    have h := hfirst (w - 1) (by omega)
    rw [Nat.add_sub_of_le (by omega)] at h
    exact h.mpr hseed

/-- The random filling writes only the `n` words from `p` on. -/
theorem fillRandom_frame {n p : ℕ} {buf : Memory} {seed : UInt64} {a : ℕ}
    (ha : a < p ∨ p + n ≤ a) : (fillRandom n p buf seed).1 a = buf a := by
  induction n generalizing p buf seed with
  | zero => rfl
  | succ n ih =>
    rw [fillRandom, ih (by omega), Function.update_of_ne (by omega)]

/-- The random filling continues the chain that starts with its seed. -/
theorem fillRandom_chain {n p : ℕ} {buf : Memory} {seed : UInt64} (hseed : buf p = seed) {j : ℕ}
    (hj : j < n) :
    (fillRandom n (p + 1) buf seed).1 (p + j + 1) =
      randomUint64T ((fillRandom n (p + 1) buf seed).1 (p + j)) := by
  induction n generalizing p buf seed j with
  | zero => omega
  | succ n ih =>
    simp only [fillRandom]
    cases j with
    | zero =>
      simp only [Nat.add_zero]
      rw [fillRandom_frame (by omega), fillRandom_frame (by omega), Function.update_self,
        Function.update_of_ne (by omega), hseed]
    | succ j =>
      have hupdate : Function.update buf (p + 1) (randomUint64T seed) (p + 1) =
          randomUint64T seed := Function.update_self ..
      have h := ih hupdate (j := j) (by omega)
      have heq : p + (j + 1) = p + 1 + j := by omega
      rw [heq]
      exact h

/-- The constant filling writes the `n` words from `p` on. -/
theorem fillConstant_apply {n p : ℕ} {buf : Memory} {a : ℕ} :
    fillConstant n p buf a = if p ≤ a ∧ a < p + n then nonrandomConstant else buf a := by
  induction n generalizing p buf with
  | zero => rw [if_neg (by omega), fillConstant]
  | succ n ih =>
    rw [fillConstant, ih]
    by_cases hp : a = p
    · rw [if_neg (by omega), if_pos (by omega), hp, Function.update_self]
    · rw [Function.update_of_ne hp]
      exact if_congr (by omega) rfl rfl

/-- The random filling of sector `k`, with the word positions worked out. -/
theorem fillSector_random {offset : UInt64} {k : ℕ} {buf : Memory} {seed : UInt64} :
    fillSector true offset (512 * k) buf seed =
      fillRandom 62 (64 * k + 1 + 1) (Function.update
        (Function.update buf (64 * k) (offset + UInt64.ofNat (512 * k))) (64 * k + 1) seed)
        seed := by
  have h0 : 512 * k / 8 = 64 * k := by omega
  have h1 : (512 * k + 8) / 8 = 64 * k + 1 := by omega
  have h2 : (512 * k + 8 + 8) / 8 = 64 * k + 1 + 1 := by omega
  have hlen : (512 * k + 512 - (512 * k + 8 + 8)) / 8 = 62 := by omega
  simp only [fillSector, h0, h1, h2, hlen, if_true]

/-- The constant filling of sector `k`, with the word positions worked out. -/
theorem fillSector_constant {offset : UInt64} {k : ℕ} {buf : Memory} {seed : UInt64} :
    fillSector false offset (512 * k) buf seed =
      (fillConstant 63 (64 * k + 1)
        (Function.update buf (64 * k) (offset + UInt64.ofNat (512 * k))), seed) := by
  have h0 : 512 * k / 8 = 64 * k := by omega
  have h1 : (512 * k + 8) / 8 = 64 * k + 1 := by omega
  have hlen : (512 * k + 512 - (512 * k + 8)) / 8 = 63 := by omega
  simp only [fillSector, h0, h1, hlen, Bool.false_eq_true, if_false]

/-- Filling a sector leaves every other word unchanged. -/
theorem fillSector_frame {writeRandom : Bool} {offset : UInt64} {k : ℕ} {buf : Memory}
    {seed : UInt64} {a : ℕ} (ha : a < 64 * k ∨ 64 * k + 64 ≤ a) :
    (fillSector writeRandom offset (512 * k) buf seed).1 a = buf a := by
  cases writeRandom with
  | true =>
    rw [fillSector_random, fillRandom_frame (by omega), Function.update_of_ne (by omega),
      Function.update_of_ne (by omega)]
  | false =>
    simp only [fillSector_constant]
    rw [fillConstant_apply, if_neg (by omega), Function.update_of_ne (by omega)]

/-- A filled sector carries the pattern. -/
theorem fillSector_carries {writeRandom : Bool} {offset : UInt64} {k : ℕ} {buf : Memory}
    {seed : UInt64} :
    CarriesPattern writeRandom (offset + UInt64.ofNat (512 * k))
      (block 64 (fillSector writeRandom offset (512 * k) buf seed).1 k) := by
  cases writeRandom with
  | true =>
    rw [fillSector_random]
    constructor
    · simp only [block_apply, Nat.add_zero]
      rw [fillRandom_frame (by omega), Function.update_of_ne (by omega), Function.update_self]
    · intro _ j hj hj'
      obtain ⟨j, rfl⟩ : ∃ i, j = 1 + i := ⟨j - 1, by omega⟩
      have hupdate : Function.update
          (Function.update buf (64 * k) (offset + UInt64.ofNat (512 * k))) (64 * k + 1) seed
          (64 * k + 1) = seed := Function.update_self ..
      have h := fillRandom_chain (n := 62) hupdate (j := j) (by omega)
      simpa only [block_apply, Nat.add_assoc] using h
    · intro hr
      cases hr
  | false =>
    rw [fillSector_constant]
    constructor
    · simp only [block_apply, Nat.add_zero]
      rw [fillConstant_apply, if_neg (by omega), Function.update_self]
    · intro hr
      cases hr
    · intro _ j hj hj'
      simp only [block_apply]
      rw [fillConstant_apply, if_pos (by omega)]

/-- The filling loop writes only the sectors it visits. -/
theorem fillLoop_frame {writeRandom : Bool} {offset size : UInt64} {n k₀ : ℕ} {buf : Memory}
    {seed : UInt64} (hsize : 512 * (k₀ + n) < size.toNat + 512) {a : ℕ}
    (ha : a < 64 * k₀ ∨ 64 * (k₀ + n) ≤ a) :
    (fillLoop writeRandom offset size n (512 * k₀) buf seed).1 a = buf a := by
  induction n generalizing k₀ buf seed with
  | zero => rfl
  | succ n ih =>
    have hnext : 512 * k₀ + 512 = 512 * (k₀ + 1) := by omega
    rw [fillLoop, if_pos (by omega), hnext, ih (by omega) (by omega), fillSector_frame (by omega)]

/-- After the filling loop every sector it visits carries the pattern. -/
theorem fillLoop_carries {writeRandom : Bool} {offset size : UInt64} {n k₀ : ℕ} {buf : Memory}
    {seed : UInt64} (hsize : 512 * (k₀ + n) < size.toNat + 512) {k : ℕ} (hk : k₀ ≤ k)
    (hk' : k < k₀ + n) :
    CarriesPattern writeRandom (offset + UInt64.ofNat (512 * k))
      (block 64 (fillLoop writeRandom offset size n (512 * k₀) buf seed).1 k) := by
  induction n generalizing k₀ buf seed with
  | zero => omega
  | succ n ih =>
    have hnext : 512 * k₀ + 512 = 512 * (k₀ + 1) := by omega
    rw [fillLoop, if_pos (by omega), hnext]
    by_cases heq : k = k₀
    · subst heq
      apply fillSector_carries.congr
      intro w hw
      exact fillLoop_frame (by omega) (by omega)
    · exact ih (by omega) (by omega) (by omega)

/-- Without random writing the filling loop leaves the seed as it is. -/
theorem fillLoop_constant_seed {offset size : UInt64} {n i : ℕ} {buf : Memory} {seed : UInt64} :
    (fillLoop false offset size n i buf seed).2 = seed := by
  induction n generalizing i buf with
  | zero => rfl
  | succ n ih =>
    rw [fillLoop]
    split
    · exact ih
    · rfl

/-- The rounds of a request end with its last sector. -/
theorem IoRequest.sectors_spec (r : IoRequest) : 512 * r.sectors < r.size.toNat + 512 := by
  unfold IoRequest.sectors
  omega

/-- Sector `k` is touched by a request exactly when it starts inside it. -/
theorem IoRequest.lt_sectors_iff {r : IoRequest} {k : ℕ} :
    k < r.sectors ↔ 512 * k < r.size.toNat := by
  unfold IoRequest.sectors
  omega

/-- **The writer.** Every sector of a filled request carries the pattern. -/
theorem fillBuffer_carries {writeRandom : Bool} {request : IoRequest} {seed : UInt64} {k : ℕ}
    (hk : k < request.sectors) :
    CarriesPattern writeRandom (request.sectorOff k)
      (block 64 (fillBuffer writeRandom request seed).1.buf k) := by
  have hsize : 512 * (0 + request.sectors) < request.size.toNat + 512 := by
    have := request.sectors_spec
    omega
  exact @fillLoop_carries writeRandom request.off request.size request.sectors 0 request.buf seed
    hsize k (by omega) (by omega)

/-- The random comparison accepts exactly the chain that starts with its seed. -/
theorem checkRandom_iff {buf : Memory} {n p : ℕ} :
    checkRandom buf n (p + 1) (buf p) = true ↔
      ∀ j, j < n → buf (p + j + 1) = randomUint64T (buf (p + j)) := by
  induction n generalizing p with
  | zero => simp [checkRandom]
  | succ n ih =>
    simp only [checkRandom]
    by_cases hfirst : buf (p + 1) = randomUint64T (buf p)
    · rw [if_neg (not_not_intro hfirst), ← hfirst, ih]
      constructor
      · intro h j hj
        cases j with
        | zero => exact hfirst
        | succ j =>
          have hnext := h j (by omega)
          rwa [show p + 1 + j = p + (j + 1) by omega] at hnext
      · intro h j hj
        have hnext := h (j + 1) (by omega)
        rwa [show p + (j + 1) = p + 1 + j by omega] at hnext
    · rw [if_pos hfirst]
      exact ⟨fun h => (Bool.false_ne_true h).elim, fun h => (hfirst (h 0 (by omega))).elim⟩

/-- The constant comparison accepts exactly constant words. -/
theorem checkConstant_iff {buf : Memory} {n p : ℕ} :
    checkConstant buf n p = true ↔ ∀ a, p ≤ a → a < p + n → buf a = nonrandomConstant := by
  induction n generalizing p with
  | zero =>
    simp only [checkConstant, true_iff]
    omega
  | succ n ih =>
    simp only [checkConstant]
    by_cases hfirst : buf p = nonrandomConstant
    · rw [if_neg (not_not_intro hfirst), ih]
      constructor
      · intro h a ha ha'
        by_cases hap : a = p
        · rw [hap, hfirst]
        · exact h a (by omega) (by omega)
      · exact fun h a ha ha' => h a (by omega) (by omega)
    · rw [if_pos hfirst]
      exact ⟨fun h => (Bool.false_ne_true h).elim,
        fun h => (hfirst (h p (Nat.le_refl _) (by omega))).elim⟩

/-- The body of the comparing loop accepts exactly the sectors with the pattern. -/
theorem checkSector_ok_iff {writeRandom : Bool} {request : IoRequest} {k : ℕ} {off : UInt64} :
    checkSector writeRandom request (512 * k) off = .ok () ↔
      CarriesPattern writeRandom off (block 64 request.buf k) := by
  have h0 : 512 * k / 8 = 64 * k := by omega
  have h1 : (512 * k + 8) / 8 = 64 * k + 1 := by omega
  have h2 : (512 * k + 8 + 8) / 8 = 64 * k + 1 + 1 := by omega
  have hlen : (512 * k + 512 - (512 * k + 8)) / 8 = 63 := by omega
  have hlen' : (512 * k + 512 - (512 * k + 8 + 8)) / 8 = 62 := by omega
  simp only [checkSector, h0, h1, h2, hlen, hlen']
  by_cases hfirst : request.buf (64 * k) = off
  · rw [if_neg (not_not_intro hfirst)]
    cases writeRandom with
    | true =>
      have hiff : checkRandom request.buf 62 (64 * k + 1 + 1) (request.buf (64 * k + 1)) = true ↔
          CarriesPattern true off (block 64 request.buf k) := by
        rw [checkRandom_iff]
        constructor
        · intro h
          refine ⟨hfirst, fun _ j hj hj' => ?_, fun hr => (by cases hr)⟩
          obtain ⟨j, rfl⟩ : ∃ i, j = 1 + i := ⟨j - 1, by omega⟩
          simpa only [block_apply, Nat.add_assoc] using h j (by omega)
        · intro h j hj
          simpa only [block_apply, Nat.add_assoc] using
            h.chain rfl (1 + j) (by omega) (by omega)
      rw [if_pos rfl, ← hiff]
      split <;> simp_all
    | false =>
      have hiff : checkConstant request.buf 63 (64 * k + 1) = true ↔
          CarriesPattern false off (block 64 request.buf k) := by
        rw [checkConstant_iff]
        constructor
        · intro h
          exact ⟨hfirst, fun hr => (by cases hr), fun _ j hj hj' => h _ (by omega) (by omega)⟩
        · intro h a ha ha'
          obtain ⟨j, rfl⟩ : ∃ i, a = 64 * k + i := ⟨a - 64 * k, by omega⟩
          exact h.constant rfl j (by omega) (by omega)
      rw [if_neg (by decide), ← hiff]
      split <;> simp_all
  · rw [if_pos hfirst]
    exact ⟨fun h => (nomatch h), fun h => (hfirst h.first).elim⟩

/-- The comparing loop accepts exactly when every sector that it reaches carries
the pattern. It reaches a sector when no sector up to it lies at or above the watermark. -/
theorem checkLoop_ok_iff {writeRandom : Bool} {request : IoRequest} {watermark : UInt64}
    {n k₀ : ℕ} (hsize : 512 * (k₀ + n) < request.size.toNat + 512) :
    (∃ i, checkLoop writeRandom request watermark n (512 * k₀) (request.sectorOff k₀) = .ok i) ↔
      ∀ k, k₀ ≤ k → k < k₀ + n → (∀ j, k₀ ≤ j → j ≤ k → request.sectorOff j < watermark) →
        CarriesPattern writeRandom (request.sectorOff k) (block 64 request.buf k) := by
  induction n generalizing k₀ with
  | zero =>
    simp only [checkLoop]
    exact ⟨fun _ k hk hk' => by omega, fun _ => ⟨_, rfl⟩⟩
  | succ n ih =>
    have hnext : 512 * k₀ + 512 = 512 * (k₀ + 1) := by omega
    simp only [checkLoop, hnext]
    by_cases hbelow : request.sectorOff k₀ < watermark
    · rw [if_pos ⟨by omega, hbelow⟩]
      cases hsector : checkSector writeRandom request (512 * k₀) (request.sectorOff k₀) with
      | error output =>
        constructor
        · rintro ⟨i, hi⟩
          cases hi
        · intro h
          have hok := checkSector_ok_iff.mpr (h k₀ (Nat.le_refl _) (by omega) fun j hj hj' => by
            obtain rfl : j = k₀ := by omega
            exact hbelow)
          rw [hsector] at hok
          cases hok
      | ok u =>
        have hfirst := checkSector_ok_iff.mp hsector
        refine (@ih (k₀ + 1) (by omega)).trans ⟨fun h k hk hk' hreach => ?_,
          fun h k hk hk' hreach => ?_⟩
        · by_cases heq : k = k₀
          · rw [heq]
            exact hfirst
          · exact h k (by omega) (by omega) fun j hj hj' => hreach j (by omega) hj'
        · refine h k (by omega) (by omega) fun j hj hj' => ?_
          by_cases heq : j = k₀
          · rw [heq]
            exact hbelow
          · exact hreach j (by omega) hj'
    · rw [if_neg fun h => hbelow h.2]
      exact ⟨fun _ k hk hk' hreach => (hbelow (hreach k₀ (Nat.le_refl _) hk)).elim,
        fun _ => ⟨_, rfl⟩⟩

/-- The comparing loop stops at the first sector that does not lie below the watermark. -/
theorem checkLoop_ok_spec {writeRandom : Bool} {request : IoRequest} {watermark : UInt64}
    {n k₀ i : ℕ} (hsize : 512 * (k₀ + n) < request.size.toNat + 512)
    (hok : checkLoop writeRandom request watermark n (512 * k₀) (request.sectorOff k₀) = .ok i) :
    ∃ m, m ≤ n ∧ i = 512 * (k₀ + m) ∧
      (∀ k, k₀ ≤ k → k < k₀ + m → request.sectorOff k < watermark) ∧
      (m < n → ¬request.sectorOff (k₀ + m) < watermark) := by
  induction n generalizing k₀ with
  | zero =>
    cases hok
    exact ⟨0, Nat.le_refl _, rfl, fun k hk hk' => by omega, fun h => by omega⟩
  | succ n ih =>
    have hnext : 512 * k₀ + 512 = 512 * (k₀ + 1) := by omega
    simp only [checkLoop, hnext] at hok
    by_cases hbelow : request.sectorOff k₀ < watermark
    · rw [if_pos ⟨by omega, hbelow⟩] at hok
      split at hok
      · cases hok
      · obtain ⟨m, hm, rfl, hall, hstop⟩ := ih (by omega) hok
        refine ⟨m + 1, by omega, by omega, fun k hk hk' => ?_, fun h => ?_⟩
        · by_cases heq : k = k₀
          · rw [heq]
            exact hbelow
          · exact hall k (by omega) (by omega)
        · rw [show k₀ + (m + 1) = k₀ + 1 + m by omega]
          exact hstop (by omega)
    · rw [if_neg fun h => hbelow h.2] at hok
      cases hok
      exact ⟨0, by omega, rfl, fun k hk hk' => by omega, fun _ => hbelow⟩

/-- **The checker.** `read_complete` accepts a buffer exactly when every sector
that its loop reaches below the watermark carries the pattern. -/
theorem checkBuffer_ok_iff {writeRandom : Bool} {request : IoRequest} {watermark : UInt64} :
    (∃ i, checkBuffer writeRandom request watermark = .ok i) ↔
      ∀ k, k < request.sectors → (∀ j, j ≤ k → request.sectorOff j < watermark) →
        CarriesPattern writeRandom (request.sectorOff k) (block 64 request.buf k) := by
  have hsize : 512 * (0 + request.sectors) < request.size.toNat + 512 := by
    have := request.sectors_spec
    omega
  have hzero : request.sectorOff 0 = request.off := by simp [IoRequest.sectorOff]
  have h := @checkLoop_ok_iff writeRandom request watermark request.sectors 0 hsize
  simpa [hzero, checkBuffer] using h

/-- The checker inspects bytes past the end of the request exactly when the last sector is
incomplete and all sectors lie below the watermark. -/
theorem checkBuffer_ok_le_iff {writeRandom : Bool} {request : IoRequest} {watermark : UInt64}
    {i : ℕ} (hok : checkBuffer writeRandom request watermark = .ok i) :
    i ≤ request.size.toNat ↔
      512 ∣ request.size.toNat ∨ ∃ k, k < request.sectors ∧ ¬request.sectorOff k < watermark := by
  have hsize : 512 * (0 + request.sectors) < request.size.toNat + 512 := by
    have := request.sectors_spec
    omega
  have hzero : request.sectorOff 0 = request.off := by simp [IoRequest.sectorOff]
  rw [checkBuffer, ← hzero] at hok
  obtain ⟨m, hm, rfl, hbelow, hstop⟩ :=
    @checkLoop_ok_spec writeRandom request watermark request.sectors 0 i hsize hok
  rw [Nat.zero_add] at hbelow hstop ⊢
  rcases Nat.lt_or_eq_of_le hm with hlt | rfl
  · have hle := IoRequest.lt_sectors_iff.mp hlt
    exact ⟨fun _ => Or.inr ⟨m, hlt, hstop hlt⟩, fun _ => Nat.le_of_lt hle⟩
  · have hend : request.size.toNat ≤ 512 * request.sectors :=
      Nat.not_lt.mp fun hlt => Nat.lt_irrefl _ (IoRequest.lt_sectors_iff.mpr hlt)
    constructor
    · intro hle
      exact Or.inl ⟨request.sectors, Nat.le_antisymm hend hle⟩
    · rintro (⟨q, hq⟩ | ⟨k, hk, hnot⟩)
      · omega
      · exact absurd (hbelow k (Nat.zero_le k) hk) hnot

end DiskBench
