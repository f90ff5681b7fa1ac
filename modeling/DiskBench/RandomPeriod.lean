import Mathlib.Data.List.Prime
import Mathlib.Tactic.NormNum.Prime
import DiskBench.Foundations.Orbit
import DiskBench.Foundations.XorLinear
import DiskBench.RandomBlocks

/-!
# The period of the random generator

`random_uint64_t` is linear for the exclusive or, so its iterates with large numbers can be
computed. They show that it runs through all words but 0 before it repeats, from every seed but 0,
and so the counts over all seeds are counts over the requests of one long run.
-/

namespace DiskBench

open Chances Function Transition XorLinear

/-- `random_uint64_t` on numbers. -/
def randomWord (x : ℕ) : ℕ := (randomUint64T (UInt64.ofNat x)).toNat

theorem xorShiftLeft_xor (k x y : UInt64) :
    x ^^^ y ^^^ (x ^^^ y) <<< k = (x ^^^ x <<< k) ^^^ (y ^^^ y <<< k) := by
  rw [UInt64.shiftLeft_xor]
  ac_rfl

theorem xorShiftRight_xor (k x y : UInt64) :
    x ^^^ y ^^^ (x ^^^ y) >>> k = (x ^^^ x >>> k) ^^^ (y ^^^ y >>> k) := by
  rw [UInt64.shiftRight_xor]
  ac_rfl

theorem randomUint64T_xor (x y : UInt64) :
    randomUint64T (x ^^^ y) = randomUint64T x ^^^ randomUint64T y := by
  unfold randomUint64T
  dsimp only
  rw [xorShiftLeft_xor 13 x y, xorShiftRight_xor 7, xorShiftLeft_xor 17]

theorem randomWord_linear : Linear 64 randomWord where
  xor x y := by
    rw [randomWord, UInt64.ofNat_xor, randomUint64T_xor, UInt64.toNat_xor]
    rfl
  lt x := UInt64.toNat_lt _

theorem randomWord_iterate (seed : UInt64) (n : ℕ) :
    randomWord^[n] seed.toNat = (randomUint64T^[n] seed).toNat := by
  have hsemiconj : Semiconj UInt64.toNat randomUint64T randomWord := by
    intro seed
    rw [randomWord, UInt64.ofNat_toNat]
  exact (hsemiconj.iterate_right n seed).symm

/-- The prime divisors of `2 ^ 64 - 1`. -/
def periodDivisors : List ℕ := [3, 5, 17, 257, 641, 65537, 6700417]

theorem prime_of_periodDivisors : ∀ p ∈ periodDivisors, p.Prime := by
  simp only [periodDivisors, List.mem_cons, List.not_mem_nil, or_false, forall_eq_or_imp,
    forall_eq]
  norm_num

theorem mem_periodDivisors {p : ℕ} (hp : p.Prime) (hdvd : p ∣ 2 ^ 64 - 1) :
    p ∈ periodDivisors := by
  have hproduct : 2 ^ 64 - 1 = periodDivisors.prod := by decide
  rw [hproduct] at hdvd
  obtain ⟨q, hq, hpq⟩ := (Prime.dvd_prod_iff hp.prime).mp hdvd
  rwa [(Nat.prime_dvd_prime_iff_eq hp (prime_of_periodDivisors q hq)).mp hpq]

/-- The seed of `create_worker` comes back after `2 ^ 64 - 1` draws, and not after a quotient of
this number by a prime. -/
theorem power_seed :
    power 64 (columns 64 randomWord) (2 ^ 64 - 1) 88172645463325252 = 88172645463325252 ∧
      ∀ p ∈ periodDivisors, power 64 (columns 64 randomWord) ((2 ^ 64 - 1) / p)
        88172645463325252 ≠ 88172645463325252 := by
  decide +kernel

theorem minimalPeriod_createSeed :
    minimalPeriod randomUint64T 88172645463325252 = 2 ^ 64 - 1 := by
  have hiterate : ∀ n < 2 ^ 64, power 64 (columns 64 randomWord) n 88172645463325252 =
      (randomUint64T^[n] 88172645463325252).toNat := by
    intro n hn
    rw [← randomWord_iterate]
    exact randomWord_linear.power_eq hn (by decide)
  refine Orbit.minimalPeriod_eq ?_ fun p hp hdvd hperiod => ?_
  · apply UInt64.toNat_inj.mp
    rw [← hiterate _ (by decide), power_seed.1]
    rfl
  · have hlt : (2 ^ 64 - 1) / p < 2 ^ 64 := (Nat.div_le_self _ p).trans_lt (by decide)
    refine power_seed.2 p (mem_periodDivisors hp hdvd) ?_
    rw [hiterate _ hlt, hperiod]
    rfl

theorem card_words : Nat.card UInt64 = 2 ^ 64 - 1 + 1 :=
  (Nat.card_congr wordEquiv).trans (Nat.card_fin _)

theorem minimalPeriod_randomUint64T {seed : UInt64} (hseed : seed ≠ 0) :
    minimalPeriod randomUint64T seed = 2 ^ 64 - 1 := by
  have hfinite : Finite UInt64 := Finite.of_equiv _ wordEquiv.symm
  rw [Orbit.minimalPeriod_eq_of_ne randomUint64T_injective randomUint64T_zero
    (by decide : (88172645463325252 : UInt64) ≠ 0)
    (by rw [minimalPeriod_createSeed, card_words]) hseed, minimalPeriod_createSeed]

/-- **The generator has the full period**: from every seed but 0 it runs through all words but 0,
each of them once, before it repeats. -/
theorem random_uint64_t_period {seed : UInt64} (hseed : seed ≠ 0) :
    minimalPeriod randomUint64T seed = 2 ^ 64 - 1 ∧
      ∀ word : UInt64, word ≠ 0 → ∃! n, n < 2 ^ 64 - 1 ∧ randomUint64T^[n] seed = word := by
  have hfinite : Finite UInt64 := Finite.of_equiv _ wordEquiv.symm
  have hperiod := minimalPeriod_randomUint64T hseed
  refine ⟨hperiod, fun word hword => ?_⟩
  rw [← hperiod]
  exact Orbit.existsUnique_iterate randomUint64T_injective randomUint64T_zero hseed
    (by rw [hperiod, card_words]) hword

/-- The seed of a new worker. -/
theorem random_uint64_t_period_worker :
    minimalPeriod randomUint64T 88172645463325252 = 2 ^ 64 - 1 :=
  (random_uint64_t_period (by decide)).1

/-- **Over a period every block is taken equally often.** The seed of a worker is one fixed number,
but as its generator has the full period, each of its requests of the random workload takes its
block as if the seed were arbitrary: among `2 ^ 64 - 1` requests in a row each block is taken as
often as the number of blocks fits into the number of words, up to one request, and the first block
once less. This holds unless the number of draws for a request has a divisor in common with the
period. -/
theorem random_blocks_over_period {filesize seed : UInt64} {data : RandomData} {write : Bool}
    {reqsize : UInt64} (hpos : 1 ≤ reqsize.toNat) (hle : reqsize.toNat ≤ filesize.toNat)
    (hfile : filesize.toNat < 2 ^ 63)
    (hreset : randomReset (randomFactory write) filesize reqsize = some data) (config : Config)
    (hcoprime : Nat.Coprime (2 ^ 64 - 1) (dataDraws config write reqsize + 1)) (hseed : seed ≠ 0)
    {k : ℕ} (hk : k < filesize.toNat / reqsize.toNat) :
    Nat.card {n : Fin (2 ^ 64 - 1) // ∃ r, supply (nextRequest config workloads filesize)
        (.random data, seed) n = some r ∧ r.off.toNat = k * reqsize.toNat} +
        (if k = 0 then 1 else 0) =
      2 ^ 64 / (filesize.toNat / reqsize.toNat) +
        if k < 2 ^ 64 % (filesize.toNat / reqsize.toNat) then 1 else 0 := by
  have hfinite : Finite UInt64 := Finite.of_equiv _ wordEquiv.symm
  have hfirst : randomUint64T seed ≠ 0 :=
    XorShift.iterate_ne_of_fixed randomUint64T_injective randomUint64T_zero hseed 1
  have hinjective : Injective randomUint64T^[dataDraws config write reqsize + 1] :=
    randomUint64T_injective.iterate _
  have hfixed : randomUint64T^[dataDraws config write reqsize + 1] 0 = 0 :=
    iterate_fixed randomUint64T_zero _
  have hperiod : minimalPeriod randomUint64T^[dataDraws config write reqsize + 1]
      (randomUint64T seed) = 2 ^ 64 - 1 := by
    rw [minimalPeriod_iterate_eq_div_gcd (Nat.succ_ne_zero _),
      minimalPeriod_randomUint64T hfirst, hcoprime.gcd_eq_one, Nat.div_one]
  have hblock : ∀ n : Fin (2 ^ 64 - 1), (∃ r, supply (nextRequest config workloads filesize)
      (.random data, seed) n = some r ∧ r.off.toNat = k * reqsize.toNat) ↔
      ((randomUint64T^[dataDraws config write reqsize + 1])^[n] (randomUint64T seed)).toNat %
        (filesize.toNat / reqsize.toNat) = k := by
    intro n
    rw [supply_block hpos hle hfile hreset config seed n k, iterate_succ_apply, Nat.mul_comm,
      iterate_mul]
  have hzero : (0 : UInt64).toNat % (filesize.toNat / reqsize.toNat) = k ↔ k = 0 := by
    rw [UInt64.toNat_zero, Nat.zero_mod, eq_comm]
  rw [Nat.card_congr (Equiv.subtypeEquivRight hblock),
    Orbit.card_period hinjective hfixed hfirst (by rw [hperiod, card_words]) hperiod
      fun word => word.toNat % (filesize.toNat / reqsize.toNat) = k,
    ← card_word_mod hk, ← card_ne 0 fun word : UInt64 => word.toNat %
      (filesize.toNat / reqsize.toNat) = k]
  simp only [hzero]

/-- The reads of a new worker on a file of three sectors, over a period. -/
theorem random_blocks_over_period_three :
    Nat.card {n : Fin (2 ^ 64 - 1) // ∃ r, supply
        (nextRequest ⟨false, .linux, 4096, true⟩ workloads 1536)
        (.random ⟨false, 3, 512⟩, 88172645463325252) n = some r ∧ r.off.toNat = 0} + 1 =
      6148914691236517206 :=
  @random_blocks_over_period 1536 88172645463325252 ⟨false, 3, 512⟩ false 512 (by decide)
    (by decide) (by decide) rfl ⟨false, .linux, 4096, true⟩ (by decide) (by decide) 0 (by decide)

end DiskBench
