import Mathlib.Logic.Function.Iterate

/-!
# Exclusive-or with a shifted copy

The steps of an xorshift generator replace a word by its exclusive-or with a
shifted copy of itself. Each such step is a triangular system of bit equations:
every bit is combined with at most one other bit, which comes earlier in a fixed
order. A triangular system determines the word, so the step is injective. A generator
of such steps leaves 0 in place, and no other state ever comes to it.
-/

namespace XorShift

/-- A map on words is injective when bit `i` of its value is bit `i` of the
word combined with at most one other bit, and that bit has a smaller rank. -/
theorem injective_of_triangular {w : ℕ} {f : BitVec w → BitVec w} (mixes : ℕ → Bool)
    (source rank : ℕ → ℕ)
    (hbit : ∀ x i, i < w →
      (f x).getLsbD i = (x.getLsbD i ^^ (mixes i && x.getLsbD (source i))))
    (hrank : ∀ i, i < w → mixes i = true → source i < w → rank (source i) < rank i) :
    Function.Injective f := by
  intro x y hxy
  suffices hagree : ∀ r i, rank i = r → i < w → x.getLsbD i = y.getLsbD i from
    BitVec.eq_of_getLsbD_eq fun i hi => hagree _ i rfl hi
  intro r
  induction r using Nat.strongRecOn with
  | ind r ih =>
    rintro i rfl hi
    have hsource : (mixes i && x.getLsbD (source i)) = (mixes i && y.getLsbD (source i)) := by
      by_cases hmixes : mixes i = true
      · by_cases hw : source i < w
        · rw [ih _ (hrank i hi hmixes hw) _ rfl hw]
        · rw [BitVec.getLsbD_of_ge x _ (by omega), BitVec.getLsbD_of_ge y _ (by omega)]
      · simp [hmixes]
    have hsum := hbit x i hi
    rw [hxy, hbit y i hi, hsource] at hsum
    exact (Bool.xor_left_inj.mp hsum).symm

/-- Exclusive-or with a copy shifted to the left by a positive distance is injective. -/
theorem xor_shiftLeft_injective {w k : ℕ} (hk : 0 < k) :
    Function.Injective fun x : BitVec w => x ^^^ (x <<< k) := by
  apply injective_of_triangular (fun i => !decide (i < k)) (fun i => i - k) id
  · intro x i hi
    simp only [BitVec.getLsbD_xor, BitVec.getLsbD_shiftLeft, hi, decide_true, Bool.true_and]
  · intro i _ hmixes _
    have hki : k ≤ i := by simpa using hmixes
    simp only [id]
    omega

/-- Exclusive-or with a copy shifted to the right by a positive distance is injective. -/
theorem xor_ushiftRight_injective {w k : ℕ} (hk : 0 < k) :
    Function.Injective fun x : BitVec w => x ^^^ (x >>> k) := by
  apply injective_of_triangular (fun _ => true) (fun i => k + i) (fun i => w - i)
  · intro x i _
    simp
  · intro i _ _ hsource
    omega

/-- The iterates of an injective map do not come to a fixed point from elsewhere. -/
theorem iterate_ne_of_fixed {α : Type*} {f : α → α} (hf : Function.Injective f) {a x : α}
    (hfixed : f a = a) (hx : x ≠ a) (n : ℕ) : f^[n] x ≠ a := by
  intro h
  rw [← Function.iterate_fixed hfixed n] at h
  exact hx (hf.iterate n h)

end XorShift
