import Mathlib.Data.Nat.Notation
import Mathlib.Logic.Function.Basic

/-!
# Flat memories and blocks

A memory is a function from word addresses to words. Transfers move whole blocks
of `n` consecutive words, as a block device does with its sectors. The lemmas
say what every block of a memory holds after one block has been copied into it.
-/

namespace WordMemory

variable {W : Type*}

/-- The words of block `k`, counted from the start of the block. -/
def block (n : ℕ) (m : ℕ → W) (k : ℕ) : ℕ → W := fun w => m (n * k + w)

/-- A word of a block is a word of the memory. -/
theorem block_apply (n : ℕ) (m : ℕ → W) (k w : ℕ) : block n m k w = m (n * k + w) := rfl

/-- Copy block `ks` of `src` over block `kd` of `dst`. -/
def copyBlock (n : ℕ) (src : ℕ → W) (ks : ℕ) (dst : ℕ → W) (kd : ℕ) : ℕ → W := fun a =>
  if a / n = kd then src (n * ks + a % n) else dst a

/-- A word of the destination block is the corresponding word of the source block. -/
theorem block_copyBlock_self {n ks kd w : ℕ} {src dst : ℕ → W} (hw : w < n) :
    block n (copyBlock n src ks dst kd) kd w = block n src ks w := by
  have hdiv : (n * kd + w) / n = kd := by
    rw [Nat.mul_add_div (by omega), Nat.div_eq_of_lt hw, Nat.add_zero]
  have hmod : (n * kd + w) % n = w := by
    rw [Nat.mul_add_mod, Nat.mod_eq_of_lt hw]
  simp only [block, copyBlock, hdiv, hmod, if_true]

/-- Every other block keeps its words. -/
theorem block_copyBlock_of_ne {n ks kd k w : ℕ} {src dst : ℕ → W} (hk : k ≠ kd) (hw : w < n) :
    block n (copyBlock n src ks dst kd) k w = block n dst k w := by
  have hdiv : (n * k + w) / n = k := by
    rw [Nat.mul_add_div (by omega), Nat.div_eq_of_lt hw, Nat.add_zero]
  simp only [block, copyBlock, hdiv, if_neg hk]

/-- The words of a block after a copy, for all blocks at once. -/
theorem block_copyBlock {n ks kd k w : ℕ} {src dst : ℕ → W} (hw : w < n) :
    block n (copyBlock n src ks dst kd) k w =
      if k = kd then block n src ks w else block n dst k w := by
  by_cases hk : k = kd
  · subst hk
    rw [if_pos rfl, block_copyBlock_self hw]
  · rw [if_neg hk, block_copyBlock_of_ne hk hw]

end WordMemory
