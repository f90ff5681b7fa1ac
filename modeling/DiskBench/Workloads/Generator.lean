import Mathlib.Algebra.Group.Nat.Defs
import Mathlib.Data.Set.Insert
import DiskBench.Types

/-!
# Request generators

`struct io_workload_generator` with its opaque data as a type parameter. A generator
reads the file size and the random seed of the worker and sets offset, size and direction
of a request. A call that divides by zero traps; it has no result.
-/

namespace DiskBench

/-- The fields of a request that `fill_request` sets. -/
structure Target where
  offset : Int64
  size : UInt64
  write : Bool

/-- `struct io_workload_generator`. `fillRequest` returns the new generator data,
the new random seed of the worker and the fields of the request. -/
structure Generator (γ : Type) where
  fillRequest : γ → UInt64 → UInt64 → Option (γ × UInt64 × Target)
  maxIoSize : γ → UInt64

/-- The step of the generator data made by one call. The action is the worker's
random seed at that call, which data filling may have advanced in between. -/
def Generator.fillStep {γ : Type} (G : Generator γ) (filesize : UInt64) (data : γ)
    (seed : UInt64) : Option γ :=
  (G.fillRequest data filesize seed).map Prod.fst

/-- Every request that a generator produces from data with property `P` has one of the given sizes,
and the property is kept. A call may trap. -/
def Generator.Draws {γ : Type} (G : Generator γ) (sizes : Set UInt64) (P : γ → Prop) : Prop :=
  ∀ data filesize seed data' seed' target, P data →
    G.fillRequest data filesize seed = some (data', seed', target) → target.size ∈ sizes ∧ P data'

/-- A generator produces a request of `r` bytes from all data with property `P`, and its data then
have property `Q`. -/
def Generator.Produces {γ : Type} (G : Generator γ) (r : UInt64) (P Q : γ → Prop) : Prop :=
  ∀ data filesize seed, P data → ∃ data' seed' target,
    G.fillRequest data filesize seed = some (data', seed', target) ∧ target.size = r ∧ Q data'

/-- A generator that always produces requests of `r` bytes. -/
theorem Generator.Produces.draws {γ : Type} {G : Generator γ} {r : UInt64} {P : γ → Prop}
    (h : G.Produces r P P) : G.Draws {r} P := by
  intro data filesize seed data' seed' target hdata hfill
  obtain ⟨data'', seed'', target', hfill', hsize, hdata'⟩ := h data filesize seed hdata
  rw [hfill'] at hfill
  cases hfill
  exact ⟨hsize, hdata'⟩

/-- A request lies inside a file, in exact integers. -/
structure InsideFile (filesize : UInt64) (t : Target) : Prop where
  offset_nonneg : 0 ≤ t.offset
  size_pos : 1 ≤ t.size
  end_le : t.offset.toInt + t.size.toNat ≤ filesize.toNat

/-- A request is inside the file when its unsigned offset and size fit into a
file size that a signed offset can address. -/
theorem InsideFile.of_toNat {filesize x size : UInt64} {write : Bool} (hsize : 1 ≤ size.toNat)
    (hend : x.toNat + size.toNat ≤ filesize.toNat) (hfile : filesize.toNat < 2 ^ 63) :
    InsideFile filesize ⟨x.toInt64, size, write⟩ := by
  have hx : x.toInt64.toInt = x.toNat := toInt_toInt64 (by omega)
  refine ⟨?_, ?_, ?_⟩
  · rw [Int64.le_iff_toInt_le, hx]
    exact Int.natCast_nonneg _
  · rw [UInt64.le_iff_toNat_le]
    exact hsize
  · simp only [hx]
    omega

/-- A request inside a file ends inside it also as a range of unsigned offsets. -/
theorem InsideFile.range_le {filesize : UInt64} {t : Target} (h : InsideFile filesize t) :
    t.offset.toUInt64.toNat + t.size.toNat ≤ filesize.toNat := by
  have hnonneg := Int64.le_iff_toInt_le.mp h.offset_nonneg
  have hzero : (0 : Int64).toInt = 0 := by decide
  have hend := h.end_le
  have hlt := t.offset.toUInt64.toNat_lt
  have hcond : t.offset.toInt = if 2 * t.offset.toUInt64.toNat < 2 ^ 64 then
      (t.offset.toUInt64.toNat : ℤ) else (t.offset.toUInt64.toNat : ℤ) - (2 ^ 64 : ℕ) :=
    BitVec.toInt_eq_toNat_cond t.offset.toBitVec
  split at hcond <;> omega

/-- A block drawn at random ends where the last block does, or before. -/
theorem block_end_le (randomBase : UInt64) {blocks : UInt64} (hblocks : 1 ≤ blocks.toNat)
    (size : ℕ) : (randomBase % blocks).toNat * size + size ≤ blocks.toNat * size := by
  have hlt : (randomBase % blocks).toNat < blocks.toNat := by
    rw [UInt64.toNat_mod]
    exact Nat.mod_lt _ hblocks
  calc (randomBase % blocks).toNat * size + size
      = ((randomBase % blocks).toNat + 1) * size := by rw [Nat.add_mul, Nat.one_mul]
    _ ≤ blocks.toNat * size := Nat.mul_le_mul_right _ hlt

end DiskBench
