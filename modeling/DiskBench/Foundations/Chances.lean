import Mathlib.Data.Int.CardIntervalMod
import Mathlib.SetTheory.Cardinal.Finite

/-!
# Counting draws

How many words of a given length have a property. A permutation of the words changes no count, and
neither do its iterates: whatever is read off a later draw is as frequent as if it were read off the
first one. A word is a low and a high part, and what is asked of the two parts is independent.
-/

namespace Chances

section Permutation

variable {α : Type*} {f : α → α} {p : α → Prop}

/-- A permutation changes no count. -/
theorem card_comp (hf : Function.Bijective f) : Nat.card {x // p (f x)} = Nat.card {x // p x} :=
  Nat.card_congr ((Equiv.ofBijective f hf).subtypeEquiv fun _ => Iff.rfl)

/-- Two properties that exclude each other. -/
theorem card_or [Finite α] {q : α → Prop} (h : ∀ x, p x → ¬q x) :
    Nat.card {x // p x ∨ q x} = Nat.card {x // p x} + Nat.card {x // q x} := by
  classical
  have hdisjoint : Disjoint p q := Pi.disjoint_iff.mpr fun x => disjoint_iff_inf_le.mpr fun hpq =>
    h x hpq.1 hpq.2
  rw [Nat.card_congr (subtypeOrEquiv p q hdisjoint), Nat.card_sum]

/-- The words with a property, but for one. -/
theorem card_ne [Finite α] (z : α) (p : α → Prop) [Decidable (p z)] :
    Nat.card {y : {y // y ≠ z} // p y} + (if p z then 1 else 0) = Nat.card {y // p y} := by
  have hsingle : Nat.card {y // y = z ∧ p y} = if p z then 1 else 0 := by
    split
    next hp =>
      exact Nat.card_eq_one_iff_unique.mpr ⟨⟨fun a b => Subtype.ext (a.2.1.trans b.2.1.symm)⟩,
        ⟨z, rfl, hp⟩⟩
    next hp =>
      exact Nat.card_eq_zero.mpr (Or.inl ⟨fun a => hp (a.2.1 ▸ a.2.2)⟩)
  have hcases : ∀ y, p y ↔ y ≠ z ∧ p y ∨ y = z ∧ p y := by
    intro y
    by_cases hy : y = z <;> simp [hy]
  rw [Nat.card_congr (Equiv.subtypeEquivRight hcases), card_or fun y h h' => h.1 h'.1, hsingle,
    Nat.card_congr (Equiv.subtypeSubtypeEquivSubtypeInter (fun y => y ≠ z) p)]

/-- The words that are numbered are counted as numbers. -/
theorem card_eq_count {n : ℕ} (e : α ≃ Fin n) (q : ℕ → Prop) [DecidablePred q] :
    Nat.card {x // q (e x)} = Nat.count q n := by
  have hnumbers : Nat.card {x // q (e x)} = Nat.card {k : ℕ // k < n ∧ q k} := by
    refine Nat.card_congr ((e.subtypeEquiv (q := fun k : Fin n => q k) fun _ => Iff.rfl).trans ?_)
    exact Fin.equivSubtype.subtypeEquiv (fun _ => Iff.rfl) |>.trans
      (Equiv.subtypeSubtypeEquivSubtypeInter (fun k => k < n) q)
  rw [hnumbers, Nat.count_eq_card_filter_range]
  exact Nat.subtype_card _ fun k => by rw [Finset.mem_filter, Finset.mem_range]

end Permutation

section Count

variable {p q : ℕ → Prop} [DecidablePred p] [DecidablePred q] {a b m n : ℕ}

/-- The numbers with a remainder. -/
theorem count_mod {k : ℕ} (hk : k < b) :
    Nat.count (fun x => x % b = k) n = n / b + if k < n % b then 1 else 0 := by
  have hcount := Nat.count_modEq_card n (Nat.zero_lt_of_lt hk) k
  rw [Nat.mod_eq_of_lt hk] at hcount
  rw [← hcount]
  congr 1
  funext x
  rw [Nat.ModEq, Nat.mod_eq_of_lt hk]

/-- Conditions on the low part and on the high part of a number are independent. -/
theorem count_parts (hm : 0 < m) (n : ℕ) :
    Nat.count (fun x => p (x % m) ∧ q (x / m)) (m * n) = Nat.count p m * Nat.count q n := by
  induction n with
  | zero => simp
  | succ n ih =>
    have hblock : Nat.count (fun x => p ((m * n + x) % m) ∧ q ((m * n + x) / m)) m =
        if q n then Nat.count p m else 0 := by
      have hparts : ∀ x < m, (p ((m * n + x) % m) ∧ q ((m * n + x) / m)) ↔ p x ∧ q n := by
        intro x hx
        rw [Nat.mul_add_mod, Nat.mod_eq_of_lt hx, Nat.mul_add_div hm, Nat.div_eq_of_lt hx,
          Nat.add_zero]
      split
      next hq =>
        refine Nat.le_antisymm (Nat.count_mono_left fun x hx h => ((hparts x hx).mp h).1)
          (Nat.count_mono_left fun x hx h => (hparts x hx).mpr ⟨h, hq⟩)
      next hq =>
        exact Nat.count_iff_forall_not.mpr fun x hx h => hq ((hparts x hx).mp h).2
    rw [Nat.mul_succ, Nat.count_add, ih, hblock, Nat.count_succ]
    split
    · rw [Nat.mul_add, Nat.mul_one]
    · rw [Nat.add_zero, Nat.add_zero]

/-- Numbers below a bound. -/
theorem count_below (h : a ≤ n) : Nat.count (fun x => x < a ∧ p x) n = Nat.count p a := by
  obtain ⟨k, rfl⟩ := Nat.exists_eq_add_of_le h
  rw [Nat.count_add]
  have hfirst : Nat.count (fun x => x < a ∧ p x) a = Nat.count p a :=
    Nat.le_antisymm (Nat.count_mono_left fun x _ h => h.2)
      (Nat.count_mono_left fun x hx h => ⟨hx, h⟩)
  have hrest : Nat.count (fun x => a + x < a ∧ p (a + x)) k = 0 :=
    Nat.count_iff_forall_not.mpr fun x _ h => by omega
  rw [hfirst, hrest, Nat.add_zero]

/-- Numbers from a bound on. -/
theorem count_above (h : a ≤ n) :
    Nat.count (fun x => a ≤ x ∧ p x) n + Nat.count p a = Nat.count p n := by
  obtain ⟨k, rfl⟩ := Nat.exists_eq_add_of_le h
  rw [Nat.count_add, Nat.count_add p]
  have hfirst : Nat.count (fun x => a ≤ x ∧ p x) a = 0 :=
    Nat.count_iff_forall_not.mpr fun x hx h => by omega
  have hrest : Nat.count (fun x => a ≤ a + x ∧ p (a + x)) k = Nat.count (fun x => p (a + x)) k :=
    Nat.le_antisymm (Nat.count_mono_left fun x _ h => h.2)
      (Nat.count_mono_left fun x _ h => ⟨Nat.le_add_right a x, h⟩)
  omega

/-- The numbers of an interval. -/
theorem count_interval (hab : a ≤ b) (hb : b ≤ n) :
    Nat.count (fun x => a ≤ x ∧ x < b) n = b - a := by
  have habove := count_above (p := fun x => x < b) (hab.trans hb)
  have hall : ∀ {c}, c ≤ b → Nat.count (fun x => x < b) c = c := fun hc =>
    Nat.count_iff_forall.mpr fun x hx => hx.trans_le hc
  have htotal : Nat.count (fun x => x < b) n = b := by
    have hbelow := count_below (p := fun _ => True) hb
    simpa using hbelow
  rw [hall hab, htotal] at habove
  omega

end Count

end Chances
