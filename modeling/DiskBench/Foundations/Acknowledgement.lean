import Mathlib.Data.List.Perm.Basic
import Mathlib.Data.List.Range
import DiskBench.Foundations.Coverage
import DiskBench.Foundations.Transition

/-!
# Cumulative acknowledgement

Numbered items are issued in order and acknowledged in any order. A mark that moves only when
the item at the mark is acknowledged counts the items of an initial segment that has been
acknowledged. It is the longest such segment only while the acknowledgements come in order.
-/

namespace Acknowledgement

open Transition Coverage

/-- The items issued so far, those still in flight, those acknowledged, and the mark. -/
structure Window where
  issued : ℕ
  /-- Oldest item first. -/
  flying : List ℕ
  acked : List ℕ
  mark : ℕ

/-- The two operations on a window. -/
inductive Op where
  | issue
  | ack (k : ℕ)

/-- The window before the first item. -/
def Window.empty : Window := ⟨0, [], [], 0⟩

/-- Issue the next item, or acknowledge one that is in flight. -/
def Window.step (w : Window) : Op → Option Window
  | .issue => some { w with issued := w.issued + 1, flying := w.flying ++ [w.issued] }
  | .ack k =>
    if k ∈ w.flying then some { w with
      flying := w.flying.erase k
      acked := w.acked ++ [k]
      mark := if k = w.mark then k + 1 else w.mark }
    else none

/-- The oldest item in flight is acknowledged first. -/
def InOrder (w : Window) : Op → Prop
  | .issue => True
  | .ack k => w.flying.head? = some k

/-- Every issued item is either acknowledged or in flight, and the items below the mark are
acknowledged. -/
structure Window.Valid (w : Window) : Prop where
  perm : (w.acked ++ w.flying).Perm (List.range w.issued)
  below : ∀ k, k < w.mark → k ∈ w.acked

/-- The acknowledged items are exactly those below the mark. -/
structure Window.Exact (w : Window) : Prop where
  acked : w.acked = List.range w.mark
  flying : w.flying = List.range' w.mark (w.issued - w.mark)
  mark_le : w.mark ≤ w.issued

/-- Some item at the mark or behind it has been acknowledged. -/
def Window.Stuck (w : Window) : Prop := ∃ k ∈ w.acked, w.mark ≤ k

theorem Window.Valid.empty : Window.empty.Valid :=
  ⟨List.Perm.refl _, fun k hk => absurd hk (Nat.not_lt_zero k)⟩

theorem Window.Exact.empty : Window.empty.Exact := ⟨rfl, rfl, Nat.le_refl 0⟩

/-- An item in flight has not been acknowledged. -/
theorem Window.Valid.not_acked {w : Window} (h : w.Valid) {k : ℕ} (hk : k ∈ w.flying) :
    k ∉ w.acked := by
  have hnodup := h.perm.nodup_iff.mpr List.nodup_range
  exact fun hmem => (List.nodup_append.mp hnodup).2.2 k hmem k hk rfl

/-- Every operation keeps a window valid. -/
theorem Window.Valid.step {w w' : Window} {op : Op} (h : w.Valid)
    (hstep : w.step op = some w') : w'.Valid := by
  cases op with
  | issue =>
    cases hstep
    refine ⟨?_, h.below⟩
    show (w.acked ++ (w.flying ++ [w.issued])).Perm (List.range (w.issued + 1))
    rw [← List.append_assoc, List.range_succ]
    exact h.perm.append_right _
  | ack k =>
    simp only [Window.step, Option.ite_none_right_eq_some, Option.some.injEq] at hstep
    obtain ⟨hk, rfl⟩ := hstep
    constructor
    · show (w.acked ++ [k] ++ w.flying.erase k).Perm (List.range w.issued)
      rw [List.append_assoc]
      exact ((List.perm_cons_erase hk).symm.append_left w.acked).trans h.perm
    · intro j hj
      dsimp only at hj
      apply List.mem_append.mpr
      split at hj
      · rename_i hmark
        rcases Nat.lt_or_eq_of_le (Nat.le_of_lt_succ hj) with hlt | rfl
        · exact Or.inl (h.below j (hmark ▸ hlt))
        · exact Or.inr List.mem_cons_self
      · exact Or.inl (h.below j hj)

/-- An operation in order keeps the acknowledged items exactly those below the mark. -/
theorem Window.Exact.step {w w' : Window} {op : Op} (h : w.Exact) (horder : InOrder w op)
    (hstep : w.step op = some w') : w'.Exact := by
  have hle := h.mark_le
  cases op with
  | issue =>
    cases hstep
    refine ⟨h.acked, ?_, Nat.le_succ_of_le hle⟩
    show w.flying ++ [w.issued] = List.range' w.mark (w.issued + 1 - w.mark)
    have hsucc : w.issued + 1 - w.mark = w.issued - w.mark + 1 := by omega
    have hlast : w.mark + (w.issued - w.mark) = w.issued := by omega
    rw [h.flying, hsucc, List.range'_1_concat, hlast]
  | ack k =>
    simp only [Window.step, Option.ite_none_right_eq_some, Option.some.injEq] at hstep
    obtain ⟨hk, rfl⟩ := hstep
    obtain ⟨n, hn⟩ : ∃ n, w.issued - w.mark = n + 1 := by
      have hlength := List.length_pos_of_mem hk
      rw [h.flying, List.length_range'] at hlength
      exact ⟨w.issued - w.mark - 1, by omega⟩
    have hflying : w.flying = w.mark :: List.range' (w.mark + 1) n := by
      rw [h.flying, hn, List.range'_succ]
    have hfirst : k = w.mark := by
      rw [InOrder, hflying, List.head?_cons, Option.some.injEq] at horder
      exact horder.symm
    refine ⟨?_, ?_, ?_⟩
    · rw [if_pos hfirst, List.range_succ, h.acked, hfirst]
    · have hrest : w.issued - (w.mark + 1) = n := by omega
      rw [if_pos hfirst, hflying, hfirst, List.erase_cons_head, hrest]
    · have hlt : w.mark + 1 ≤ w.issued := by omega
      rw [if_pos hfirst, hfirst]
      exact hlt

/-- An acknowledgement out of order leaves the mark behind. -/
theorem Window.Exact.stuck {w w' : Window} {op : Op} (h : w.Exact) (horder : ¬InOrder w op)
    (hstep : w.step op = some w') : w'.Stuck := by
  cases op with
  | issue => exact absurd trivial horder
  | ack k =>
    simp only [Window.step, Option.ite_none_right_eq_some, Option.some.injEq] at hstep
    obtain ⟨hk, rfl⟩ := hstep
    have hrange := hk
    rw [h.flying, List.mem_range'_1] at hrange
    have hne : k ≠ w.mark := by
      rintro rfl
      apply horder
      obtain ⟨n, hn⟩ : ∃ n, w.issued - w.mark = n + 1 := ⟨w.issued - w.mark - 1, by omega⟩
      rw [InOrder, h.flying, hn, List.range'_succ, List.head?_cons]
    refine ⟨k, List.mem_append_right _ List.mem_cons_self, ?_⟩
    rw [if_neg hne]
    exact hrange.1

/-- A mark that has been left behind does not catch up. -/
theorem Window.Stuck.step {w w' : Window} {op : Op} (h : w.Stuck) (hvalid : w.Valid)
    (hstep : w.step op = some w') : w'.Stuck := by
  obtain ⟨j, hj, hmark⟩ := h
  cases op with
  | issue =>
    cases hstep
    exact ⟨j, hj, hmark⟩
  | ack k =>
    simp only [Window.step, Option.ite_none_right_eq_some, Option.some.injEq] at hstep
    obtain ⟨hk, rfl⟩ := hstep
    refine ⟨j, List.mem_append_left _ hj, ?_⟩
    dsimp only
    split
    · have hne : j ≠ k := fun heq => hvalid.not_acked hk (heq ▸ hj)
      omega
    · exact hmark

/-- Nothing behind the mark has been acknowledged if and only if all acknowledgements so far came
in order. -/
theorem not_stuck_iff {w : Window} {ops : List Op}
    (hrun : exec Window.step Window.empty ops = some w) :
    ¬w.Stuck ↔ Along Window.step InOrder Window.empty ops := by
  constructor
  · intro hnot
    by_contra hdisorder
    obtain ⟨before, op, after, u, v, rfl, hbefore, horder, hop, hstep, hafter⟩ :=
      exists_first_violation hrun hdisorder
    have hvalid : u.Valid :=
      exec_invariant (fun _ _ _ h _ hs => h.step hs) hbefore along_true Window.Valid.empty
    have hexact : u.Exact :=
      exec_invariant (fun _ _ _ h hP hs => h.step hP hs) hbefore horder Window.Exact.empty
    have hend : w.Valid ∧ w.Stuck :=
      exec_invariant (I := fun w => w.Valid ∧ w.Stuck)
        (fun _ _ _ h _ hs => ⟨h.1.step hs, h.2.step h.1 hs⟩) hafter along_true
        ⟨hvalid.step hstep, hexact.stuck hop hstep⟩
    exact hnot hend.2
  · rintro horder ⟨k, hk, hmark⟩
    have hexact : w.Exact :=
      exec_invariant (fun _ _ _ h hP hs => h.step hP hs) hrun horder Window.Exact.empty
    rw [hexact.acked, List.mem_range] at hk
    omega

/-- Once nothing is in flight, all issued items are acknowledged. -/
theorem Window.Valid.mem_acked_iff {w : Window} (h : w.Valid) (hflying : w.flying = []) {k : ℕ} :
    k ∈ w.acked ↔ k < w.issued := by
  have hperm := h.perm
  rw [hflying, List.append_nil] at hperm
  rw [hperm.mem_iff, List.mem_range]

/-- The ranges of `size` positions that a list of items stands for. -/
def ranges (size : ℕ) (items : List ℕ) : List (ℕ × ℕ) := items.map fun k => (k * size, size)

theorem ranges_append (size : ℕ) (items items' : List ℕ) :
    ranges size (items ++ items') = ranges size items ++ ranges size items' := List.map_append

/-- A position is covered if and only if its item is in the list. -/
theorem covers_ranges_iff {size : ℕ} {items : List ℕ} {b : ℕ} (hsize : 0 < size) :
    Covers (ranges size items) b ↔ b / size ∈ items := by
  constructor
  · rintro ⟨r, hr, hle, hlt⟩
    obtain ⟨k, hk, rfl⟩ := List.mem_map.mp hr
    have hdiv : b / size = k :=
      Nat.div_eq_of_lt_le hle (by rw [Nat.succ_mul]; exact hlt)
    exact hdiv ▸ hk
  · intro hmem
    refine ⟨_, List.mem_map_of_mem hmem, Nat.div_mul_le_self b size, ?_⟩
    exact Nat.lt_div_mul_add hsize

/-- Once nothing is in flight, the mark is the end of the longest covered prefix if and only if
all acknowledgements came in order. -/
theorem prefixEnd_iff {w : Window} {ops : List Op} {size : ℕ} (hsize : 0 < size)
    (hrun : exec Window.step Window.empty ops = some w) (hflying : w.flying = []) :
    PrefixEnd (ranges size w.acked) (w.mark * size) ↔
      Along Window.step InOrder Window.empty ops := by
  have hvalid : w.Valid :=
    exec_invariant (fun _ _ _ h _ hs => h.step hs) hrun along_true Window.Valid.empty
  rw [← not_stuck_iff hrun]
  have hdiv : w.mark * size / size = w.mark := Nat.mul_div_cancel _ hsize
  constructor
  · rintro ⟨_, hnot⟩ ⟨k, hk, hmark⟩
    apply hnot
    rw [covers_ranges_iff hsize, hdiv, hvalid.mem_acked_iff hflying]
    exact Nat.lt_of_le_of_lt hmark ((hvalid.mem_acked_iff hflying).mp hk)
  · intro hnot
    constructor
    · intro b hb
      rw [covers_ranges_iff hsize]
      exact hvalid.below _ ((Nat.div_lt_iff_lt_mul hsize).mpr hb)
    · rw [covers_ranges_iff hsize, hdiv]
      exact fun hmem => hnot ⟨w.mark, hmem, Nat.le_refl _⟩

end Acknowledgement
