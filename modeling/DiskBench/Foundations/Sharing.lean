import Mathlib.Algebra.Order.BigOperators.Group.Finset
import DiskBench.Foundations.Balance

/-!
# Threads that share places

A family of threads, each of them a system of its own, takes steps in any order. A thread works at a
place, and the threads at the same place share a part of their states: what one of them does to it,
the others find there. The rule of rely and guarantee reduces an invariant of all threads to the
steps of one: it has to keep the invariant by its own steps, and bear what the steps of the others
do to the shared part.
-/

namespace Sharing

open Transition

variable {ι σ α β ρ κ π : Type*} [DecidableEq ι] [DecidableEq π]
  {step : σ → α → Option σ} {share : σ → ρ} {put : σ → ρ → σ} {place : ι → π}

/-- One step of one thread. -/
def together (step : σ → α → Option σ) (share : σ → ρ) (put : σ → ρ → σ) (place : ι → π)
    (threads : ι → σ) (act : ι × α) : Option (ι → σ) :=
  (step (threads act.1) act.2).map fun t j =>
    if j = act.1 then t
    else if place j = place act.1 then put (threads j) (share t) else threads j

/-- A step of the family is a step of the thread that acts. -/
theorem together_eq_some {threads threads' : ι → σ} {act : ι × α}
    (h : together step share put place threads act = some threads') :
    ∃ t, step (threads act.1) act.2 = some t ∧ threads' act.1 = t ∧
      ∀ j, j ≠ act.1 → threads' j =
        if place j = place act.1 then put (threads j) (share t) else threads j := by
  obtain ⟨t, ht, rfl⟩ := Option.map_eq_some_iff.mp h
  exact ⟨t, ht, if_pos rfl, fun j hj => if_neg hj⟩

/-- What a step of the family is for one of the threads: a step of its own, or a change of what it
shares at most. -/
theorem thread_of_together {threads threads' : ι → σ} {act : ι × α} (i : ι)
    (h : together step share put place threads act = some threads') :
    act.1 = i ∧ step (threads i) act.2 = some (threads' i) ∨
      act.1 ≠ i ∧ (threads' i = threads i ∨ ∃ d, threads' i = put (threads i) d) := by
  obtain ⟨t, ht, hself, hother⟩ := together_eq_some h
  by_cases hact : act.1 = i
  · subst hact
    exact Or.inl ⟨rfl, hself ▸ ht⟩
  · refine Or.inr ⟨hact, ?_⟩
    rw [hother i (Ne.symm hact)]
    split
    · exact Or.inr ⟨_, rfl⟩
    · exact Or.inl rfl

/-- A condition on the thread that acts. -/
def Acting (P : σ → α → Prop) (threads : ι → σ) (act : ι × α) : Prop := P (threads act.1) act.2

instance (P : σ → α → Prop) [∀ s a, Decidable (P s a)] (threads : ι → σ) (act : ι × α) :
    Decidable (Acting P threads act) :=
  inferInstanceAs (Decidable (P _ _))

/-- **Rely and guarantee.** Every step of a thread keeps its invariant and changes the shared part
in a way that every thread bears. Then the threads keep their invariants in every interleaving, and
those at the same place agree about what they share. -/
theorem rely_guarantee {P : σ → α → Prop} {I : σ → Prop} {Bears : ρ → ρ → Prop}
    (hput : ∀ s d, share (put s d) = d)
    (hown : ∀ s a t, I s → P s a → step s a = some t → I t ∧ Bears (share s) (share t))
    (hothers : ∀ s d, I s → Bears (share s) d → I (put s d))
    {threads threads' : ι → σ} {as : List (ι × α)} (hinv : ∀ i, I (threads i))
    (hshare : ∀ i j, place i = place j → share (threads i) = share (threads j))
    (hrun : exec (together step share put place) threads as = some threads')
    (halong : Along (together step share put place) (Acting P) threads as) :
    (∀ i, I (threads' i)) ∧
      ∀ i j, place i = place j → share (threads' i) = share (threads' j) := by
  refine exec_invariant (I := fun threads : ι → σ => (∀ i, I (threads i)) ∧
    ∀ i j, place i = place j → share (threads i) = share (threads j)) ?_ hrun halong ⟨hinv, hshare⟩
  rintro threads act threads' ⟨hinv, hshare⟩ hP hstep
  obtain ⟨t, ht, hself, hother⟩ := together_eq_some hstep
  obtain ⟨hkept, hbears⟩ := hown _ _ _ (hinv act.1) hP ht
  have hplace : ∀ i, place i = place act.1 → share (threads' i) = share t := by
    intro i hi
    by_cases hact : i = act.1
    · rw [hact, hself]
    · rw [hother i hact, if_pos hi, hput]
  have haway : ∀ i, place i ≠ place act.1 → threads' i = threads i := by
    intro i hi
    have hact : i ≠ act.1 := fun heq => hi (heq ▸ rfl)
    rw [hother i hact, if_neg hi]
  constructor
  · intro i
    by_cases hact : i = act.1
    · rw [hact, hself]
      exact hkept
    · by_cases hi : place i = place act.1
      · rw [hother i hact, if_pos hi]
        exact hothers _ _ (hinv i) (hshare i act.1 hi ▸ hbears)
      · rw [haway i hi]
        exact hinv i
  · intro i j hij
    by_cases hi : place i = place act.1
    · rw [hplace i hi, hplace j (hij ▸ hi)]
    · rw [haway i hi, haway j (hij ▸ hi)]
      exact hshare i j hij

/-- What the threads have left to do together, when what is shared does not matter to it: a step of
one of them uses it up as it does for the thread alone. -/
theorem sum_measure_le [Fintype ι] {μ : σ → ℕ} {n : ℕ} {threads threads' : ι → σ} {act : ι × α}
    (hput : ∀ s d, μ (put s d) = μ s)
    (hstep : ∀ t, step (threads act.1) act.2 = some t → μ t + 1 ≤ μ (threads act.1) + n)
    (h : together step share put place threads act = some threads') :
    ∑ i, μ (threads' i) + 1 ≤ ∑ i, μ (threads i) + n := by
  obtain ⟨t, ht, hself, hother⟩ := together_eq_some h
  have hrest : ∑ i ∈ Finset.univ.erase act.1, μ (threads' i) =
      ∑ i ∈ Finset.univ.erase act.1, μ (threads i) := by
    refine Finset.sum_congr rfl fun j hj => ?_
    rw [hother j (Finset.ne_of_mem_erase hj)]
    split
    · exact hput _ _
    · rfl
  have hown := hstep t ht
  rw [← Finset.add_sum_erase _ _ (Finset.mem_univ act.1),
    ← Finset.add_sum_erase _ (fun i => μ (threads i)) (Finset.mem_univ act.1), hrest, hself]
  omega

/-- What an observer sees of one thread. -/
def seeThread (see : σ → α → Option β) (i : ι) (threads : ι → σ) (act : ι × α) : Option β :=
  if act.1 = i then see (threads i) act.2 else none

/-- A thread takes from its source also among others, when what is shared does not matter to it. -/
theorem takesFrom_together {see : σ → α → Option β} {source : κ → Option (β × κ)}
    {like : β → β → Prop} {R : σ → κ → Prop} (hput : ∀ s d x, R s x → R (put s d) x) {i : ι}
    {threads : ι → σ} {act : ι × α}
    (htakes : act.1 = i → TakesFrom step see source like R (threads i) act.2) :
    TakesFrom (together step share put place) (seeThread see i) source like
      (fun threads x => R (threads i) x) threads act := by
  intro threads' x hx hstep
  dsimp only at hx ⊢
  obtain ⟨hact, hown⟩ | ⟨hact, heq | ⟨d, heq⟩⟩ := thread_of_together i hstep
  · rw [seeThread, if_pos hact]
    exact htakes hact _ x hx hown
  · refine Or.inl ⟨if_neg hact, ?_⟩
    rwa [heq]
  · refine Or.inl ⟨if_neg hact, ?_⟩
    rw [heq]
    exact hput _ _ x hx

section Accounts

variable {P : σ → α → Prop} {I : σ → Prop} {i : ι} {threads threads' : ι → σ}
  {as : List (ι × α)}

/-- An invariant of a thread that the others do not touch holds in every interleaving. -/
theorem thread_invariant (hputI : ∀ s d, I s → I (put s d))
    (hinv : ∀ s a t, I s → P s a → step s a = some t → I t) {act : ι × α}
    (h : I (threads i)) (hP : Acting P threads act)
    (hstep : together step share put place threads act = some threads') : I (threads' i) := by
  obtain ⟨rfl, hown⟩ | ⟨_, heq | ⟨d, heq⟩⟩ := thread_of_together i hstep
  · exact hinv _ _ _ h hP hown
  · rwa [heq]
  · rw [heq]
    exact hputI _ _ h

/-- A variable of a thread that each of its own steps updates with what is seen of it. -/
theorem foldl_observe_thread {see : σ → α → Option β} {f : σ → κ} {g : κ → β → κ}
    (hputI : ∀ s d, I s → I (put s d)) (hput : ∀ s d, f (put s d) = f s)
    (hinv : ∀ s a t, I s → P s a → step s a = some t → I t)
    (hown : ∀ s a t, I s → P s a → step s a = some t → f t = (see s a).toList.foldl g (f s))
    (hs : I (threads i)) (hrun : exec (together step share put place) threads as = some threads')
    (halong : Along (together step share put place) (Acting P) threads as) :
    f (threads' i) = (observe (together step share put place) (seeThread see i) threads as).foldl g
      (f (threads i)) := by
  refine foldl_observe (I := fun threads : ι → σ => I (threads i))
    (f := fun threads => f (threads i))
    (fun _ _ _ h hP hstep => thread_invariant hputI hinv h hP hstep) ?_ hs hrun halong
  intro threads act threads' h hP hstep
  obtain ⟨rfl, hstep'⟩ | ⟨hact, heq | ⟨d, heq⟩⟩ := thread_of_together i hstep
  · rw [seeThread, if_pos rfl]
    exact hown _ _ _ h hP hstep'
  · rw [seeThread, if_neg hact, heq]
    rfl
  · rw [seeThread, if_neg hact, heq, hput]
    rfl

/-- What a thread has held and what has arrived at it is what has left it and what it holds. -/
theorem observe_balance_thread {held : σ → List β} {arrives leaves : σ → α → Option β}
    (hputI : ∀ s d, I s → I (put s d)) (hput : ∀ s d, held (put s d) = held s)
    (hinv : ∀ s a t, I s → P s a → step s a = some t → I t)
    (hown : ∀ s a t, I s → P s a → step s a = some t →
      (held s ++ (arrives s a).toList).Perm ((leaves s a).toList ++ held t))
    (hs : I (threads i)) (hrun : exec (together step share put place) threads as = some threads')
    (halong : Along (together step share put place) (Acting P) threads as) :
    (held (threads i) ++
        observe (together step share put place) (seeThread arrives i) threads as).Perm
      (observe (together step share put place) (seeThread leaves i) threads as ++
        held (threads' i)) := by
  refine @observe_balance _ _ _ _ (Acting P) (fun threads => I (threads i)) _ _ _
    (fun threads => held (threads i)) _ _
    (fun _ _ _ h hP hstep => thread_invariant hputI hinv h hP hstep) ?_ hs hrun halong
  intro threads act threads' h hP hstep
  obtain ⟨rfl, hstep'⟩ | ⟨hact, heq | ⟨d, heq⟩⟩ := thread_of_together i hstep
  · rw [seeThread, seeThread, if_pos rfl, if_pos rfl]
    exact hown _ _ _ h hP hstep'
  · rw [seeThread, seeThread, if_neg hact, if_neg hact, heq]
    exact (List.append_nil _).symm ▸ List.Perm.refl _
  · rw [seeThread, seeThread, if_neg hact, if_neg hact, heq, hput]
    exact (List.append_nil _).symm ▸ List.Perm.refl _

/-- An observer of one thread that notes down something else about what it sees. -/
theorem observe_thread_map (see : σ → α → Option β) (f : β → κ) (threads : ι → σ)
    (as : List (ι × α)) :
    observe (together step share put place) (seeThread (fun s a => (see s a).map f) i) threads as =
      (observe (together step share put place) (seeThread see i) threads as).map f := by
  rw [← observe_map]
  congr 1
  funext threads act
  unfold seeThread
  split <;> rfl

end Accounts

section Simulation

variable {step' : σ → α → Option σ} {P P' : σ → α → Prop} {I : σ → Prop} {i : ι}
  {threads threads' : ι → σ} {as : List (ι × α)}

/-- What the family is after one of its threads has taken some steps. -/
def moved (share : σ → ρ) (put : σ → ρ → σ) (place : ι → π) (threads : ι → σ) (i : ι) (t : σ) :
    ι → σ := fun j =>
  if j = i then t else if place j = place i then put (threads j) (share t) else threads j

theorem together_eq {t : σ} {a : α} (hstep : step (threads i) a = some t) :
    together step share put place threads (i, a) = some (moved share put place threads i t) := by
  rw [together, hstep]
  rfl

/-- What a thread changes later in its shared part takes the place of what it has changed there. -/
theorem moved_moved (hput : ∀ s d d', put (put s d) d' = put s d') {t u : σ} :
    moved share put place (moved share put place threads i t) i u =
      moved share put place threads i u := by
  funext j
  unfold moved
  by_cases hj : j = i
  · rw [if_pos hj, if_pos hj]
  · rw [if_neg hj, if_neg hj, if_neg hj]
    by_cases hplace : place j = place i
    · rw [if_pos hplace, if_pos hplace, if_pos hplace, hput]
    · rw [if_neg hplace, if_neg hplace, if_neg hplace]

/-- Some steps of one thread are steps of the family. -/
theorem exec_of_thread (hput : ∀ s d d', put (put s d) d' = put s d') {ops : List α} {t : σ}
    (hne : ops ≠ []) (hexec : exec step (threads i) ops = some t)
    (halong : Along step P (threads i) ops) :
    exec (together step share put place) threads (ops.map fun a => (i, a)) =
        some (moved share put place threads i t) ∧
      Along (together step share put place) (Acting P) threads (ops.map fun a => (i, a)) := by
  induction ops generalizing threads with
  | nil => exact absurd rfl hne
  | cons a ops ih =>
    obtain ⟨u, hu, hrest⟩ := exec_cons_eq_some.mp hexec
    have hfamily : together step share put place threads (i, a) =
        some (moved share put place threads i u) := together_eq hu
    rw [List.map_cons, along_cons hfamily, exec_cons_eq_some]
    obtain ⟨hP, hPs⟩ := (along_cons hu).mp halong
    by_cases hnil : ops = []
    · subst hnil
      obtain rfl : u = t := by simpa using hrest
      exact ⟨⟨_, hfamily, rfl⟩, hP, trivial⟩
    · have hself : moved share put place threads i u i = u := if_pos rfl
      obtain ⟨hrun, hmet⟩ := @ih (moved share put place threads i u) hnil
        (hself.symm ▸ hrest) (hself.symm ▸ hPs)
      rw [moved_moved hput] at hrun
      exact ⟨⟨_, hfamily, hrun⟩, hP, hmet⟩

/-- **Simulation of a family.** When each step of a thread can be done by some steps of another
system, then each run of a family of these threads, whatever they share and in whatever order they
go, is one of the other system. -/
theorem together_simulation (hput : ∀ s d d', put (put s d) d' = put s d')
    (hputI : ∀ s d, I s → I (put s d)) (hinv : ∀ s a t, I s → P s a → step s a = some t → I t)
    (hsim : ∀ s a t, I s → P s a → step s a = some t →
      ∃ ops, ops ≠ [] ∧ exec step' s ops = some t ∧ Along step' P' s ops)
    (hI : ∀ i, I (threads i))
    (hrun : exec (together step share put place) threads as = some threads')
    (halong : Along (together step share put place) (Acting P) threads as) :
    Reaches (together step' share put place) (Acting P') threads threads' := by
  induction as generalizing threads with
  | nil =>
    obtain rfl : threads = threads' := by simpa using hrun
    exact .refl _ _
  | cons act as ih =>
    obtain ⟨next, hnext, hrest⟩ := exec_cons_eq_some.mp hrun
    obtain ⟨t, ht, rfl⟩ := Option.map_eq_some_iff.mp hnext
    obtain ⟨ops, hne, hexec, hmet⟩ := hsim _ _ _ (hI act.1) halong.1 ht
    have hlater := ih (fun i => thread_invariant hputI hinv (hI i) halong.1 hnext) hrest
      (halong.2 _ hnext)
    exact Reaches.trans ⟨_, exec_of_thread hput hne hexec hmet⟩ hlater

end Simulation

end Sharing
