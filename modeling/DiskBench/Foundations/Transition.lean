import Mathlib.Data.List.Basic

/-!
# Runs of a partial step function

A system is given by `step : σ → α → Option σ`, where `none` means that the
action is not enabled. `exec` performs a list of actions. `Along` says that a
condition on the state and the action holds at every step of a run, so that the
assumptions about an environment can be stated without changing the system.
-/

namespace Transition

variable {σ α : Type*} {step : σ → α → Option σ}

/-- Perform a list of actions from a state. The result is `none` as soon as
one of the actions is not enabled. -/
def exec (step : σ → α → Option σ) : σ → List α → Option σ
  | s, [] => some s
  | s, a :: as => (step s a).bind fun t => exec step t as

/-- A condition on the state and the action holds at every step of a run. -/
def Along (step : σ → α → Option σ) (P : σ → α → Prop) : σ → List α → Prop
  | _, [] => True
  | s, a :: as => P s a ∧ ∀ t, step s a = some t → Along step P t as

@[simp] theorem exec_nil (s : σ) : exec step s [] = some s := rfl

/-- A run of a nonempty list is one step followed by a run of the rest. -/
theorem exec_cons_eq_some {s t : σ} {a : α} {as : List α} :
    exec step s (a :: as) = some t ↔ ∃ u, step s a = some u ∧ exec step u as = some t := by
  simp [exec, Option.bind_eq_some_iff]

/-- A run of a concatenation is a run of the first part followed by a run of the second. -/
theorem exec_append {s t : σ} {as bs : List α} :
    exec step s (as ++ bs) = some t ↔
      ∃ u, exec step s as = some u ∧ exec step u bs = some t := by
  induction as generalizing s with
  | nil => simp
  | cons a as ih =>
    simp only [List.cons_append, exec_cons_eq_some, ih]
    constructor
    · rintro ⟨v, hv, u, hu, ht⟩
      exact ⟨u, ⟨v, hv, hu⟩, ht⟩
    · rintro ⟨u, ⟨v, hv, hu⟩, ht⟩
      exact ⟨v, hv, u, hu, ht⟩

@[simp] theorem along_nil (P : σ → α → Prop) (s : σ) : Along step P s [] := trivial

/-- Along a nonempty run whose first step is known, the condition holds at
that step and along the rest. -/
theorem along_cons {P : σ → α → Prop} {s t : σ} {a : α} {as : List α}
    (hstep : step s a = some t) : Along step P s (a :: as) ↔ P s a ∧ Along step P t as := by
  simp [Along, hstep]

/-- Whether a decidable condition holds along a run is found out by performing the run. -/
instance decidableAlong (P : σ → α → Prop) [hP : ∀ s a, Decidable (P s a)] :
    ∀ (s : σ) (as : List α), Decidable (Along step P s as)
  | _, [] => isTrue trivial
  | s, a :: as =>
    match hstep : step s a with
    | none => decidable_of_iff (P s a) (by simp [Along, hstep])
    | some t => @decidable_of_iff _ (P s a ∧ Along step P t as) (along_cons hstep).symm
        (@instDecidableAnd _ _ (hP s a) (decidableAlong P t as))

/-- Along a concatenated run the condition holds along both parts. -/
theorem along_append {P : σ → α → Prop} {s t : σ} {as bs : List α}
    (hexec : exec step s as = some t) :
    Along step P s (as ++ bs) ↔ Along step P s as ∧ Along step P t bs := by
  induction as generalizing s with
  | nil =>
    obtain rfl : s = t := by simpa using hexec
    simp
  | cons a as ih =>
    obtain ⟨u, hu, hrest⟩ := exec_cons_eq_some.mp hexec
    rw [List.cons_append, along_cons hu, along_cons hu, ih hrest, and_assoc]

/-- The trivial condition holds along every run. -/
theorem along_true {s : σ} {as : List α} : Along step (fun _ _ => True) s as := by
  induction as generalizing s with
  | nil => trivial
  | cons a as ih => exact ⟨trivial, fun _ _ => ih⟩

/-- A condition that the actions of a run meet in every state holds along it. -/
theorem along_of_forall {P : σ → α → Prop} {s : σ} {as : List α} (h : ∀ a ∈ as, ∀ t, P t a) :
    Along step P s as := by
  induction as generalizing s with
  | nil => trivial
  | cons a as ih =>
    exact ⟨h a List.mem_cons_self s, fun _ _ => ih fun b hb => h b (List.mem_cons_of_mem _ hb)⟩

/-- A weaker condition holds along the same run. -/
theorem Along.mono {P Q : σ → α → Prop} {s : σ} {as : List α} (h : Along step P s as)
    (hPQ : ∀ s a, P s a → Q s a) : Along step Q s as := by
  induction as generalizing s with
  | nil => trivial
  | cons a as ih => exact ⟨hPQ s a h.1, fun t ht => ih (h.2 t ht)⟩

/-- Two conditions hold along a run together exactly when each of them does. -/
theorem along_and {P Q : σ → α → Prop} {s : σ} {as : List α} :
    Along step (fun s a => P s a ∧ Q s a) s as ↔ Along step P s as ∧ Along step Q s as := by
  constructor
  · intro h
    exact ⟨h.mono fun _ _ hpq => hpq.1, h.mono fun _ _ hpq => hpq.2⟩
  · rintro ⟨hP, hQ⟩
    induction as generalizing s with
    | nil => trivial
    | cons a as ih => exact ⟨⟨hP.1, hQ.1⟩, fun t ht => ih (hP.2 t ht) (hQ.2 t ht)⟩

/-- An invariant kept by every step that meets the condition holds at the end
of every run that meets it. -/
theorem exec_invariant {P : σ → α → Prop} {I : σ → Prop}
    (hstep : ∀ s a t, I s → P s a → step s a = some t → I t) {s t : σ} {as : List α}
    (hexec : exec step s as = some t) (halong : Along step P s as) (hs : I s) : I t := by
  induction as generalizing s with
  | nil =>
    obtain rfl : s = t := by simpa using hexec
    exact hs
  | cons a as ih =>
    obtain ⟨u, hu, hrest⟩ := exec_cons_eq_some.mp hexec
    exact ih hrest (halong.2 u hu) (hstep s a u hs halong.1 hu)

/-- A condition on states that no step establishes holds in every state of a run that ends in it. -/
theorem along_of_end {P : σ → α → Prop} {J : σ → Prop}
    (hback : ∀ s a t, P s a → step s a = some t → J t → J s) {s t : σ} {as : List α}
    (hexec : exec step s as = some t) (halong : Along step P s as) (ht : J t) :
    J s ∧ Along step (fun s a => ∀ u, step s a = some u → J u) s as := by
  induction as generalizing s with
  | nil =>
    obtain rfl : s = t := by simpa using hexec
    exact ⟨ht, trivial⟩
  | cons a as ih =>
    obtain ⟨u, hu, hrest⟩ := exec_cons_eq_some.mp hexec
    obtain ⟨hJ, halong'⟩ := ih hrest (halong.2 u hu)
    refine ⟨hback s a u halong.1 hu hJ, (along_cons hu).mpr ⟨fun v hv => ?_, halong'⟩⟩
    rw [hu, Option.some.injEq] at hv
    exact hv ▸ hJ

/-- A condition on the steps is exact for a property of the states when every step that meets it
keeps an invariant with that property, and every step that does not leads to a state without it.
Then the property holds in every state of a run if and only if every step of the run meets the
condition. -/
theorem along_iff_of_exact {P R : σ → α → Prop} {I Q : σ → Prop}
    (hkeep : ∀ s a t, I s → R s a → P s a → step s a = some t → I t) (hI : ∀ s, I s → Q s)
    (hexact : ∀ s a t, I s → R s a → step s a = some t → Q t → P s a) {s t : σ} {as : List α}
    (hexec : exec step s as = some t) (hR : Along step R s as) (hs : I s) :
    Along step (fun s a => ∀ u, step s a = some u → Q u) s as ↔ Along step P s as := by
  induction as generalizing s with
  | nil => simp
  | cons a as ih =>
    obtain ⟨u, hu, hrest⟩ := exec_cons_eq_some.mp hexec
    rw [along_cons hu, along_cons hu]
    constructor
    · rintro ⟨hQ, hQs⟩
      have hP := hexact s a u hs hR.1 hu (hQ u hu)
      exact ⟨hP, (ih hrest (hR.2 u hu) (hkeep s a u hs hR.1 hP hu)).mp hQs⟩
    · rintro ⟨hP, hPs⟩
      have hu' := hkeep s a u hs hR.1 hP hu
      refine ⟨fun v hv => ?_, (ih hrest (hR.2 u hu) hu').mpr hPs⟩
      rw [hu, Option.some.injEq] at hv
      exact hv ▸ hI u hu'

/-- Some run leads from one state to another, and a condition holds along it. -/
def Reaches (step : σ → α → Option σ) (P : σ → α → Prop) (s t : σ) : Prop :=
  ∃ as, exec step s as = some t ∧ Along step P s as

theorem Reaches.refl (P : σ → α → Prop) (s : σ) : Reaches step P s s := ⟨[], rfl, trivial⟩

theorem Reaches.trans {P : σ → α → Prop} {s t u : σ} (h : Reaches step P s t)
    (h' : Reaches step P t u) : Reaches step P s u := by
  obtain ⟨as, hexec, halong⟩ := h
  obtain ⟨bs, hexec', halong'⟩ := h'
  exact ⟨as ++ bs, exec_append.mpr ⟨t, hexec, hexec'⟩,
    (along_append hexec).mpr ⟨halong, halong'⟩⟩

/-- One step is a run. -/
theorem Reaches.single {P : σ → α → Prop} {s t : σ} {a : α} (hstep : step s a = some t)
    (hP : P s a) : Reaches step P s t :=
  ⟨[a], exec_cons_eq_some.mpr ⟨t, hstep, rfl⟩, (along_cons hstep).mpr ⟨hP, trivial⟩⟩

theorem Reaches.mono {P Q : σ → α → Prop} {s t : σ} (h : Reaches step P s t)
    (hPQ : ∀ s a, P s a → Q s a) : Reaches step Q s t := by
  obtain ⟨as, hexec, halong⟩ := h
  exact ⟨as, hexec, halong.mono hPQ⟩

/-- An invariant holds in every state that is reached from a state in which it holds. -/
theorem Reaches.invariant {P : σ → α → Prop} {I : σ → Prop} {s t : σ} (h : Reaches step P s t)
    (hstep : ∀ s a t, I s → P s a → step s a = some t → I t) (hs : I s) : I t := by
  obtain ⟨as, hexec, halong⟩ := h
  exact exec_invariant hstep hexec halong hs

/-- A forward simulation of single steps by runs of another system is one of whole runs, and it
carries over what holds along them. -/
theorem exec_simulation {σ' α' : Type*} {step' : σ' → α' → Option σ'} {P Q : σ → α → Prop}
    {Q' : σ' → α' → Prop} {R : σ → σ' → Prop}
    (hsim : ∀ s a t w, R s w → P s a → step s a = some t →
      ∃ ops w', exec step' w ops = some w' ∧ R t w' ∧ (Q s a ↔ Along step' Q' w ops))
    {s t : σ} {w : σ'} {as : List α} (hexec : exec step s as = some t)
    (halong : Along step P s as) (h : R s w) :
    ∃ ops w', exec step' w ops = some w' ∧ R t w' ∧
      (Along step Q s as ↔ Along step' Q' w ops) := by
  induction as generalizing s w with
  | nil =>
    obtain rfl : s = t := by simpa using hexec
    exact ⟨[], w, rfl, h, by simp⟩
  | cons a as ih =>
    obtain ⟨u, hu, hrest⟩ := exec_cons_eq_some.mp hexec
    obtain ⟨ops, v, hops, hv, hQ⟩ := hsim s a u w h halong.1 hu
    obtain ⟨ops', w', hops', hw', hQ'⟩ := ih hrest (halong.2 u hu) hv
    exact ⟨ops ++ ops', w', exec_append.mpr ⟨v, hops, hops'⟩, hw',
      by rw [along_cons hu, along_append hops, hQ, hQ']⟩

/-- A run along which a condition fails has a first step at which it fails. -/
theorem exists_first_violation {P : σ → α → Prop} {s t : σ} {as : List α}
    (hexec : exec step s as = some t) (hnot : ¬Along step P s as) :
    ∃ bs a cs u v, as = bs ++ a :: cs ∧ exec step s bs = some u ∧ Along step P s bs ∧
      ¬P u a ∧ step u a = some v ∧ exec step v cs = some t := by
  induction as generalizing s with
  | nil => exact absurd trivial hnot
  | cons a as ih =>
    obtain ⟨u, hu, hrest⟩ := exec_cons_eq_some.mp hexec
    by_cases hP : P s a
    · have hnot' : ¬Along step P u as := fun h => hnot ((along_cons hu).mpr ⟨hP, h⟩)
      obtain ⟨bs, b, cs, v, w, rfl, hbs, halong, hb, hv, hcs⟩ := ih hrest hnot'
      exact ⟨a :: bs, b, cs, v, w, rfl, exec_cons_eq_some.mpr ⟨u, hu, hbs⟩,
        (along_cons hu).mpr ⟨hP, halong⟩, hb, hv, hcs⟩
    · exact ⟨[], a, as, s, u, rfl, rfl, trivial, hP, hu, hrest⟩

end Transition
