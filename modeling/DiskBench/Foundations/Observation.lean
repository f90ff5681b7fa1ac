import DiskBench.Foundations.Transition

/-!
# What is observed along a run

An observer sees some of the steps of a run. When what it sees is taken from a deterministic source
and nothing else moves the source, then two runs from states with the same source look the same to
the observer for as long as both last, whatever else happens in them.
-/

namespace Transition

variable {σ α β ρ : Type*} {step : σ → α → Option σ}

/-- What an observer sees along a run, up to an action that is not enabled. -/
def observe (step : σ → α → Option σ) (see : σ → α → Option β) : σ → List α → List β
  | _, [] => []
  | s, a :: as =>
    match step s a with
    | none => []
    | some t => (see s a).toList ++ observe step see t as

/-- What is seen along a run whose first step is known. -/
theorem observe_cons {see : σ → α → Option β} {s t : σ} {a : α} {as : List α}
    (hstep : step s a = some t) :
    observe step see s (a :: as) = (see s a).toList ++ observe step see t as := by
  rw [observe, hstep]

/-- Element `k` of what a source gives. -/
def supply (source : ρ → Option (β × ρ)) : ρ → ℕ → Option β
  | x, 0 => (source x).map Prod.fst
  | x, k + 1 => (source x).bind fun next => supply source next.2 k

/-- A step is not seen and leaves the source alone, or it is seen as what the source gives next, up
to `like`. -/
def TakesFrom (step : σ → α → Option σ) (see : σ → α → Option β) (source : ρ → Option (β × ρ))
    (like : β → β → Prop) (R : σ → ρ → Prop) (s : σ) (a : α) : Prop :=
  ∀ t x, R s x → step s a = some t →
    see s a = none ∧ R t x ∨
      ∃ b b' x', see s a = some b ∧ source x = some (b', x') ∧ like b b' ∧ R t x'

/-- What is seen along a run is what the source gives. -/
theorem observe_supply {see : σ → α → Option β} {source : ρ → Option (β × ρ)}
    {like : β → β → Prop} {R : σ → ρ → Prop} {s : σ} {x : ρ} {as : List α} {k : ℕ} {b : β}
    (halong : Along step (TakesFrom step see source like R) s as) (hs : R s x)
    (hb : (observe step see s as)[k]? = some b) :
    ∃ b', supply source x k = some b' ∧ like b b' := by
  induction as generalizing s x k with
  | nil => cases hb
  | cons a as ih =>
    rw [observe] at hb
    split at hb
    · cases hb
    · rename_i t hstep
      obtain ⟨hnone, ht⟩ | ⟨c, c', x', hsee, hsource, hlike, ht⟩ := halong.1 t x hs hstep
      · rw [hnone] at hb
        exact ih (halong.2 t hstep) ht hb
      · rw [hsee] at hb
        cases k with
        | zero =>
          obtain rfl : c = b := by simpa using hb
          exact ⟨c', by rw [supply, hsource]; rfl, hlike⟩
        | succ k =>
          obtain ⟨b', hsupply, hlike'⟩ := ih (halong.2 t hstep) ht (by simpa using hb)
          exact ⟨b', by rw [supply, hsource]; exact hsupply, hlike'⟩

/-- **Two runs.** What is seen at the same place of two runs from states with the same source is
alike. -/
theorem observe_alike {see : σ → α → Option β} {source : ρ → Option (β × ρ)}
    {like : β → β → Prop} {R : σ → ρ → Prop} {s s' : σ} {x : ρ} {as as' : List α} {k : ℕ}
    {b b' : β} (hlike : ∀ a b c, like a c → like b c → like a b)
    (halong : Along step (TakesFrom step see source like R) s as)
    (halong' : Along step (TakesFrom step see source like R) s' as') (hs : R s x)
    (hs' : R s' x) (hb : (observe step see s as)[k]? = some b)
    (hb' : (observe step see s' as')[k]? = some b') : like b b' := by
  obtain ⟨c, hsupply, hc⟩ := observe_supply halong hs hb
  obtain ⟨c', hsupply', hc'⟩ := observe_supply halong' hs' hb'
  rw [hsupply, Option.some.injEq] at hsupply'
  subst hsupply'
  exact hlike b b' c hc hc'

end Transition
