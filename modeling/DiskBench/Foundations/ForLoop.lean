import Mathlib.Data.Nat.Notation

/-!
# For loops with several exits

`for (i = 0; !stop; ++i) body` over the local variables `σ`, with a bound on the number of
times that the head of the loop is reached. A pass may trap, and so may the loop.
`Outcome.Ends` states what holds at each of the exits, and the two rules for loops carry an
invariant from pass to pass.
-/

namespace ForLoop

variable {σ : Type*}

/-- How a piece of a program ends, with the values of the variables there. -/
inductive Outcome (σ : Type*) where
  | done (s : σ)
  | trap (s : σ)
  | outOfFuel (s : σ)

/-- The variables at the end. -/
def Outcome.state : Outcome σ → σ
  | .done s => s
  | .trap s => s
  | .outOfFuel s => s

/-- Go on after a piece that has come to its end. -/
def Outcome.bind : Outcome σ → (σ → Outcome σ) → Outcome σ
  | .done s, f => f s
  | .trap s, _ => .trap s
  | .outOfFuel s, _ => .outOfFuel s

/-- The loop from its pass `i` on. -/
def forLoop (stop : σ → Bool) (body : ℕ → σ → Outcome σ) : ℕ → ℕ → σ → Outcome σ
  | 0, _, s => .outOfFuel s
  | fuel + 1, i, s =>
    if stop s then .done s else (body i s).bind (forLoop stop body fuel (i + 1))

/-- What holds at the end, after a trap and when the fuel runs out. -/
def Outcome.Ends (D T F : σ → Prop) : Outcome σ → Prop
  | .done s => D s
  | .trap s => T s
  | .outOfFuel s => F s

variable {stop : σ → Bool} {body : ℕ → σ → Outcome σ} {D D' T T' F F' : σ → Prop}

theorem Outcome.Ends.mono {x : Outcome σ} (h : x.Ends D T F) (hD : ∀ s, D s → D' s)
    (hT : ∀ s, T s → T' s) (hF : ∀ s, F s → F' s) : x.Ends D' T' F' := by
  cases x with
  | done s => exact hD s h
  | trap s => exact hT s h
  | outOfFuel s => exact hF s h

/-- What holds at every exit holds of the variables at the end. -/
theorem Outcome.Ends.state {x : Outcome σ} (h : x.Ends D D D) : D x.state := by
  cases x <;> exact h

/-- Without a trap and with enough fuel the end is reached. -/
theorem Outcome.Ends.done {x : Outcome σ} (h : x.Ends D (fun _ => False) fun _ => False) :
    ∃ s, x = .done s ∧ D s := by
  cases x with
  | done s => exact ⟨s, rfl, h⟩
  | trap s => exact h.elim
  | outOfFuel s => exact h.elim

/-- One piece after another. -/
theorem Outcome.Ends.bind {x : Outcome σ} {f : σ → Outcome σ} (h : x.Ends D T F)
    (hf : ∀ s, D s → (f s).Ends D' T F) : (x.bind f).Ends D' T F := by
  cases x with
  | done s => exact hf s h
  | trap s => exact h
  | outOfFuel s => exact h

/-- A loop whose passes keep an invariant ends with it, if it ends. The fuel may run out at any
pass. -/
theorem forLoop_ends {R : ℕ → σ → Prop}
    (hpass : ∀ i s, R i s → stop s = false → (body i s).Ends (R (i + 1)) T F)
    (hfuel : ∀ i s, R i s → F s) {fuel i : ℕ} {s : σ} (hs : R i s) :
    (forLoop stop body fuel i s).Ends (fun s => stop s = true ∧ ∃ i, R i s) T F := by
  induction fuel generalizing i s with
  | zero => exact hfuel i s hs
  | succ fuel ih =>
    rw [forLoop]
    split
    · rename_i hstop
      exact ⟨hstop, i, hs⟩
    · rename_i hstop
      exact (hpass i s hs (by simpa using hstop)).bind fun s' hs' => ih hs'

/-- A loop whose passes keep a property keeps it, wherever it ends. -/
theorem forLoop_keeps {P : σ → Prop} (hpass : ∀ i s, P s → (body i s).Ends P P P) {fuel i : ℕ}
    {s : σ} (hs : P s) : (forLoop stop body fuel i s).Ends P P P := by
  have hends : (forLoop stop body fuel i s).Ends (fun s => stop s = true ∧ ∃ _ : ℕ, P s) P P :=
    forLoop_ends (R := fun _ => P) (fun i s h _ => hpass i s h) (fun _ _ h => h) hs
  exact hends.mono (fun _ h => h.2.elim fun _ hP => hP) (fun _ h => h) fun _ h => h

/-- A loop with fewer than `n` passes ends within its fuel. -/
theorem forLoop_terminates {R : ℕ → σ → Prop} {n : ℕ}
    (hpass : ∀ i s, R i s → stop s = false → i < n ∧ (body i s).Ends (R (i + 1)) T F)
    {fuel i : ℕ} {s : σ} (hi : i ≤ n) (hfuel : n < i + fuel) (hs : R i s) :
    (forLoop stop body fuel i s).Ends (fun s => stop s = true ∧ ∃ i, R i s) T F := by
  induction fuel generalizing i s with
  | zero => omega
  | succ fuel ih =>
    rw [forLoop]
    split
    · rename_i hstop
      exact ⟨hstop, i, hs⟩
    · rename_i hstop
      obtain ⟨hlt, hbody⟩ := hpass i s hs (by simpa using hstop)
      exact hbody.bind fun s' hs' => ih (by omega) (by omega) hs'

end ForLoop
