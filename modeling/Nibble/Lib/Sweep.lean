import Mathlib.Logic.Basic

/-!
# Sweeping to a steady state

A loop that runs steps `0` to `n - 1` in turn, each on the state the one
before it left, until a whole sweep reports no change. `Settles` collects what
the steps have to satisfy: a change lowers a measure, and a step without one
establishes its own postcondition and keeps those of the others.
-/

namespace Nibble.Lib

section

variable {σ : Type*}

/-- Steps `0` to `n - 1` in turn, and whether one of them reported a change. -/
def sweep (step : Nat → σ → Option (σ × Bool)) : Nat → σ → Option (σ × Bool)
  | 0, s => some (s, false)
  | n + 1, s => do
    let (s, c) ← sweep step n s
    let (s, c') ← step n s
    pure (s, c || c')

/-- Sweeps until one of them reports no change. -/
def sweepLoop (step : Nat → σ → Option (σ × Bool)) (n : Nat) : Nat → σ → Option σ
  | 0, _ => none
  | fuel + 1, s => do
    let (s, c) ← sweep step n s
    if c then sweepLoop step n fuel s else pure s

/-- What every step keeps holds when the loop has ended. -/
theorem sweep_keeps {step : Nat → σ → Option (σ × Bool)} {I : σ → Prop}
    (h : ∀ i s s' c, I s → step i s = some (s', c) → I s') {n : Nat} {s s' : σ} {c : Bool}
    (hs : I s) (hr : sweep step n s = some (s', c)) : I s' := by
  induction n generalizing s' c with
  | zero =>
    cases hr
    exact hs
  | succ n ih =>
    simp only [sweep, Option.bind_eq_bind, Option.bind_eq_some_iff] at hr
    obtain ⟨⟨s₁, c₁⟩, h₁, ⟨s₂, c₂⟩, h₂, hr⟩ := hr
    cases hr
    exact h n _ _ _ (ih h₁) h₂

theorem sweepLoop_keeps {step : Nat → σ → Option (σ × Bool)} {I : σ → Prop}
    (h : ∀ i s s' c, I s → step i s = some (s', c) → I s') {n fuel : Nat} {s s' : σ}
    (hs : I s) (hr : sweepLoop step n fuel s = some s') : I s' := by
  induction fuel generalizing s with
  | zero => cases hr
  | succ fuel ih =>
    simp only [sweepLoop, Option.bind_eq_bind, Option.bind_eq_some_iff] at hr
    obtain ⟨⟨s₁, c⟩, h₁, hr⟩ := hr
    have hI := sweep_keeps h hs h₁
    cases c with
    | true => exact ih hI hr
    | false =>
      cases hr
      exact hI

/-- What the steps of a sweep satisfy: `I` is their invariant, `m` the measure, `Q i` the
postcondition of step `i`. -/
structure Settles (step : Nat → σ → Option (σ × Bool)) (n : Nat) (I : σ → Prop) (m : σ → Nat)
    (Q : Nat → σ → Prop) : Prop where
  progress : ∀ i < n, ∀ s, I s → ∃ r, step i s = some r
  inv : ∀ i < n, ∀ s s' c, I s → step i s = some (s', c) → I s'
  changed : ∀ i < n, ∀ s s', I s → step i s = some (s', true) → m s' < m s
  unchanged : ∀ i < n, ∀ s s', I s → step i s = some (s', false) → m s' ≤ m s
  settled : ∀ i < n, ∀ s s', I s → step i s = some (s', false) → Q i s'
  keeps : ∀ i < n, ∀ j < i, ∀ s s', I s → step i s = some (s', false) → Q j s → Q j s'

namespace Settles

variable {step : Nat → σ → Option (σ × Bool)} {n : Nat} {I : σ → Prop} {m : σ → Nat}
  {Q : Nat → σ → Prop}

/-- One sweep: it keeps the invariant, and lowers the measure or settles its steps. -/
theorem sweep_spec (h : Settles step n I m Q) {k : Nat} (hk : k ≤ n) {s : σ} (hs : I s) :
    ∃ s' c, sweep step k s = some (s', c) ∧ I s' ∧ m s' ≤ m s ∧ (c = true → m s' < m s) ∧
      (c = false → ∀ i < k, Q i s') := by
  induction k with
  | zero =>
    refine ⟨s, false, rfl, hs, Nat.le_refl _, ?_, ?_⟩
    · intro hc
      cases hc
    · intro _ i hi
      omega
  | succ k ih =>
    obtain ⟨s₁, c₁, h₁, hI₁, hm₁, hlt₁, hQ₁⟩ := ih (by omega)
    obtain ⟨⟨s₂, c₂⟩, h₂⟩ := h.progress k (by omega) s₁ hI₁
    have hI₂ := h.inv k (by omega) _ _ _ hI₁ h₂
    refine ⟨s₂, c₁ || c₂, by simp [sweep, h₁, h₂], hI₂, ?_⟩
    cases c₂ with
    | true =>
      have hm₂ := h.changed k (by omega) _ _ hI₁ h₂
      refine ⟨by omega, fun _ => by omega, ?_⟩
      simp
    | false =>
      have hm₂ := h.unchanged k (by omega) _ _ hI₁ h₂
      rw [Bool.or_false]
      refine ⟨by omega, fun hc => by have := hlt₁ hc; omega, ?_⟩
      intro hc i hi
      by_cases hik : i = k
      · subst hik
        exact h.settled i (by omega) _ _ hI₁ h₂
      · exact h.keeps k (by omega) i (by omega) _ _ hI₁ h₂ (hQ₁ hc i (by omega))

/-- The loop ends, with the invariant and all postconditions. -/
theorem sweepLoop_spec (h : Settles step n I m Q) {fuel : Nat} {s : σ} (hs : I s)
    (hf : m s < fuel) :
    ∃ s', sweepLoop step n fuel s = some s' ∧ I s' ∧ ∀ i < n, Q i s' := by
  induction fuel generalizing s with
  | zero => omega
  | succ fuel ih =>
    obtain ⟨s₁, c, h₁, hI₁, -, hlt, hQ⟩ := h.sweep_spec (Nat.le_refl n) hs
    cases c with
    | true =>
      have := hlt rfl
      obtain ⟨s', hloop, hI', hQ'⟩ := ih hI₁ (by omega)
      exact ⟨s', by simp [sweepLoop, h₁, hloop], hI', hQ'⟩
    | false => exact ⟨s₁, by simp [sweepLoop, h₁], hI₁, hQ rfl⟩

end Settles

end

end Nibble.Lib
