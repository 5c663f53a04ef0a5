import Mathlib.Logic.Relation

/-!
# Runs of a machine

A machine steps until it halts; a step that the machine cannot make is a fault. An invariant
that every step keeps, with a measure that every step lowers, makes a run end.
-/

namespace Nibble.Lib

variable {σ : Type*} (step : σ → Option σ) (halted : σ → Prop) [DecidablePred halted]

/-- The state in which the machine halts, in fewer than `fuel` steps. -/
def runSteps : Nat → σ → Option σ
  | 0, _ => none
  | fuel + 1, s => if halted s then some s else step s >>= runSteps fuel

/-- What a machine is in, from `s` on. -/
abbrev StepsTo (step : σ → Option σ) (halted : σ → Prop) : σ → σ → Prop :=
  Relation.ReflTransGen fun s t => ¬ halted s ∧ step s = some t

variable {step halted} {I : σ → Prop} {m : σ → Nat} {s t : σ} {fuel : Nat}

omit [DecidablePred halted] in
theorem StepsTo.invariant (hstep : ∀ s, I s → ¬ halted s → ∃ t, step s = some t ∧ I t) (hs : I s)
    (h : StepsTo step halted s t) : I t := by
  induction h with
  | refl => exact hs
  | tail _ ht ih =>
    obtain ⟨t, hstep, hI⟩ := hstep _ ih ht.1
    exact Option.some.inj (ht.2.symm.trans hstep) ▸ hI

/-- A machine whose steps keep an invariant and lower a measure halts. -/
theorem runSteps_halts (hstep : ∀ s, I s → ¬ halted s → ∃ t, step s = some t ∧ I t ∧ m t < m s)
    (hs : I s) (hfuel : m s < fuel) : ∃ t, runSteps step halted fuel s = some t ∧ I t ∧ halted t := by
  induction fuel generalizing s with
  | zero => exact absurd hfuel (Nat.not_lt_zero _)
  | succ fuel ih =>
    unfold runSteps
    split
    · exact ⟨s, rfl, hs, ‹_›⟩
    · rename_i hrun
      obtain ⟨t, ht, hI, hlt⟩ := hstep s hs hrun
      rw [ht]
      exact ih hI (by omega)

/-- A machine that makes each step of another in states that stand for the other's. -/
theorem runSteps_simulates {τ : Type*} {step' : τ → Option τ} {halted' : τ → Prop}
    [DecidablePred halted'] {f : σ → τ} {fuel' : Nat} (hhalted : ∀ s, halted' (f s) ↔ halted s)
    (hstep : ∀ s t, step s = some t → step' (f s) = some (f t)) (hle : fuel ≤ fuel')
    (hrun : runSteps step halted fuel s = some t) :
    runSteps step' halted' fuel' (f s) = some (f t) := by
  induction fuel generalizing fuel' s with
  | zero => cases hrun
  | succ fuel ih =>
    obtain ⟨fuel', rfl⟩ := Nat.exists_eq_succ_of_ne_zero (Nat.ne_of_gt (Nat.zero_lt_of_lt hle))
    unfold runSteps at hrun ⊢
    by_cases hs : halted s
    · rw [if_pos hs] at hrun
      rw [if_pos ((hhalted s).mpr hs), Option.some.inj hrun]
    · rw [if_neg hs] at hrun
      rw [if_neg fun h => hs ((hhalted s).mp h)]
      obtain ⟨u, hu, hrun⟩ := Option.bind_eq_some_iff.mp hrun
      rw [hstep s u hu]
      exact ih (Nat.le_of_succ_le_succ hle) hrun

end Nibble.Lib
