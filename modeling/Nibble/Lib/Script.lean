import Mathlib.Control.Monad.Basic

/-!
# Scripts

A script makes one step after another, and what it does next depends on the
results so far. A step is executed with a result, with an error that is reported
and ends the script, or with a fault. What holds at every step of a run is
`Reached`; what a run can rely on at a step is `Fed`.
-/

namespace Nibble.Lib

/-- A computation that has a result or a reported error, or stops with a fault. -/
abbrev Fallible (ε : Type) := OptionT (Except ε)

namespace Fallible

variable {ε α β : Type} {x : Fallible ε α} {f : α → Fallible ε β} {b : β} {e : ε}

/-- The outcome of a computation. -/
def outcome (x : Fallible ε α) : Except ε (Option α) := x

/-- The computation does not end in a fault. -/
def Total (x : Fallible ε α) : Prop := ∀ e, x.outcome ≠ .error e

/-- The computation has this result. -/
def Gives (x : Fallible ε α) (a : α) : Prop := x.outcome = .ok (some a)

theorem outcome_bind (x : Fallible ε α) (f : α → Fallible ε β) :
    (x >>= f).outcome = match x.outcome with
      | .error e => .error e
      | .ok none => .ok none
      | .ok (some a) => (f a).outcome := by
  unfold outcome
  rcases x with e | _ | a <;> rfl

/-- The workhorse: invert one step of a `do` block. -/
theorem gives_bind : (x >>= f).Gives b ↔ ∃ a, x.Gives a ∧ (f a).Gives b := by
  unfold Gives
  rw [outcome_bind]
  rcases hx : x.outcome with e | _ | a <;> simp

theorem total_bind : (x >>= f).Total ↔ x.Total ∧ ∀ a, x.Gives a → (f a).Total := by
  unfold Total Gives
  rw [outcome_bind]
  rcases hx : x.outcome with e | _ | a <;> simp

theorem bind_bind {γ : Type} (x : Fallible ε α) (f : α → Fallible ε β) (g : β → Fallible ε γ) :
    x >>= f >>= g = x >>= fun a => f a >>= g := by
  rcases x with e | _ | a <;> rfl

theorem bind_pure (x : Fallible ε α) : (x >>= fun a => pure a) = x := by
  rcases x with e | _ | a <;> rfl

theorem Gives.unique {a a' : α} (h : x.Gives a) (h' : x.Gives a') : a = a' :=
  Option.some.inj (Except.ok.inj (h.symm.trans h'))

theorem Gives.total {a : α} (h : x.Gives a) : x.Total := by
  intro e he
  rw [h] at he
  cases he

@[simp] theorem gives_pure {a a' : α} : (pure a : Fallible ε α).Gives a' ↔ a = a' := by
  constructor
  · intro h
    exact Option.some.inj (Except.ok.inj h)
  · rintro rfl
    rfl

@[simp] theorem total_pure {a : α} : (pure a : Fallible ε α).Total := by
  intro e he
  cases he

@[simp] theorem not_gives_failure {a : α} : ¬ (failure : Fallible ε α).Gives a := by
  intro h
  cases h

@[simp] theorem total_failure : (failure : Fallible ε α).Total := by
  intro e he
  cases he

/-- A computation that reports nothing. -/
@[simp] theorem gives_lift {y : Except ε α} {a : α} :
    (liftM y : Fallible ε α).Gives a ↔ y = .ok a := by
  cases y with
  | error e =>
    constructor
    · intro h
      cases h
    · intro h
      cases h
  | ok a' => exact gives_pure.trans ⟨fun h => congrArg _ h, fun h => Except.ok.inj h⟩

theorem total_lift {y : Except ε α} : (liftM y : Fallible ε α).Total ↔ ∃ a, y = .ok a := by
  cases y with
  | error e => exact ⟨fun h => absurd rfl (h e), fun ⟨_, h⟩ => nomatch h⟩
  | ok a => exact ⟨fun _ => ⟨a, rfl⟩, fun _ e h => nomatch h⟩

end Fallible

/-- A step of `σ`, whose result of `ω` decides what is next. -/
inductive Script (σ ω α : Type) where
  | done (result : α)
  | step (s : σ) (next : ω → Script σ ω α)

namespace Script

variable {σ ω α β ε : Type}

def bind : Script σ ω α → (α → Script σ ω β) → Script σ ω β
  | done a, k => k a
  | step s next, k => step s fun o => (next o).bind k

section

variable (exec : σ → Fallible ε ω)

def run : Script σ ω α → Fallible ε α
  | done a => pure a
  | step s next => exec s >>= fun o => (next o).run

/-- Every step that a run makes satisfies `P`. -/
def Reached (P : σ → Prop) : Script σ ω α → Prop
  | done _ => True
  | step s next => P s ∧ ∀ o, (exec s).Gives o → (next o).Reached P

/-- If the results so far satisfy `Q`, a step satisfies `I`, and the result of the script `R`. -/
def Fed (I : σ → Prop) (Q : σ → ω → Prop) (R : α → Prop) : Script σ ω α → Prop
  | done a => R a
  | step s next => I s ∧ ∀ o, (exec s).Gives o → Q s o → (next o).Fed I Q R

end

variable {exec : σ → Fallible ε ω} {I A B : σ → Prop} {Q : σ → ω → Prop} {R : α → Prop}
  {S : β → Prop} {p : Script σ ω α} {k : α → Script σ ω β}

theorem run_bind (p : Script σ ω α) (k : α → Script σ ω β) :
    (p.bind k).run exec = p.run exec >>= fun a => (k a).run exec := by
  induction p with
  | done a => rfl
  | step s next ih =>
    show (exec s >>= fun o => ((next o).bind k).run exec) = _
    rw [funext ih]
    exact (Fallible.bind_bind ..).symm

theorem fed_bind (hp : p.Fed exec I Q R) (hk : ∀ a, R a → (k a).Fed exec I Q S) :
    (p.bind k).Fed exec I Q S := by
  induction p with
  | done a => exact hk a hp
  | step s next ih => exact ⟨hp.1, fun o ho hq => ih o (hp.2 o ho hq)⟩

/-- A run has no fault exactly if no step that it makes has one. -/
theorem total_run : (p.run exec).Total ↔ p.Reached exec fun s => (exec s).Total := by
  induction p with
  | done a => exact iff_of_true Fallible.total_pure trivial
  | step s next ih =>
    exact Fallible.total_bind.trans
      (and_congr_right fun _ => forall_congr' fun o => imp_congr_right fun _ => ih o)

/-- What is the same at every step that is fed is the same of a whole run. -/
theorem Fed.reached_iff (hp : p.Fed exec I Q R) (hstep : ∀ s, I s → (A s ↔ B s))
    (hkeep : ∀ s o, I s → A s → (exec s).Gives o → Q s o) :
    p.Reached exec A ↔ p.Reached exec B := by
  induction p with
  | done a => exact Iff.rfl
  | step s next ih =>
    have hs := hstep s hp.1
    have hnext : A s → ∀ o, (exec s).Gives o →
        ((next o).Reached exec A ↔ (next o).Reached exec B) :=
      fun ha o ho => ih o (hp.2 o ho (hkeep s o hp.1 ha ho))
    constructor
    · rintro ⟨ha, h⟩
      exact ⟨hs.mp ha, fun o ho => (hnext ha o ho).mp (h o ho)⟩
    · rintro ⟨hb, h⟩
      exact ⟨hs.mpr hb, fun o ho => (hnext (hs.mpr hb) o ho).mpr (h o ho)⟩

/-- If every step of a run gives what it should, the result of the script is as it should be. -/
theorem Fed.result (hp : p.Fed exec I Q R)
    (hsteps : p.Reached exec fun s => ∀ o, (exec s).Gives o → Q s o) {a : α}
    (hrun : (p.run exec).Gives a) : R a := by
  induction p with
  | done b =>
    obtain rfl := Fallible.gives_pure.mp hrun
    exact hp
  | step s next ih =>
    obtain ⟨o, ho, hnext⟩ := Fallible.gives_bind.mp hrun
    exact ih o (hp.2 o ho (hsteps.1 o ho)) (hsteps.2 o ho) hnext

/-- If every step that is fed gives what it should, so does the script. -/
theorem Fed.run_gives (hp : p.Fed exec I Q R) (hstep : ∀ s o, I s → (exec s).Gives o → Q s o) {a : α}
    (hrun : (p.run exec).Gives a) : R a := by
  induction p with
  | done b =>
    obtain rfl := Fallible.gives_pure.mp hrun
    exact hp
  | step s next ih =>
    obtain ⟨o, ho, hnext⟩ := Fallible.gives_bind.mp hrun
    exact ih o (hp.2 o ho (hstep s o hp.1 ho)) hnext

end Script

end Nibble.Lib
