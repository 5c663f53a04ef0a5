import Mathlib.Logic.Basic

/-!
# Triples for a fallible state monad

Partial correctness of computations in `StateT σ Option`: if the computation
succeeds from a state that satisfies the precondition, its result and final
state satisfy the postcondition. `Keeps` is the common case of an invariant.
-/

namespace Nibble.Lib

universe u

variable {σ α β : Type u}

/-- A successful run from `P` ends in `Q`. -/
def Triple (P : σ → Prop) (x : StateT σ Option α) (Q : α → σ → Prop) : Prop :=
  ∀ s a s', P s → x s = some (a, s') → Q a s'

/-- The workhorse: invert one step of a `do` block. -/
theorem bind_eq_some {x : StateT σ Option α} {f : α → StateT σ Option β} {s s' : σ} {b : β}
    (h : (x >>= f) s = some (b, s')) : ∃ a t, x s = some (a, t) ∧ f a t = some (b, s') := by
  simp only [bind, StateT.bind] at h
  obtain ⟨⟨a, t⟩, hx, hf⟩ := Option.bind_eq_some_iff.mp h
  exact ⟨a, t, hx, hf⟩

namespace Triple

variable {P P' : σ → Prop} {Q Q' : α → σ → Prop} {R : β → σ → Prop} {x : StateT σ Option α}
  {f : α → StateT σ Option β} {a : α}

theorem bind (hx : Triple P x Q) (hf : ∀ a, Triple (Q a) (f a) R) : Triple P (x >>= f) R := by
  intro s b s' hs h
  obtain ⟨a, t, hxa, hfa⟩ := bind_eq_some h
  exact hf a t b s' (hx s a t hs hxa) hfa

theorem pure (h : ∀ s, P s → Q a s) : Triple P (pure a) Q := by
  intro s b s' hs he
  cases he
  exact h s hs

theorem failure : Triple P (failure : StateT σ Option α) Q := by
  intro s a s' _ h
  cases h

theorem get : Triple P (get : StateT σ Option σ) fun a s => a = s ∧ P s := by
  intro s a s' hs h
  cases h
  exact ⟨rfl, hs⟩

theorem conseq (h : Triple P x Q) (hp : ∀ s, P' s → P s) (hq : ∀ a s, Q a s → Q' a s) :
    Triple P' x Q' :=
  fun s a s' hs hx => hq a s' (h s a s' (hp s hs) hx)

end Triple

/-- The computation keeps `I`, and its result satisfies `q`. -/
def Keeps (I : σ → Prop) (x : StateT σ Option α) (q : α → Prop) : Prop :=
  Triple I x fun a s => q a ∧ I s

/-- The first computation establishes the invariant, the second keeps it. -/
theorem Triple.bind_keeps {P I : σ → Prop} {q : α → Prop} {r : β → Prop} {x : StateT σ Option α}
    {f : α → StateT σ Option β} (hx : Triple P x fun a s => q a ∧ I s)
    (hf : ∀ a, q a → Keeps I (f a) r) : Triple P (x >>= f) fun b s => r b ∧ I s :=
  hx.bind fun a s b s' hs h => hf a hs.1 s b s' hs.2 h

namespace Keeps

variable {I : σ → Prop} {q q' : α → Prop} {r : β → Prop} {x : StateT σ Option α}
  {f : α → StateT σ Option β} {a : α}

theorem bind (hx : Keeps I x q) (hf : ∀ a, q a → Keeps I (f a) r) : Keeps I (x >>= f) r :=
  Triple.bind_keeps hx hf

theorem pure (h : q a) : Keeps I (pure a) q := Triple.pure fun _ hs => ⟨h, hs⟩

theorem failure : Keeps I (failure : StateT σ Option α) q := Triple.failure

/-- What is read satisfies the invariant. -/
theorem get_bind {f : σ → StateT σ Option β} (h : ∀ s, I s → Keeps I (f s) r) :
    Keeps I (MonadState.get >>= f) r := by
  intro s b s' hs he
  exact h s hs s b s' hs he

theorem imp (h : Keeps I x q) (hq : ∀ a, q a → q' a) : Keeps I x q' :=
  Triple.conseq h (fun _ hs => hs) fun a _ ha => ⟨hq a ha.1, ha.2⟩

theorem ite {p : Prop} [Decidable p] {y : StateT σ Option α} (hx : p → Keeps I x q)
    (hy : ¬ p → Keeps I y q) : Keeps I (if p then x else y) q := by
  split
  · exact hx ‹_›
  · exact hy ‹_›

end Keeps

end Nibble.Lib
