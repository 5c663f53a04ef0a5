import Mathlib.Data.List.Basic

/-!
# Recursive descent

A parser reads tokens, may record errors, and gives a result or none; it may
also run out of fuel. `Reads` says what a run that records no error has done:
it has a result and has consumed a word. `Yields` is a run that succeeds with
every sufficient fuel, `Halts` one that ends with it. The fuel is a pair: how
deep the grammar may recurse, and how long its loops may be.
-/

namespace Nibble.Lib

/-- What is left to read and what has been reported. -/
structure Input (τ ε : Type) where
  toks : List τ
  errors : List ε

/-- A parser. The outer `none` is the end of the fuel, the inner one a failure. -/
def Parse (τ ε α : Type) : Type := Input τ ε → Option (Option α × Input τ ε)

variable {τ ε α β : Type}

namespace Parse

def bind (x : Parse τ ε α) (f : α → Parse τ ε β) : Parse τ ε β := fun s =>
  match x s with
  | some (some a, s') => f a s'
  | some (none, s') => some (none, s')
  | none => none

instance : Monad (Parse τ ε) where
  pure a := fun s => some (some a, s)
  bind := Parse.bind

def outOfFuel : Parse τ ε α := fun _ => none

/-- An error is reported, and the parser fails. -/
def reject (e : ε) : Parse τ ε α := fun s => some (none, { s with errors := s.errors ++ [e] })

/-- A failure becomes a result. -/
def attempt (x : Parse τ ε α) : Parse τ ε (Option α) := fun s =>
  (x s).map fun (r, s') => (some r, s')

variable {x : Parse τ ε α} {f : α → Parse τ ε β} {s s' : Input τ ε} {a : α}

theorem bind_some (h : x s = some (some a, s')) : (x >>= f) s = f a s' := by
  change Parse.bind x f s = _
  simp only [Parse.bind, h]

theorem bind_none (h : x s = some (none, s')) : (x >>= f) s = some (none, s') := by
  change Parse.bind x f s = _
  simp only [Parse.bind, h]

/-- A run of a sequence, by how its first part ends. -/
theorem bind_inv {r : Option β} (h : (x >>= f) s = some (r, s')) :
    (∃ a t, x s = some (some a, t) ∧ f a t = some (r, s')) ∨ r = none ∧ x s = some (none, s') := by
  change Parse.bind x f s = _ at h
  unfold Parse.bind at h
  split at h
  · exact .inl ⟨_, _, ‹_›, h⟩
  · cases h
    exact .inr ⟨rfl, ‹_›⟩
  · cases h

end Parse

/-! ## What has been read -/

section Reads

/-- A part of a good word is good. -/
def InfixClosed (good : List τ → Prop) : Prop := ∀ u w v, good (u ++ w ++ v) → good w

/-- Errors are only added; without one there is a result, and the word that was consumed satisfies
`Q`, if it is a good one, with the result and the tokens that follow. -/
def Reads (good : List τ → Prop) (x : Parse τ ε α) (Q : List τ → α → List τ → Prop) : Prop :=
  ∀ s r s', x s = some (r, s') → s.errors <+: s'.errors ∧
    (s'.errors = s.errors → ∃ w a, r = some a ∧ s.toks = w ++ s'.toks ∧ (good w → Q w a s'.toks))

variable {good : List τ → Prop} {x : Parse τ ε α} {f : α → Parse τ ε β}
  {Q Q' : List τ → α → List τ → Prop} {R : List τ → β → List τ → Prop}

namespace Reads

theorem imp (h : Reads good x Q) (hq : ∀ w a rest, good w → Q w a rest → Q' w a rest) :
    Reads good x Q' := by
  intro s r s' hrun
  obtain ⟨hpre, hclean⟩ := h s r s' hrun
  refine ⟨hpre, fun he => ?_⟩
  obtain ⟨w, a, hr, hw, hQ⟩ := hclean he
  exact ⟨w, a, hr, hw, fun hg => hq w a _ hg (hQ hg)⟩

theorem pure {a : α} (h : ∀ rest, Q [] a rest) : Reads good (pure a : Parse τ ε α) Q := by
  rintro s r s' ⟨⟩
  exact ⟨List.prefix_rfl, fun _ => ⟨[], a, rfl, rfl, fun _ => h _⟩⟩

theorem outOfFuel : Reads good (Parse.outOfFuel : Parse τ ε α) Q := by
  rintro s r s' ⟨⟩

theorem reject {e : ε} : Reads good (Parse.reject e : Parse τ ε α) Q := by
  rintro s r s' ⟨⟩
  exact ⟨List.prefix_append _ _, fun he => by simp at he⟩

theorem bind (hgood : InfixClosed good) (hx : Reads good x Q)
    (hf : ∀ a, Reads good (f a) fun w b rest =>
      ∀ u, good (u ++ w) → Q u a (w ++ rest) → R (u ++ w) b rest) :
    Reads good (x >>= f) R := by
  intro s r s'' hrun
  rcases Parse.bind_inv hrun with ⟨a, t, hxa, hfa⟩ | ⟨rfl, hxn⟩
  · obtain ⟨hpre₁, hclean₁⟩ := hx s _ t hxa
    obtain ⟨hpre₂, hclean₂⟩ := hf a t r s'' hfa
    refine ⟨hpre₁.trans hpre₂, fun he => ?_⟩
    have h₁ : t.errors = s.errors :=
      (hpre₁.eq_of_length_le (he ▸ hpre₂.length_le)).symm
    obtain ⟨u, a', ha, hu, hQ⟩ := hclean₁ h₁
    obtain ⟨w, b, hr, hw, hR⟩ := hclean₂ (he.trans h₁.symm)
    cases ha
    refine ⟨u ++ w, b, hr, by rw [hu, hw, List.append_assoc], fun hg => ?_⟩
    refine hR (hgood u w [] (by simpa using hg)) u hg ?_
    rw [← hw]
    exact hQ (hgood [] u w (by simpa using hg))
  · obtain ⟨hpre, hclean⟩ := hx s _ s'' hxn
    refine ⟨hpre, fun he => ?_⟩
    obtain ⟨_, _, ha, -⟩ := hclean he
    cases ha

/-- A failure that becomes a result has still reported an error. -/
theorem attempt (hx : Reads good x Q) :
    Reads good (Parse.attempt x) fun w r rest => ∃ a, r = some a ∧ Q w a rest := by
  intro s r s' hrun
  simp only [Parse.attempt, Option.map_eq_some_iff] at hrun
  obtain ⟨⟨r', t⟩, hxr, he⟩ := hrun
  cases he
  obtain ⟨hpre, hclean⟩ := hx s r' t hxr
  refine ⟨hpre, fun he => ?_⟩
  obtain ⟨w, a, rfl, hw, hQ⟩ := hclean he
  exact ⟨w, some a, rfl, hw, fun hg => ⟨a, rfl, hQ hg⟩⟩

end Reads

end Reads

/-! ## What is read with enough fuel -/

section Yields

variable {x : Nat → Nat → Parse τ ε α} {f : α → Nat → Nat → Parse τ ε β} {s s' s'' : Input τ ε}
  {a : α} {b : β}

/-- With enough fuel the parser succeeds, and leaves `s'`. -/
def Yields (x : Nat → Nat → Parse τ ε α) (s : Input τ ε) (a : α) (s' : Input τ ε) : Prop :=
  ∃ N, ∀ n ≥ N, ∀ m ≥ N, x n m s = some (some a, s')

namespace Yields

theorem of_eq {y : Parse τ ε α} (h : y s = some (some a, s')) : Yields (fun _ _ => y) s a s' :=
  ⟨0, fun _ _ _ _ => h⟩

theorem pure : Yields (fun _ _ => (Pure.pure a : Parse τ ε α)) s a s := of_eq rfl

theorem bind (hx : Yields x s a s') (hf : Yields (f a) s' b s'') :
    Yields (fun n m => x n m >>= fun a => f a n m) s b s'' := by
  obtain ⟨N, hx⟩ := hx
  obtain ⟨N', hf⟩ := hf
  refine ⟨max N N', fun n hn m hm => ?_⟩
  exact (Parse.bind_some (hx n (by omega) m (by omega))).trans (hf n (by omega) m (by omega))

theorem attempt (hx : Yields x s a s') :
    Yields (fun n m => Parse.attempt (x n m)) s (some a) s' := by
  obtain ⟨N, hx⟩ := hx
  exact ⟨N, fun n hn m hm => by simp only [Parse.attempt, hx n hn m hm, Option.map_some]⟩

theorem congr {y : Nat → Nat → Parse τ ε α} (hy : Yields y s a s')
    (h : ∀ n m, x n m s = y n m s) : Yields x s a s' := by
  obtain ⟨N, hy⟩ := hy
  exact ⟨N, fun n hn m hm => (h n m).trans (hy n hn m hm)⟩

/-- One round of a loop. -/
theorem loop {y : Nat → Nat → Parse τ ε α} (hy : Yields y s a s')
    (hstep : ∀ n m, x n (m + 1) = y n m) : Yields x s a s' := by
  obtain ⟨N, hy⟩ := hy
  refine ⟨N + 1, fun n hn m hm => ?_⟩
  obtain ⟨m, rfl⟩ : ∃ k, m = k + 1 := ⟨m - 1, by omega⟩
  rw [hstep]
  exact hy n (by omega) m (by omega)

theorem unique {a' : α} {t : Input τ ε} (h : Yields x s a s') (h' : Yields x s a' t) :
    a = a' ∧ s' = t := by
  obtain ⟨N, h⟩ := h
  obtain ⟨N', h'⟩ := h'
  have he := (h (max N N') (by omega) (max N N') (by omega)).symm.trans
    (h' (max N N') (by omega) (max N N') (by omega))
  simp only [Option.some.injEq, Prod.mk.injEq] at he
  exact he

/-- A parser with nothing left to do. -/
theorem direct {a' : α} {t : Input τ ε} (h : Yields x s a s')
    (h' : Yields (fun _ _ => (Pure.pure a : Parse τ ε α)) s' a' t) : Yields x s a' t := by
  obtain ⟨rfl, rfl⟩ := unique (pure (a := a)) h'
  exact h

end Yields

/-- With enough fuel the parser ends, and at most `k` tokens are left. -/
def Halts (k : Nat) (x : Nat → Nat → Parse τ ε α) (s : Input τ ε) : Prop :=
  ∃ r s', s'.toks.length ≤ k ∧ ∃ N, ∀ n ≥ N, ∀ m ≥ N, x n m s = some (r, s')

namespace Halts

variable {k : Nat}

theorem of_eq {y : Parse τ ε α} {r : Option α} (h : y s = some (r, s'))
    (hl : s'.toks.length ≤ k) : Halts k (fun _ _ => y) s :=
  ⟨r, s', hl, 0, fun _ _ _ _ => h⟩

theorem mono {k' : Nat} (h : Halts k x s) (hk : k ≤ k') : Halts k' x s := by
  obtain ⟨r, s', hl, hx⟩ := h
  exact ⟨r, s', Nat.le_trans hl hk, hx⟩

theorem pure (hs : s.toks.length ≤ k) : Halts k (fun _ _ => (Pure.pure a : Parse τ ε α)) s :=
  of_eq rfl hs

theorem reject {e : ε} (hs : s.toks.length ≤ k) :
    Halts k (fun _ _ => (Parse.reject e : Parse τ ε α)) s := of_eq rfl hs

theorem bind (hx : Halts k x s) (hf : ∀ a s', s'.toks.length ≤ k → Halts k (f a) s') :
    Halts k (fun n m => x n m >>= fun a => f a n m) s := by
  obtain ⟨r, s', hl, N, hx⟩ := hx
  cases r with
  | none => exact ⟨none, s', hl, N, fun n hn m hm => Parse.bind_none (hx n hn m hm)⟩
  | some a =>
    obtain ⟨r', s'', hl', N', hf⟩ := hf a s' hl
    refine ⟨r', s'', hl', max N N', fun n hn m hm => ?_⟩
    exact (Parse.bind_some (hx n (by omega) m (by omega))).trans (hf n (by omega) m (by omega))

/-- A first part that needs no fuel. -/
theorem step {y : Parse τ ε α} (h : y s = some (some a, s')) (hf : Halts k (f a) s') :
    Halts k (fun n m => y >>= fun a => f a n m) s := by
  obtain ⟨r, t, hl, N, hf⟩ := hf
  exact ⟨r, t, hl, N, fun n hn m hm => (Parse.bind_some h).trans (hf n hn m hm)⟩

theorem fails {y : Parse τ ε α} (h : y s = some (none, s')) (hl : s'.toks.length ≤ k) :
    Halts k (fun n m => y >>= fun a => f a n m) s :=
  ⟨none, s', hl, 0, fun _ _ _ _ => Parse.bind_none h⟩

theorem attempt (hx : Halts k x s) : Halts k (fun n m => Parse.attempt (x n m)) s := by
  obtain ⟨r, s', hl, N, hx⟩ := hx
  exact ⟨some r, s', hl, N, fun n hn m hm => by
    simp only [Parse.attempt, hx n hn m hm, Option.map_some]⟩

theorem congr {y : Nat → Nat → Parse τ ε α} (hy : Halts k y s) (h : ∀ n m, x n m s = y n m s) :
    Halts k x s := by
  obtain ⟨r, s', hl, N, hy⟩ := hy
  exact ⟨r, s', hl, N, fun n hn m hm => (h n m).trans (hy n hn m hm)⟩

/-- One round of a loop. -/
theorem loop {y : Nat → Nat → Parse τ ε α} (hy : Halts k y s)
    (hstep : ∀ n m, x n (m + 1) = y n m) : Halts k x s := by
  obtain ⟨r, s', hl, N, hy⟩ := hy
  refine ⟨r, s', hl, N + 1, fun n hn m hm => ?_⟩
  obtain ⟨m, rfl⟩ : ∃ k, m = k + 1 := ⟨m - 1, by omega⟩
  rw [hstep]
  exact hy n (by omega) m (by omega)

end Halts

end Yields

end Nibble.Lib
