import Mathlib.Data.Nat.Find
import Mathlib.Logic.Function.Basic

/-!
# Linear probing

Open addressing over `n` slots: a key is looked for from its home slot on, around the end of
the table, up to its own slot or an empty one. `Probing` is the invariant that makes the search
exact: no key has two slots, and no slot between the home of a key and its place is empty.
-/

namespace Nibble.Lib

variable {κ ν : Type*}

/-- The `j`-th slot that is looked at from a home. -/
def probeAt (n home j : Nat) : Nat := (home + j) % n

theorem probeAt_zero (n home : Nat) : probeAt n home 0 = home % n := rfl

theorem probeAt_lt {n : Nat} (hn : 0 < n) (home j : Nat) : probeAt n home j < n := Nat.mod_lt _ hn

/-- A round of probes meets every slot. -/
theorem exists_probeAt {n p : Nat} (home : Nat) (hp : p < n) : ∃ j < n, probeAt n home j = p := by
  have hn : 0 < n := Nat.zero_lt_of_lt hp
  have hm : home % n < n := Nat.mod_lt _ hn
  by_cases hle : home % n ≤ p
  · refine ⟨p - home % n, by omega, ?_⟩
    rw [probeAt, ← Nat.mod_add_mod, Nat.add_sub_cancel' hle, Nat.mod_eq_of_lt hp]
  · refine ⟨n - home % n + p, by omega, ?_⟩
    rw [probeAt, ← Nat.mod_add_mod, show home % n + (n - home % n + p) = p + n by omega,
      Nat.add_mod_right, Nat.mod_eq_of_lt hp]

/-- A probe for the key ends at the slot: it is empty, or has the key. -/
def Stops (slot : Nat → Option (κ × ν)) (k : κ) (p : Nat) : Prop :=
  slot p = none ∨ ∃ v, slot p = some (k, v)

/-- The number of slots that a probe passes over. -/
structure FirstStop (n : Nat) (home : κ → Nat) (slot : Nat → Option (κ × ν)) (k : κ) (j : Nat) :
    Prop where
  lt : j < n
  stops : Stops slot k (probeAt n (home k) j)
  passes : ∀ i < j, ¬ Stops slot k (probeAt n (home k) i)

/-- The table maps the key to the value. -/
def Holds (n : Nat) (slot : Nat → Option (κ × ν)) (k : κ) (v : ν) : Prop :=
  ∃ p < n, slot p = some (k, v)

/-- The invariant of a table with linear probing. -/
structure Probing (n : Nat) (home : κ → Nat) (slot : Nat → Option (κ × ν)) : Prop where
  unique : ∀ p < n, ∀ q < n, ∀ k v w, slot p = some (k, v) → slot q = some (k, w) → p = q
  path : ∀ p < n, ∀ k v, slot p = some (k, v) →
    ∃ j < n, probeAt n (home k) j = p ∧ ∀ i < j, slot (probeAt n (home k) i) ≠ none

variable {n : Nat} {home : κ → Nat} {slot : Nat → Option (κ × ν)} {k : κ} {j : Nat}

theorem Probing.empty : Probing n home (fun _ => (none : Option (κ × ν))) where
  unique _ _ _ _ _ _ _ h := by cases h
  path _ _ _ _ h := by cases h

/-- Where a slot is empty every probe ends. -/
theorem exists_firstStop (k : κ) (hole : ∃ p < n, slot p = none) :
    ∃ j, FirstStop n home slot k j := by
  classical
  obtain ⟨p, hp, hnone⟩ := hole
  obtain ⟨j, hj, hjp⟩ := exists_probeAt (home k) hp
  have hex : ∃ j, Stops slot k (probeAt n (home k) j) := ⟨j, by rw [hjp]; exact .inl hnone⟩
  refine ⟨Nat.find hex, ?_, Nat.find_spec hex, fun i hi => Nat.find_min hex hi⟩
  exact Nat.lt_of_le_of_lt (Nat.find_min' hex (by rw [hjp]; exact .inl hnone)) hj

namespace FirstStop

theorem unique {i : Nat} (h : FirstStop n home slot k j) (h' : FirstStop n home slot k i) :
    j = i := by
  rcases Nat.lt_trichotomy j i with hlt | rfl | hlt
  · exact absurd h.stops (h'.passes j hlt)
  · rfl
  · exact absurd h'.stops (h.passes i hlt)

theorem slot_lt (h : FirstStop n home slot k j) : probeAt n (home k) j < n :=
  probeAt_lt (Nat.zero_lt_of_lt h.lt) _ _

/-- A probe that ends at the key finds what the table maps it to. -/
theorem holds_iff (h : FirstStop n home slot k j) (inv : Probing n home slot) {v w : ν}
    (hs : slot (probeAt n (home k) j) = some (k, v)) : Holds n slot k w ↔ w = v := by
  constructor
  · rintro ⟨p, hp, hw⟩
    have he := inv.unique p hp _ h.slot_lt k w v hw hs
    rw [he, hs] at hw
    cases hw
    rfl
  · rintro rfl
    exact ⟨_, h.slot_lt, hs⟩

/-- A probe that ends at an empty slot is for a key that the table does not have. -/
theorem not_holds (h : FirstStop n home slot k j) (inv : Probing n home slot)
    (hs : slot (probeAt n (home k) j) = none) (v : ν) : ¬ Holds n slot k v := by
  rintro ⟨p, hp, hv⟩
  obtain ⟨i, -, hip, hpath⟩ := inv.path p hp k v hv
  rcases Nat.lt_trichotomy i j with hlt | rfl | hlt
  · exact h.passes i hlt (.inr ⟨v, by rw [hip]; exact hv⟩)
  · rw [hip, hv] at hs
    cases hs
  · exact hpath j hlt hs

/-- Writing where the probe ends keeps the invariant. -/
theorem probing_update (h : FirstStop n home slot k j) (inv : Probing n home slot) (v : ν) :
    Probing n home (Function.update slot (probeAt n (home k) j) (some (k, v))) := by
  -- The key can be in no other slot.
  have honly : ∀ p < n, ∀ w, slot p = some (k, w) → p = probeAt n (home k) j := by
    intro p hp w hw
    rcases h.stops with hs | ⟨u, hs⟩
    · exact absurd ⟨p, hp, hw⟩ (h.not_holds inv hs w)
    · exact inv.unique p hp _ h.slot_lt k w u hw hs
  have hfull : ∀ p, slot p ≠ none →
      Function.update slot (probeAt n (home k) j) (some (k, v)) p ≠ none := by
    intro p hp
    rw [Function.update_apply]
    split
    · simp
    · exact hp
  constructor
  · intro p hp q hq k' u w hpu hqw
    rw [Function.update_apply] at hpu hqw
    split at hpu
    next hpe =>
      cases hpu
      split at hqw
      next hqe => rw [hpe, hqe]
      next => rw [hpe, honly q hq w hqw]
    next =>
      split at hqw
      next hqe =>
        cases hqw
        rw [hqe, honly p hp u hpu]
      next => exact inv.unique p hp q hq k' u w hpu hqw
  · intro p hp k' u hpu
    rw [Function.update_apply] at hpu
    split at hpu
    next hpe =>
      cases hpu
      refine ⟨j, h.lt, hpe.symm, fun i hi => hfull _ fun hnone => ?_⟩
      exact h.passes i hi (.inl hnone)
    next =>
      obtain ⟨i, hi, hip, hpath⟩ := inv.path p hp k' u hpu
      exact ⟨i, hi, hip, fun m hm => hfull _ (hpath m hm)⟩

variable [DecidableEq κ]

/-- Writing where the probe ends maps the key to the new value, and no other key elsewhere. -/
theorem holds_update (h : FirstStop n home slot k j) (inv : Probing n home slot) (v : ν) {k' : κ}
    {w : ν} :
    Holds n (Function.update slot (probeAt n (home k) j) (some (k, v))) k' w ↔
      if k' = k then w = v else Holds n slot k' w := by
  split
  next hk =>
    subst hk
    constructor
    · rintro ⟨p, hp, hw⟩
      have hown := (h.probing_update inv v).unique p hp _ h.slot_lt k' w v hw
        (Function.update_self ..)
      rw [hown, Function.update_self] at hw
      cases hw
      rfl
    · rintro rfl
      exact ⟨_, h.slot_lt, Function.update_self ..⟩
  next hk =>
    constructor
    · rintro ⟨p, hp, hw⟩
      rw [Function.update_apply] at hw
      split at hw
      · cases hw
        exact absurd rfl hk
      · exact ⟨p, hp, hw⟩
    · rintro ⟨p, hp, hw⟩
      refine ⟨p, hp, ?_⟩
      rw [Function.update_apply, if_neg, hw]
      rintro rfl
      rcases h.stops with hs | ⟨u, hs⟩
      · rw [hs] at hw
        cases hw
      · rw [hs] at hw
        cases hw
        exact hk rfl

end FirstStop

end Nibble.Lib
