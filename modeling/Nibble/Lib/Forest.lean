import Mathlib.Logic.Function.Iterate
import Mathlib.Logic.Relation
import Mathlib.Data.Finset.Card
import Mathlib.Data.Finset.Image

/-!
# Forests of parents

A function that gives each node its parent, a root itself, where the parents of a node come to an
end. Roots stay where they are when a node is moved up to its grandparent; a root that is put
under another takes its nodes along. A forest whose roots tell apart what a relation does not
connect does so for a relation with one pair more.
-/

namespace Nibble.Lib

variable {α : Type*} {p q : α → α} {x y r s u v : α}

/-- Parents come to an end. -/
def Forest (p : α → α) : Prop := ∃ d : α → Nat, ∀ x, p x ≠ x → d (p x) < d x

/-- `r` is the root above `x`. -/
def Root (p : α → α) (x r : α) : Prop := p r = r ∧ ∃ k, p^[k] x = r

theorem Root.self (h : p x = x) : Root p x x := ⟨h, 0, rfl⟩

theorem Root.unique (hr : Root p x r) (hs : Root p x s) : r = s := by
  obtain ⟨hr, k, rfl⟩ := hr
  obtain ⟨hs, l, rfl⟩ := hs
  rcases Nat.le_total k l with h | h
  · obtain ⟨m, rfl⟩ := Nat.exists_eq_add_of_le' h
    rw [Function.iterate_add_apply, Function.iterate_fixed hr]
  · obtain ⟨m, rfl⟩ := Nat.exists_eq_add_of_le' h
    rw [Function.iterate_add_apply, Function.iterate_fixed hs]

theorem Root.eq_of_root (h : Root p x r) (hx : p x = x) : r = x := h.unique (.self hx)

/-- A node and its parent have the same root. -/
theorem root_parent : Root p (p x) r ↔ Root p x r := by
  constructor
  · rintro ⟨hr, k, hk⟩
    exact ⟨hr, k + 1, hk⟩
  · rintro ⟨hr, k, hk⟩
    refine ⟨hr, k, ?_⟩
    rw [← Function.iterate_succ_apply, Function.iterate_succ_apply', hk, hr]

theorem Forest.induct (h : Forest p) {motive : α → Prop} (root : ∀ x, p x = x → motive x)
    (up : ∀ x, p x ≠ x → motive (p x) → motive x) (x : α) : motive x := by
  obtain ⟨d, hd⟩ := h
  induction hx : d x using Nat.strong_induction_on generalizing x with
  | _ n ih =>
    subst hx
    by_cases hroot : p x = x
    · exact root x hroot
    · exact up x hroot (ih (d (p x)) (hd x hroot) (p x) rfl)

theorem Forest.exists_root (h : Forest p) (x : α) : ∃ r, Root p x r := by
  induction x using h.induct with
  | root x hx => exact ⟨x, .self hx⟩
  | up x _ ih => exact ih.imp fun r => root_parent.mp

/-- The nodes of a finite set have few parents. -/
theorem Forest.exists_lt_card (h : Forest p) (s : Finset α) :
    ∃ d : α → Nat, (∀ x ∈ s, p x ∈ s → p x ≠ x → d (p x) < d x) ∧ ∀ x ∈ s, d x < s.card := by
  obtain ⟨d, hd⟩ := h
  refine ⟨fun x => ((s.image d).filter (· < d x)).card, ?_, ?_⟩
  · intro x _ hpx hx
    refine Finset.card_lt_card ?_
    rw [Finset.ssubset_iff_of_subset]
    · exact ⟨d (p x), Finset.mem_filter.mpr ⟨Finset.mem_image_of_mem d hpx, hd x hx⟩,
        fun hmem => Nat.lt_irrefl _ (Finset.mem_filter.mp hmem).2⟩
    · intro n hn
      rw [Finset.mem_filter] at hn ⊢
      exact ⟨hn.1, hn.2.trans (hd x hx)⟩
  · intro x hx
    refine Nat.lt_of_lt_of_le (Finset.card_lt_card ?_) (@Finset.card_image_le _ _ s d _)
    rw [Finset.ssubset_iff_of_subset (Finset.filter_subset _ _)]
    exact ⟨d x, Finset.mem_image_of_mem d hx,
      fun hmem => Nat.lt_irrefl _ (Finset.mem_filter.mp hmem).2⟩

/-! ## Shorter ways -/

/-- Some nodes have moved up to their grandparents. -/
def Halves (p q : α → α) : Prop := ∀ x, q x = p x ∨ q x = p (p x)

theorem Halves.refl (p : α → α) : Halves p p := fun _ => .inl rfl

theorem Halves.update [DecidableEq α] (p : α → α) (x : α) :
    Halves p (Function.update p x (p (p x))) := by
  intro y
  by_cases h : y = x
  · rw [h, Function.update_self]
    exact .inr rfl
  · rw [Function.update_of_ne h]
    exact .inl rfl

theorem Forest.halve_lt {d : α → Nat} (hd : ∀ x, p x ≠ x → d (p x) < d x) (h : Halves p q)
    (hx : q x ≠ x) : d (q x) < d x := by
  have hp : p x ≠ x := by
    intro hp
    rcases h x with hq | hq
    · exact hx (hq.trans hp)
    · exact hx (by rw [hq, hp, hp])
  rcases h x with hq | hq
  · rw [hq]
    exact hd x hp
  · rw [hq]
    by_cases hpp : p (p x) = p x
    · rw [hpp]
      exact hd x hp
    · exact (hd (p x) hpp).trans (hd x hp)

theorem Forest.halve (h : Forest p) (hq : Halves p q) : Forest q := by
  obtain ⟨d, hd⟩ := h
  exact ⟨d, fun _ hx => Forest.halve_lt hd hq hx⟩

/-- Roots are roots still. -/
theorem Forest.halve_root (h : Forest p) (hq : Halves p q) : q x = x ↔ p x = x := by
  obtain ⟨d, hd⟩ := h
  constructor
  · intro hx
    by_contra hp
    rcases hq x with hqx | hqx
    · exact hp (hqx.symm.trans hx)
    · rw [hx] at hqx
      have hlt := hd x hp
      by_cases hpp : p (p x) = p x
      · exact hp (hpp.symm.trans hqx.symm)
      · have := hd (p x) hpp
        rw [← hqx] at this
        omega
  · intro hx
    rcases hq x with hqx | hqx
    · exact hqx.trans hx
    · rw [hqx, hx, hx]

/-- Every node keeps its root. -/
theorem Forest.root_halve (h : Forest p) (hq : Halves p q) : Root q x r ↔ Root p x r := by
  induction x using (h.halve hq).induct with
  | root x hx =>
    have hp := (h.halve_root hq).mp hx
    constructor
    · intro hr
      rw [hr.eq_of_root hx]
      exact .self hp
    · intro hr
      rw [hr.eq_of_root hp]
      exact .self hx
  | up x _ ih =>
    rw [← root_parent, ih]
    rcases hq x with hqx | hqx
    · rw [hqx, root_parent]
    · rw [hqx, root_parent, root_parent]

/-! ## A root under another -/

section

variable [DecidableEq α]

theorem Forest.link (h : Forest p) (hv : p v = v) (huv : u ≠ v) :
    Forest (Function.update p u v) := by
  obtain ⟨d, hd⟩ := h
  refine ⟨fun x => if x = v then 0 else d x + 1, fun x hx => ?_⟩
  have hxv : x ≠ v := by
    rintro rfl
    rw [Function.update_of_ne huv.symm] at hx
    exact hx hv
  dsimp only
  rw [if_neg hxv]
  by_cases hxu : x = u
  · rw [hxu, Function.update_self, if_pos rfl]
    exact Nat.succ_pos _
  · rw [Function.update_of_ne hxu] at hx ⊢
    have := hd x hx
    split <;> omega

/-- The nodes of the root that is put under another have that root, the others the one they had. -/
theorem Forest.root_link (h : Forest p) (hu : p u = u) (hv : p v = v) (huv : u ≠ v)
    (hr : Root p x r) : Root (Function.update p u v) x (if r = u then v else r) := by
  have hroot : Function.update p u v v = v := by rw [Function.update_of_ne huv.symm, hv]
  induction x using h.induct with
  | root x hx =>
    obtain rfl := hr.eq_of_root hx
    split
    case isTrue he =>
      rw [he, ← root_parent, Function.update_self]
      exact .self hroot
    case isFalse hne => exact .self (by rw [Function.update_of_ne hne, hx])
  | up x hx ih =>
    have hxu : x ≠ u := fun he => hx (he ▸ hu)
    rw [← root_parent, Function.update_of_ne hxu]
    exact ih (root_parent.mpr hr)

end

/-! ## Classes -/

open Relation (EqvGen)

/-- The function that tells apart what `R` does not connect, after `u` and `v` are connected. -/
theorem eqvGen_link [DecidableEq α] {β : Type*} [DecidableEq β] {f : α → β} {R R' : α → α → Prop}
    (h : ∀ x y, f x = f y ↔ EqvGen R x y) (hsub : ∀ a b, R a b → R' a b) (huv : EqvGen R' u v)
    (hnew : ∀ a b, R' a b → R a b ∨ (a = u ∧ b = v) ∨ (a = v ∧ b = u)) (x y : α) :
    (if f x = f u then f v else f x) = (if f y = f u then f v else f y) ↔ EqvGen R' x y := by
  have hmono : ∀ {a b}, f a = f b → EqvGen R' a b := fun hab => ((h _ _).mp hab).mono hsub
  have hself : (if f v = f u then f v else f v) = f v := by split <;> rfl
  constructor
  · intro hxy
    split at hxy <;> split at hxy
    case isTrue.isTrue hx hy => exact hmono (hx.trans hy.symm)
    case isTrue.isFalse hx _ => exact (hmono hx).trans _ _ _ (huv.trans _ _ _ (hmono hxy))
    case isFalse.isTrue _ hy =>
      exact (hmono hxy).trans _ _ _ ((huv.symm _ _).trans _ _ _ (hmono hy.symm))
    case isFalse.isFalse => exact hmono hxy
  · intro hxy
    induction hxy with
    | rel a b hab =>
      rcases hnew a b hab with hR | ⟨rfl, rfl⟩ | ⟨rfl, rfl⟩
      · rw [(h a b).mpr (.rel a b hR)]
      · rw [if_pos rfl, hself]
      · rw [if_pos rfl, hself]
    | refl a => rfl
    | symm a b _ ih => exact ih.symm
    | trans a b c _ _ hab hbc => exact hab.trans hbc

end Nibble.Lib
