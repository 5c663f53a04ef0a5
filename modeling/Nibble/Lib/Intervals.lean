import Mathlib.Order.Basic
import Mathlib.Data.List.Pairwise
import Mathlib.Tactic.ByContra
import Mathlib.Order.Lattice

/-!
# Intervals in order

Things that have a start and an end each, in a linear order. Where they are sorted by
their starts, no two of them meet exactly when each one ends before the next ones begin,
and a value in front of one, or behind it, is in none of those on its other side.
-/

namespace Nibble.Lib

variable {α β : Type*} [LinearOrder β] {s e : α → β} {x y : α} {l : List α}

/-- The value is in the interval of `x`. -/
def Within (s e : α → β) (x : α) (v : β) : Prop := s x ≤ v ∧ v ≤ e x

/-- No value is in both intervals. -/
def Apart (s e : α → β) (x y : α) : Prop := ∀ v, ¬ (Within s e x v ∧ Within s e y v)

theorem Apart.symm (h : Apart s e x y) : Apart s e y x := fun v hv => h v hv.symm

theorem apart_of_lt (h : e x < s y) : Apart s e x y := fun _ hv =>
  absurd (le_trans hv.2.1 hv.1.2) (not_le.mpr h)

/-- A value is in one of several intervals at most. -/
theorem eq_of_within {v : β} (h : l.Pairwise (Apart s e)) (hx : x ∈ l) (hy : y ∈ l)
    (hv : Within s e x v) (hv' : Within s e y v) : x = y := by
  have : Std.Symm (Apart s e) := ⟨fun _ _ => Apart.symm⟩
  by_contra hne
  exact h.forall hx hy hne v ⟨hv, hv'⟩

theorem lt_of_apart (hle : s x ≤ s y) (hy : s y ≤ e y) (h : Apart s e x y) : e x < s y :=
  not_le.mp fun hge => h (s y) ⟨⟨hle, hge⟩, le_refl _, hy⟩

/-- Sorted intervals that do not meet. -/
theorem pairwise_apart_iff (hsorted : l.Pairwise fun x y => s x ≤ s y)
    (hproper : ∀ x ∈ l, s x ≤ e x) : l.Pairwise (Apart s e) ↔ l.Pairwise fun x y => e x < s y := by
  constructor
  · intro h
    refine (hsorted.and h).imp_of_mem fun hx hy hxy => ?_
    exact lt_of_apart hxy.1 (hproper _ hy) hxy.2
  · exact List.Pairwise.imp apart_of_lt

/-- Intervals one after the other, each ending before the next begins. -/
theorem pairwise_cons_cons (hproper : ∀ w ∈ x :: y :: l, s w ≤ e w) :
    (x :: y :: l).Pairwise (fun x y => e x < s y) ↔
      e x < s y ∧ (y :: l).Pairwise fun x y => e x < s y := by
  constructor
  · intro h
    exact ⟨List.rel_of_pairwise_cons h (List.mem_cons_self ..), h.tail⟩
  · rintro ⟨hxy, h⟩
    refine List.pairwise_cons.mpr ⟨fun w hw => ?_, h⟩
    rcases List.mem_cons.mp hw with rfl | hw
    · exact hxy
    · exact lt_trans hxy (lt_of_le_of_lt (hproper y (by simp)) (List.rel_of_pairwise_cons h hw))

section

variable (h : l.Pairwise fun x y => e x < s y) (hproper : ∀ x ∈ l, s x ≤ e x) {i j : Nat} {v : β}
include h hproper

theorem not_within_of_lt (hij : i ≤ j) (hx : l[i]? = some x) (hy : l[j]? = some y)
    (hv : v < s x) : ¬ Within s e y v := by
  intro hw
  rcases Nat.lt_or_eq_of_le hij with hij | rfl
  · obtain ⟨hi, rfl⟩ := List.getElem?_eq_some_iff.mp hx
    obtain ⟨hj, rfl⟩ := List.getElem?_eq_some_iff.mp hy
    have hlt := List.pairwise_iff_getElem.mp h i j hi hj hij
    have hle := hproper _ (List.getElem_mem hi)
    exact absurd (le_trans hw.1 (le_trans hv.le hle)) (not_le.mpr hlt)
  · obtain rfl := Option.some.inj (hx.symm.trans hy)
    exact absurd hw.1 (not_le.mpr hv)

theorem not_within_of_gt (hji : j ≤ i) (hx : l[i]? = some x) (hy : l[j]? = some y)
    (hv : e x < v) : ¬ Within s e y v := by
  intro hw
  rcases Nat.lt_or_eq_of_le hji with hji | rfl
  · obtain ⟨hi, rfl⟩ := List.getElem?_eq_some_iff.mp hx
    obtain ⟨hj, rfl⟩ := List.getElem?_eq_some_iff.mp hy
    have hlt := List.pairwise_iff_getElem.mp h j i hj hi hji
    have hle := hproper _ (List.getElem_mem hi)
    exact absurd (le_trans hw.2 (le_trans hlt.le hle)) (not_le.mpr hv)
  · obtain rfl := Option.some.inj (hx.symm.trans hy)
    exact absurd hw.2 (not_le.mpr hv)

end

end Nibble.Lib
