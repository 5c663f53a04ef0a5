import Mathlib.Order.Lattice
import Mathlib.Data.List.Basic

/-!
# A pool of reused slots

Requests are placed in the slots of a pool one after the other, from a first
slot on. A slot that is used again grows to what was asked for, and the pool is
made longer where it ends. So a slot is at least what was ever placed in it.
-/

namespace Nibble.Lib.Pool

variable {α : Type} [SemilatticeSup α]

/-- No slot has shrunk. -/
def Grown (pool pool' : List α) : Prop :=
  ∀ (i : Nat) (x : α), pool[i]? = some x → ∃ y, pool'[i]? = some y ∧ x ≤ y

/-- Place a request in slot `c`, where the pool may end. -/
def place (pool : List α) (c : Nat) (r : α) : List α :=
  match pool[c]? with
  | some x => pool.set c (x ⊔ r)
  | none => pool ++ [r]

variable {pool pool' pool'' : List α} {c : Nat} {r : α}

theorem Grown.refl (pool : List α) : Grown pool pool := fun _ x h => ⟨x, h, le_rfl⟩

theorem Grown.trans (h : Grown pool pool') (h' : Grown pool' pool'') : Grown pool pool'' := by
  intro i x hx
  obtain ⟨y, hy, hxy⟩ := h i x hx
  obtain ⟨z, hz, hyz⟩ := h' i y hy
  exact ⟨z, hz, hxy.trans hyz⟩

theorem grown_place : Grown pool (place pool c r) := by
  intro i x hx
  unfold place
  split
  · rename_i y hy
    by_cases hi : c = i
    · subst hi
      cases hx.symm.trans hy
      exact ⟨x ⊔ r, List.getElem?_set_self (List.getElem?_eq_some_iff.mp hy).1, le_sup_left⟩
    · exact ⟨x, by rw [List.getElem?_set_ne hi]; exact hx, le_rfl⟩
  · have hi : i < pool.length := (List.getElem?_eq_some_iff.mp hx).1
    exact ⟨x, by rw [List.getElem?_append_left hi]; exact hx, le_rfl⟩

theorem place_covers (hc : c ≤ pool.length) : ∃ y, (place pool c r)[c]? = some y ∧ r ≤ y := by
  unfold place
  split
  · rename_i x hx
    exact ⟨x ⊔ r, List.getElem?_set_self (List.getElem?_eq_some_iff.mp hx).1, le_sup_right⟩
  · rename_i hx
    have hlen : c = pool.length := Nat.le_antisymm hc (List.getElem?_eq_none_iff.mp hx)
    exact ⟨r, by rw [hlen, List.getElem?_concat_length], le_rfl⟩

theorem lt_length_place (hc : c ≤ pool.length) : c < (place pool c r).length := by
  obtain ⟨y, hy, -⟩ := place_covers (r := r) hc
  exact (List.getElem?_eq_some_iff.mp hy).1

end Nibble.Lib.Pool
