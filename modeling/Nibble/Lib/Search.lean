import Mathlib.Logic.Relation

/-!
# Cycles in a depth-first search

What a depth-first search knows of the nodes that it has left: their edges stay among them, and
no cycle can be reached from them. The nodes that it has not met get fewer.
-/

namespace Nibble.Lib

open Relation

variable {α : Type*} {r : α → α → Prop}

/-- A cycle can be reached from `x`. -/
def CycleFrom (r : α → α → Prop) (x : α) : Prop := ∃ y, ReflTransGen r x y ∧ TransGen r y y

theorem CycleFrom.head {x y : α} (hxy : ReflTransGen r x y) (h : CycleFrom r y) :
    CycleFrom r x := by
  obtain ⟨z, hyz, hz⟩ := h
  exact ⟨z, hxy.trans hyz, hz⟩

/-- An edge back to a node that leads to its source closes a cycle. -/
theorem cycleFrom_of_back {x y : α} (hxy : ReflTransGen r x y) (hyx : r y x) : CycleFrom r y :=
  ⟨y, .refl, (TransGen.single hyx).trans_left hxy⟩

theorem closed_reach {s : α → Prop} (hclosed : ∀ x, s x → ∀ y, r x y → s y) {x y : α}
    (hxy : ReflTransGen r x y) (hx : s x) : s y := by
  induction hxy with
  | refl => exact hx
  | tail _ hyz ih => exact hclosed _ ih _ hyz

/-- A node whose edges lead to nodes that were left can be left too. -/
theorem not_cycleFrom {s : α → Prop} (hclosed : ∀ x, s x → ∀ y, r x y → s y)
    (hs : ∀ x, s x → ¬ CycleFrom r x) {x : α} (hx : ¬ s x) (hsucc : ∀ y, r x y → s y) :
    ¬ CycleFrom r x := by
  rintro ⟨y, hxy, hy⟩
  rcases ReflTransGen.cases_head hxy with rfl | ⟨z, hxz, hzy⟩
  · obtain ⟨z, hxz, hzx⟩ := TransGen.head'_iff.mp hy
    exact hx (closed_reach hclosed hzx (hsucc z hxz))
  · exact hs z (hsucc z hxz) ⟨y, hzy, hy⟩

/-- A node that is met is one less to meet. -/
theorem countP_lt_countP {l : List α} {p q : α → Bool} (h : ∀ x ∈ l, p x = true → q x = true)
    {a : α} (ha : a ∈ l) (hp : p a = false) (hq : q a = true) : l.countP p < l.countP q := by
  obtain ⟨l₁, l₂, rfl⟩ := List.append_of_mem ha
  have h₁ := List.countP_mono_left fun x hx => h x (List.mem_append_left _ hx)
  have h₂ := List.countP_mono_left fun x hx => h x (List.mem_append_right _ (.tail _ hx))
  simp only [List.countP_append, List.countP_cons, hp, hq, Bool.false_eq_true, if_false, if_true]
  omega

end Nibble.Lib
