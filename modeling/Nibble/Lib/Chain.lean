import Mathlib.Logic.Function.Basic
import Mathlib.Data.List.Basic
import Mathlib.Data.List.Nodup

/-!
# Singly linked lists

A list threaded through a `next` pointer function. `IsChain nx h l` says that
following `nx` from the head `h` visits exactly the nodes of `l` and ends. The
operations are the ones an intrusive list with a tail pointer has: append a
node, splice a second list at the end, drop the head. `Closed` is the view used
when a list is no longer well formed: no pointer from outside a set leads into
it.
-/

namespace Nibble.Lib

variable {α : Type*}

/-- Following `nx` from `h` visits the nodes of `l` in order and then ends. -/
def IsChain (nx : α → Option α) : Option α → List α → Prop
  | h, [] => h = none
  | h, a :: l => h = some a ∧ IsChain nx (nx a) l

namespace IsChain

variable {nx nx' : α → Option α} {h : Option α} {l l' : List α} {a : α}

@[simp] theorem nil_iff : IsChain nx h [] ↔ h = none := Iff.rfl

@[simp] theorem cons_iff : IsChain nx h (a :: l) ↔ h = some a ∧ IsChain nx (nx a) l := Iff.rfl

theorem head (hc : IsChain nx h l) : h = l.head? := by
  cases l with
  | nil => exact hc
  | cons a l => exact hc.1

/-- A chain reads only the pointers of its own nodes. -/
theorem congr (hc : IsChain nx h l) (hag : ∀ a ∈ l, nx' a = nx a) : IsChain nx' h l := by
  induction l generalizing h with
  | nil => exact hc
  | cons a l ih =>
    refine ⟨hc.1, ?_⟩
    rw [hag a List.mem_cons_self]
    exact ih hc.2 fun b hb => hag b (List.mem_cons_of_mem _ hb)

/-- The head determines the list. -/
theorem unique (hc : IsChain nx h l) (hc' : IsChain nx h l') : l = l' := by
  induction l generalizing h l' with
  | nil =>
    cases l' with
    | nil => rfl
    | cons b l' => exact absurd (hc.symm.trans hc'.1) (by simp)
  | cons a l ih =>
    cases l' with
    | nil => exact absurd (hc.1.symm.trans hc') (by simp)
    | cons b l' =>
      obtain rfl : a = b := Option.some.inj (hc.1.symm.trans hc'.1)
      rw [ih hc.2 hc'.2]

/-- Every pointer of a chain stays in the chain. -/
theorem next_mem (hc : IsChain nx h l) {b : α} (ha : a ∈ l) (hb : nx a = some b) : b ∈ l := by
  induction l generalizing h with
  | nil => cases ha
  | cons x l ih =>
    rcases List.mem_cons.mp ha with rfl | ha
    · cases l with
      | nil => exact absurd (hb.symm.trans hc.2) (by simp)
      | cons y l =>
        obtain rfl : b = y := Option.some.inj (hb.symm.trans hc.2.1)
        simp
    · exact List.mem_cons_of_mem _ (ih hc.2 ha)

/-- Two chains whose seam is the tail pointer of the first. -/
theorem append [DecidableEq α] {h' : Option α} (hne : l ≠ []) (hnd : l.Nodup) (hc : IsChain nx h l)
    (hc' : IsChain nx' h' l')
    (hseam : ∀ a ∈ l, nx' a = if l.getLast? = some a then h' else nx a) :
    IsChain nx' h (l ++ l') := by
  induction l generalizing h with
  | nil => exact absurd rfl hne
  | cons a l ih =>
    refine ⟨hc.1, ?_⟩
    rw [hseam a List.mem_cons_self]
    cases l with
    | nil => simpa using hc'
    | cons b l =>
      have ha : a ∉ b :: l := (List.nodup_cons.mp hnd).1
      have hlast : (a :: b :: l).getLast? ≠ some a := by
        rw [List.getLast?_cons_cons]
        exact fun e => ha (List.mem_of_getLast? e)
      rw [if_neg hlast]
      refine ih (by simp) (List.nodup_cons.mp hnd).2 hc.2 fun x hx => ?_
      rw [hseam x (List.mem_cons_of_mem _ hx), List.getLast?_cons_cons]

end IsChain

/-- No pointer from outside `L` leads into `L`. -/
def Closed (nx : α → Option α) (L : α → Prop) : Prop :=
  ∀ a b, ¬ L a → nx a = some b → ¬ L b

namespace Closed

variable {nx : α → Option α} {L : α → Prop}

/-- Redirecting one pointer keeps the set closed, unless it is redirected into the set. -/
theorem update [DecidableEq α] (hc : Closed nx L) {x : α} {t : Option α}
    (ht : ∀ b, ¬ L x → t = some b → ¬ L b) : Closed (Function.update nx x t) L := by
  intro a b ha hb
  by_cases e : a = x
  · subst e
    rw [Function.update_self] at hb
    exact ht b ha hb
  · rw [Function.update_of_ne e] at hb
    exact hc a b ha hb

end Closed

end Nibble.Lib
