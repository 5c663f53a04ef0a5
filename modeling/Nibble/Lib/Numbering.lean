import Mathlib.Data.List.Basic

/-!
# Numbering by order of arrival

A list that grows at its end, and the index that each element was given when it
was added. The index of an element is its position.
-/

namespace Nibble.Lib

structure Numbering (α : Type) where
  list : List α
  index : α → Nat

namespace Numbering

variable {α : Type} [DecidableEq α]

/-- An element is added once, with the count of those before it as its index. -/
def add (N : Numbering α) (x : α) : Numbering α :=
  if x ∈ N.list then N
  else ⟨N.list ++ [x], fun y => if y = x then N.list.length else N.index y⟩

/-- Each element is at its index. -/
def Ok (N : Numbering α) : Prop := ∀ x ∈ N.list, N.index x = N.list.idxOf x

theorem mem_add {N : Numbering α} {x y : α} : y ∈ (N.add x).list ↔ y ∈ N.list ∨ y = x := by
  unfold add
  split
  · rename_i hx
    constructor
    · exact .inl
    · rintro (h | rfl)
      · exact h
      · exact hx
  · simp

theorem Ok.add {N : Numbering α} (hN : N.Ok) (x : α) : (N.add x).Ok := by
  unfold Numbering.add
  split
  · exact hN
  · rename_i hx
    intro y hy
    by_cases hyx : y = x
    · subst hyx
      simp [List.idxOf_append_of_notMem hx]
    · have hmem : y ∈ N.list := by
        rcases List.mem_append.mp hy with h | h
        · exact h
        · exact absurd (List.mem_singleton.mp h) hyx
      show (if y = x then _ else N.index y) = (N.list ++ [x]).idxOf y
      rw [if_neg hyx, hN y hmem, List.idxOf_append_of_mem hmem]

def empty : Numbering α := ⟨[], fun _ => 0⟩

theorem ok_empty : (empty : Numbering α).Ok := fun _ hx => absurd hx List.not_mem_nil

/-- All elements of a sequence are added. -/
def run (N : Numbering α) (xs : List α) : Numbering α := xs.foldl add N

theorem Ok.run {N : Numbering α} (hN : N.Ok) (xs : List α) : (N.run xs).Ok := by
  induction xs generalizing N with
  | nil => exact hN
  | cons x xs ih => exact ih (hN.add x)

theorem mem_run {N : Numbering α} {xs : List α} {y : α} :
    y ∈ (N.run xs).list ↔ y ∈ N.list ∨ y ∈ xs := by
  induction xs generalizing N with
  | nil => simp [Numbering.run]
  | cons x xs ih =>
    show y ∈ ((N.add x).run xs).list ↔ _
    rw [ih, mem_add, List.mem_cons, or_assoc]

theorem nodup_run {N : Numbering α} (h : N.list.Nodup) (xs : List α) : (N.run xs).list.Nodup := by
  induction xs generalizing N with
  | nil => exact h
  | cons x xs ih =>
    refine ih (N := N.add x) ?_
    unfold Numbering.add
    split
    · exact h
    · rename_i hx
      refine List.nodup_append.mpr ⟨h, by simp, fun y hy z hz => ?_⟩
      rw [List.mem_singleton.mp hz]
      rintro rfl
      exact hx hy

end Numbering

end Nibble.Lib
