import Mathlib.Logic.Relation
import Mathlib.Order.Defs.LinearOrder
import Mathlib.Order.Lattice

/-!
# Liveness along a layout

The positions of a program are in a line, and control moves between them by
`succ`. A place for values is read and written at some positions; it is live
where it has been written on the way and is read before it is written again.
If every access lies in an interval, control that only moves forward cannot
make the place live outside. So what a layout without regard to loops misses
is decided by the edges that lead back.
-/

namespace Nibble.Lib.Live

open Relation (ReflTransGen)

section

variable {π : Type*} (succ : π → π → Prop) (entry : π) (reads writes : π → Prop)

/-- On some path from the entry the place has been written before `p`. -/
inductive Written : π → Prop where
  | write {p q : π} (hp : ReflTransGen succ entry p) (hw : writes p) (hs : succ p q) : Written q
  | step {p q : π} (h : Written p) (hs : succ p q) : Written q

/-- On some path from `p` the place is read before it is written. -/
inductive Needed : π → Prop where
  | read {p : π} (hr : reads p) : Needed p
  | step {p q : π} (hw : ¬ writes p) (hs : succ p q) (h : Needed q) : Needed p

/-- The place holds a value before `p` that is read later. -/
def Live (p : π) : Prop := Written succ entry writes p ∧ Needed succ reads writes p

/-- The place holds a value on the way from `u` to `v` that is read later. -/
def Carries (u v : π) : Prop :=
  succ u v ∧ (Written succ entry writes u ∨ ReflTransGen succ entry u ∧ writes u) ∧
    Needed succ reads writes v

variable {succ entry reads writes}

theorem Carries.live {u v : π} (h : Carries succ entry reads writes u v) :
    Live succ entry reads writes v := by
  obtain ⟨hs, hw, hn⟩ := h
  exact ⟨hw.elim (fun hw => .step hw hs) fun ⟨hp, hw⟩ => .write hp hw hs, hn⟩

/-- A place that is live has been accessed. -/
theorem Written.exists_write {p : π} (h : Written succ entry writes p) : ∃ q, writes q := by
  induction h with
  | write _ hw _ => exact ⟨_, hw⟩
  | step _ _ ih => exact ih

variable [LinearOrder π] {s e : π}

/-- A path from a write stays behind the first access, if the edges back do. -/
theorem lt_of_written (hacc : ∀ p, reads p ∨ writes p → s ≤ p ∧ p ≤ e)
    (hback : ∀ u v, Carries succ entry reads writes u v → v ≤ u → s < v ∧ u ≤ e) {q : π}
    (h : Written succ entry writes q) (hn : Needed succ reads writes q) : s < q := by
  induction h with
  | @write p q hp hw hs =>
    rcases lt_or_ge p q with hlt | hge
    · exact lt_of_le_of_lt (hacc p (.inr hw)).1 hlt
    · exact (hback p q ⟨hs, .inr ⟨hp, hw⟩, hn⟩ hge).1
  | @step p q h hs ih =>
    rcases lt_or_ge p q with hlt | hge
    · by_cases hw : writes p
      · exact lt_of_le_of_lt (hacc p (.inr hw)).1 hlt
      · exact lt_trans (ih (.step hw hs hn)) hlt
    · exact (hback p q ⟨hs, .inl h, hn⟩ hge).1

/-- A path to a read stays before the last access. -/
theorem le_of_needed (hacc : ∀ p, reads p ∨ writes p → s ≤ p ∧ p ≤ e)
    (hback : ∀ u v, Carries succ entry reads writes u v → v ≤ u → s < v ∧ u ≤ e) {p : π}
    (hn : Needed succ reads writes p) (h : Written succ entry writes p) : p ≤ e := by
  induction hn with
  | read hr => exact (hacc _ (.inl hr)).2
  | @step p q hw hs hn ih =>
    rcases lt_or_ge p q with hlt | hge
    · exact le_trans (le_of_lt hlt) (ih (.step h hs))
    · exact (hback p q ⟨hs, .inl h, hn⟩ hge).2

/-- An interval around all accesses contains all positions where the place is live exactly if it
contains both ends of every edge back that carries the place. -/
theorem live_within_iff (hacc : ∀ p, reads p ∨ writes p → s ≤ p ∧ p ≤ e) :
    (∀ p, Live succ entry reads writes p → s < p ∧ p ≤ e) ↔
      ∀ u v, Carries succ entry reads writes u v → v ≤ u → s < v ∧ u ≤ e := by
  constructor
  · intro h u v hc _
    refine ⟨(h v hc.live).1, ?_⟩
    by_cases hw : writes u
    · exact (hacc u (.inr hw)).2
    · obtain ⟨hs, hwritten | hwrites, hn⟩ := hc
      · exact (h u ⟨hwritten, .step hw hs hn⟩).2
      · exact absurd hwrites.2 hw
  · intro hback p ⟨hw, hn⟩
    exact ⟨lt_of_written hacc hback hw hn, le_of_needed hacc hback hn hw⟩

end

end Nibble.Lib.Live
