import Mathlib.Data.List.Perm.Basic
import Mathlib.Data.List.Nodup

/-!
# Sorted worklists

Insertion into a list sorted by a key, and a scan that takes the elements of a
worklist in turn: each step sees the state the one before it left and the rest
of the list, and may fail. `scan_keeps` is the invariant rule, and a scan
succeeds exactly if every configuration it reaches can step.
-/

namespace Nibble.Lib

section Insertion

variable {α : Type*} (key : α → Int)

/-- Insert before the first element with a larger key. -/
def insertBy (x : α) : List α → List α
  | [] => [x]
  | y :: ys => if key x < key y then x :: y :: ys else y :: insertBy x ys

/-- Insertion that looks at the last element first. -/
def addBy (x : α) (l : List α) : List α :=
  match l.getLast? with
  | some y => if key y ≤ key x then l ++ [x] else insertBy key x l
  | none => [x]

/-- Sorted by the key. -/
def SortedBy (l : List α) : Prop := l.Pairwise fun a b => key a ≤ key b

variable {key}

theorem insertBy_perm (x : α) (l : List α) : (insertBy key x l).Perm (x :: l) := by
  induction l with
  | nil => exact List.Perm.refl _
  | cons y ys ih =>
    simp only [insertBy]
    split
    · exact List.Perm.refl _
    · exact (ih.cons y).trans (List.Perm.swap x y ys)

theorem addBy_perm (x : α) (l : List α) : (addBy key x l).Perm (x :: l) := by
  unfold addBy
  split
  · split
    · exact List.perm_append_singleton x l
    · exact insertBy_perm x l
  next h =>
    rw [List.getLast?_eq_none_iff] at h
    rw [h]

@[simp] theorem mem_addBy {x y : α} {l : List α} : y ∈ addBy key x l ↔ y = x ∨ y ∈ l := by
  rw [(addBy_perm x l).mem_iff, List.mem_cons]

theorem insertBy_sorted {x : α} {l : List α} (h : SortedBy key l) :
    SortedBy key (insertBy key x l) := by
  induction l with
  | nil => exact List.pairwise_singleton _ _
  | cons y ys ih =>
    obtain ⟨hy, hys⟩ := List.pairwise_cons.mp h
    simp only [insertBy]
    split
    next hlt =>
      refine List.pairwise_cons.mpr ⟨fun z hz => ?_, h⟩
      rcases List.mem_cons.mp hz with rfl | hz
      · exact Int.le_of_lt hlt
      · exact Int.le_trans (Int.le_of_lt hlt) (hy z hz)
    next hge =>
      refine List.pairwise_cons.mpr ⟨fun z hz => ?_, ih hys⟩
      rcases List.mem_cons.mp ((insertBy_perm x ys).mem_iff.mp hz) with rfl | hz
      · exact Int.not_lt.mp hge
      · exact hy z hz

/-- No element of a sorted list is after its last. -/
theorem SortedBy.le_getLast {l : List α} (h : SortedBy key l) {y : α} (hy : l.getLast? = some y) :
    ∀ z ∈ l, key z ≤ key y := by
  intro z hz
  obtain ⟨ys, rfl⟩ := List.getLast?_eq_some_iff.mp hy
  rcases List.mem_append.mp hz with hz | hz
  · exact (List.pairwise_append.mp h).2.2 z hz y (List.mem_singleton_self y)
  · exact Int.le_of_eq (congrArg key (List.mem_singleton.mp hz))

theorem addBy_sorted {x : α} {l : List α} (h : SortedBy key l) : SortedBy key (addBy key x l) := by
  unfold addBy
  split
  next y hy =>
    split
    next hle =>
      refine List.pairwise_append.mpr ⟨h, List.pairwise_singleton _ _, fun z hz w hw => ?_⟩
      rw [List.mem_singleton.mp hw]
      exact Int.le_trans (h.le_getLast hy z hz) hle
    next => exact insertBy_sorted h
  next => exact List.pairwise_singleton _ _

/-- The elements added one after the other. -/
theorem foldl_addBy_perm (xs l : List α) :
    (xs.foldl (fun l x => addBy key x l) l).Perm (xs ++ l) := by
  induction xs generalizing l with
  | nil => exact List.Perm.refl _
  | cons x xs ih =>
    have h : (xs ++ addBy key x l).Perm (xs ++ x :: l) := (addBy_perm x l).append_left xs
    exact (ih _).trans (h.trans List.perm_middle)

theorem foldl_addBy_sorted (xs : List α) {l : List α} (h : SortedBy key l) :
    SortedBy key (xs.foldl (fun l x => addBy key x l) l) := by
  induction xs generalizing l with
  | nil => exact h
  | cons x xs ih => exact ih (addBy_sorted h)

end Insertion

section Scan

variable {σ α : Type*} (step : σ → α → List α → Option σ)

/-- The elements of the worklist in turn. -/
def scan : σ → List α → Option σ
  | s, [] => some s
  | s, x :: rest => (step s x rest).bind fun s' => scan s' rest

/-- The configurations of a scan. -/
inductive Scans : σ → List α → σ → List α → Prop where
  | refl {s l} : Scans s l s l
  | step {s x rest s' t l} (h : step s x rest = some s') (tail : Scans s' rest t l) :
    Scans s (x :: rest) t l

variable {step}

theorem Scans.keeps {I : σ → List α → Prop}
    (h : ∀ s x rest s', I s (x :: rest) → step s x rest = some s' → I s' rest)
    {s t : σ} {l m : List α} (hr : Scans step s l t m) (hI : I s l) : I t m := by
  induction hr with
  | refl => exact hI
  | step hs _ ih => exact ih (h _ _ _ _ hI hs)

/-- A scan that succeeds goes through its configurations to the end of the worklist. -/
theorem scan_eq_some {s t : σ} {l : List α} (h : scan step s l = some t) :
    Scans step s l t [] := by
  induction l generalizing s with
  | nil =>
    cases h
    exact .refl
  | cons x rest ih =>
    obtain ⟨s', hs, ht⟩ := Option.bind_eq_some_iff.mp h
    exact .step hs (ih ht)

/-- What every step keeps holds at the end of the worklist. -/
theorem scan_keeps {I : σ → List α → Prop}
    (h : ∀ s x rest s', I s (x :: rest) → step s x rest = some s' → I s' rest)
    {s t : σ} {l : List α} (hI : I s l) (hr : scan step s l = some t) : I t [] :=
  (scan_eq_some hr).keeps h hI

/-- A scan succeeds exactly if every configuration it reaches can step. -/
theorem exists_scan_iff {s : σ} {l : List α} :
    (∃ t, scan step s l = some t) ↔
      ∀ t x rest, Scans step s l t (x :: rest) → ∃ t', step t x rest = some t' := by
  induction l generalizing s with
  | nil =>
    refine ⟨fun _ t x rest hr => ?_, fun _ => ⟨s, rfl⟩⟩
    cases hr
  | cons x rest ih =>
    constructor
    · rintro ⟨t, ht⟩
      obtain ⟨s', hs, ht⟩ := Option.bind_eq_some_iff.mp ht
      intro u y rest' hr
      cases hr with
      | refl => exact ⟨s', hs⟩
      | step hs' tail =>
        rw [hs] at hs'
        cases hs'
        exact ih.mp ⟨t, ht⟩ u y rest' tail
    · intro h
      obtain ⟨s', hs⟩ := h s x rest .refl
      obtain ⟨t, ht⟩ := ih.mpr fun u y rest' hr => h u y rest' (.step hs hr)
      exact ⟨t, Option.bind_eq_some_iff.mpr ⟨s', hs, ht⟩⟩

end Scan

end Nibble.Lib
