import Nibble.Lib.Layout

/-!
# Objects of nested scopes on a stack

A stack grows away from its base. An object is put below what is there, at the
next depth that is a multiple of its alignment; its bytes end at its depth.
Scopes nest: the objects of a scope are put first, and each scope in it starts
where they end, so that scopes side by side use the same space. Objects of
scopes of which one contains the other are then apart.
-/

namespace Nibble.Lib

/-- An object of a scope, with the depth it begins at. The path leads to the scope. -/
structure Slot where
  path : List Nat
  size : Nat
  align : Nat
  depth : Nat
  deriving DecidableEq, Repr

namespace Slot

/-- No byte is in both. -/
def Apart (a b : Slot) : Prop := a.depth + b.size ≤ b.depth ∨ b.depth + a.size ≤ a.depth

/-- One of the scopes is the other or contains it. -/
def Nested (a b : Slot) : Prop := a.path <+: b.path ∨ b.path <+: a.path

/-- The bytes are between two depths, and aligned. -/
structure Within (s : Slot) (lo hi : Nat) : Prop where
  lower : lo + s.size ≤ s.depth
  upper : s.depth ≤ hi
  aligned : s.align ∣ s.depth

theorem Within.mono {s : Slot} {lo hi lo' hi' : Nat} (h : s.Within lo hi) (hlo : lo' ≤ lo)
    (hhi : hi ≤ hi') : s.Within lo' hi' :=
  ⟨by have := h.lower; omega, Nat.le_trans h.upper hhi, h.aligned⟩

/-- What ends where another object may begin is apart from it. -/
theorem Within.apart {a b : Slot} {lo mid hi : Nat} (ha : a.Within lo mid) (hb : b.Within mid hi) :
    a.Apart b := by
  have h₁ := ha.upper
  have h₂ := hb.lower
  exact .inl (by omega)

end Slot

/-- Slots between two depths, of which nested ones are apart. -/
structure SlotStack (slots : List Slot) (lo hi : Nat) : Prop where
  le : lo ≤ hi
  within : ∀ s ∈ slots, s.Within lo hi
  apart : slots.Pairwise fun a b => a.Nested b → a.Apart b

namespace SlotStack

variable {slots slots' : List Slot} {lo mid hi : Nat}

theorem nil (h : lo ≤ hi) : SlotStack [] lo hi := ⟨h, by simp, .nil⟩

theorem single {s : Slot} (h : s.Within lo hi) : SlotStack [s] lo hi :=
  ⟨by have := h.lower; have := h.upper; omega, by simpa using h, List.pairwise_singleton _ _⟩

theorem mono {hi' : Nat} (h : SlotStack slots lo hi) (hhi : hi ≤ hi') : SlotStack slots lo hi' :=
  ⟨Nat.le_trans h.le hhi, fun s hs => (h.within s hs).mono (Nat.le_refl _) hhi, h.apart⟩

/-- One stack below the other. -/
theorem append (h : SlotStack slots lo mid) (h' : SlotStack slots' mid hi) :
    SlotStack (slots ++ slots') lo hi := by
  refine ⟨Nat.le_trans h.le h'.le, fun s hs => ?_, ?_⟩
  · rcases List.mem_append.mp hs with hs | hs
    · exact (h.within s hs).mono (Nat.le_refl _) h'.le
    · exact (h'.within s hs).mono h.le (Nat.le_refl _)
  · refine List.pairwise_append.mpr ⟨h.apart, h'.apart, fun a ha b hb _ => ?_⟩
    exact (h.within a ha).apart (h'.within b hb)

end SlotStack

/-! ## One scope -/

/-- Where an object goes below a depth. -/
def sink (n : Nat) (i : Item) : Nat := alignUp (n + i.size) i.align

/-- The objects of one scope in their order. -/
def sinkAll (path : List Nat) : List Item → Nat → List Slot
  | [], _ => []
  | i :: is, n => ⟨path, i.size, i.align, sink n i⟩ :: sinkAll path is (sink n i)

/-- The depth below them. -/
def sinkEnd : List Item → Nat → Nat
  | [], n => n
  | i :: is, n => sinkEnd is (sink n i)

theorem sinkAll_append (path : List Nat) (is js : List Item) (n : Nat) :
    sinkAll path (is ++ js) n = sinkAll path is n ++ sinkAll path js (sinkEnd is n) := by
  induction is generalizing n with
  | nil => rfl
  | cons i is ih => simp [sinkAll, sinkEnd, ih]

theorem sinkEnd_append (is js : List Item) (n : Nat) :
    sinkEnd (is ++ js) n = sinkEnd js (sinkEnd is n) := by
  induction is generalizing n with
  | nil => rfl
  | cons i is ih => simp [sinkEnd, ih]

theorem within_sink {path : List Nat} {i : Item} (n : Nat) (hi : 0 < i.align) :
    Slot.Within ⟨path, i.size, i.align, sink n i⟩ n (sink n i) :=
  ⟨le_alignUp _ hi, Nat.le_refl _, dvd_alignUp _ _⟩

theorem le_sinkEnd {is : List Item} (his : ∀ i ∈ is, 0 < i.align) (n : Nat) : n ≤ sinkEnd is n := by
  induction is generalizing n with
  | nil => exact Nat.le_refl n
  | cons i is ih =>
    have h₁ := (@within_sink [] _ n (his i List.mem_cons_self)).lower
    have h₂ := ih (fun j hj => his j (List.mem_cons_of_mem _ hj)) (sink n i)
    simp only [sinkEnd] at h₁ h₂ ⊢
    omega

theorem stacked_sinkAll (path : List Nat) {is : List Item} (his : ∀ i ∈ is, 0 < i.align) (n : Nat) :
    SlotStack (sinkAll path is n) n (sinkEnd is n) := by
  induction is generalizing n with
  | nil => exact .nil (Nat.le_refl n)
  | cons i is ih =>
    have hi := @within_sink path _ n (his i List.mem_cons_self)
    exact (SlotStack.single hi).append (ih (fun j hj => his j (List.mem_cons_of_mem _ hj)) _)

/-! ## Scopes in scopes -/

/-- A scope: what is declared in it, and the scopes in it. -/
inductive ScopeTree (α : Type) where
  | mk (decls : α) (children : List (ScopeTree α))

namespace ScopeTree

variable {α : Type} (items : α → List Item) (pad : Nat)

mutual

/-- The depth that a scope takes, from the one it starts at, in multiples of `pad`. -/
def bottom : ScopeTree α → Nat → Nat
  | mk decls children, n =>
    alignUp (bottomAll children (sinkEnd (items decls) n)) pad

/-- The largest one of scopes side by side. -/
def bottomAll : List (ScopeTree α) → Nat → Nat
  | [], n => n
  | t :: ts, n => max (t.bottom n) (bottomAll ts n)

end

mutual

/-- The objects of a scope and of all scopes in it. -/
def slots : ScopeTree α → List Nat → Nat → List Slot
  | mk decls children, path, n =>
    sinkAll path (items decls) n ++ slotsAll children path 0 (sinkEnd (items decls) n)

/-- The objects of scopes side by side, numbered from `k`. -/
def slotsAll : List (ScopeTree α) → List Nat → Nat → Nat → List Slot
  | [], _, _, _ => []
  | t :: ts, path, k, n => t.slots (path ++ [k]) n ++ slotsAll ts path (k + 1) n

end

mutual

/-- What holds of all objects. -/
def All (p : Item → Prop) : ScopeTree α → Prop
  | mk decls children => (∀ i ∈ items decls, p i) ∧ AllIn p children

def AllIn (p : Item → Prop) : List (ScopeTree α) → Prop
  | [] => True
  | t :: ts => t.All p ∧ AllIn p ts

end

mutual

theorem All.imp {p q : Item → Prop} (hpq : ∀ i, p i → q i) : (t : ScopeTree α) →
    t.All items p → t.All items q
  | mk decls children, h => by
    rw [All] at h ⊢
    exact ⟨fun i hi => hpq i (h.1 i hi), AllIn.imp hpq children h.2⟩

theorem AllIn.imp {p q : Item → Prop} (hpq : ∀ i, p i → q i) : (ts : List (ScopeTree α)) →
    AllIn items p ts → AllIn items q ts
  | [], _ => by
    rw [AllIn]
    trivial
  | t :: ts, h => by
    rw [AllIn] at h ⊢
    exact ⟨All.imp hpq t h.1, AllIn.imp hpq ts h.2⟩

end

theorem le_bottomAll (ts : List (ScopeTree α)) (n : Nat) : n ≤ bottomAll items pad ts n := by
  induction ts with
  | nil => rw [bottomAll]
  | cons t ts ih =>
    rw [bottomAll]
    exact Nat.le_trans ih (Nat.le_max_right _ _)

/-- Objects of scopes side by side are not nested. -/
theorem not_nested {path : List Nat} {a b : Slot} {j k : Nat} (hjk : j ≠ k)
    (ha : path ++ [j] <+: a.path) (hb : path ++ [k] <+: b.path) : ¬ a.Nested b := by
  have hne : ∀ {p q : List Nat}, path ++ [j] <+: p → path ++ [k] <+: q → ¬ p <+: q := by
    rintro p q hp hq hpq
    have hlen : (path ++ [j]).length ≤ (path ++ [k]).length := by simp
    have hpre := List.prefix_of_prefix_length_le (hp.trans hpq) hq hlen
    rw [List.prefix_append_right_inj, List.cons_prefix_cons] at hpre
    exact hjk hpre.1
  rintro (h | h)
  · exact hne ha hb h
  · have hlen : (path ++ [k]).length ≤ (path ++ [j]).length := by simp
    have hpre := List.prefix_of_prefix_length_le (hb.trans h) ha hlen
    rw [List.prefix_append_right_inj, List.cons_prefix_cons] at hpre
    exact hjk hpre.1.symm

theorem path_sinkAll {path : List Nat} {is : List Item} {n : Nat} {s : Slot}
    (h : s ∈ sinkAll path is n) : s.path = path := by
  induction is generalizing n with
  | nil => cases h
  | cons i is ih =>
    rcases List.mem_cons.mp h with rfl | h
    · rfl
    · exact ih h

mutual

/-- Every object is in the scope or in one in it. -/
theorem prefix_slots : (t : ScopeTree α) → {path : List Nat} → {n : Nat} → {s : Slot} →
    s ∈ t.slots items path n → path <+: s.path
  | mk decls children, path, n, s, h => by
    rw [slots] at h
    rcases List.mem_append.mp h with h | h
    · have hpath := path_sinkAll h
      exact hpath.symm ▸ List.prefix_rfl
    · obtain ⟨j, -, hj⟩ := prefix_slotsAll children h
      exact (List.prefix_append path [j]).trans hj

theorem prefix_slotsAll : (ts : List (ScopeTree α)) → {path : List Nat} → {k n : Nat} →
    {s : Slot} → s ∈ slotsAll items ts path k n → ∃ j, k ≤ j ∧ path ++ [j] <+: s.path
  | [], _, _, _, _, h => by
    rw [slotsAll] at h
    cases h
  | t :: ts, path, k, n, s, h => by
    rw [slotsAll] at h
    rcases List.mem_append.mp h with h | h
    · exact ⟨k, Nat.le_refl k, prefix_slots t h⟩
    · obtain ⟨j, hj, hpre⟩ := prefix_slotsAll ts h
      exact ⟨j, by omega, hpre⟩

end

mutual

/-- The objects of a scope are stacked. -/
theorem stacked_slots (hpad : 0 < pad) : (t : ScopeTree α) → t.All items (fun i => 0 < i.align) →
    (path : List Nat) → (n : Nat) → SlotStack (t.slots items path n) n (t.bottom items pad n)
  | mk decls children, h, path, n => by
    rw [All] at h
    rw [slots, bottom]
    have hchildren := stacked_slotsAll hpad children h.2 path 0 (sinkEnd (items decls) n)
    exact ((stacked_sinkAll path h.1 n).append hchildren).mono (le_alignUp _ hpad)

theorem stacked_slotsAll (hpad : 0 < pad) : (ts : List (ScopeTree α)) →
    AllIn items (fun i => 0 < i.align) ts → (path : List Nat) → (k n : Nat) →
      SlotStack (slotsAll items ts path k n) n (bottomAll items pad ts n)
  | [], _, path, k, n => by
    rw [slotsAll, bottomAll]
    exact .nil (Nat.le_refl n)
  | t :: ts, h, path, k, n => by
    rw [AllIn] at h
    rw [slotsAll, bottomAll]
    have ht := (stacked_slots hpad t h.1 (path ++ [k]) n).mono
      (Nat.le_max_left _ (bottomAll items pad ts n))
    have hts := (stacked_slotsAll hpad ts h.2 path (k + 1) n).mono
      (Nat.le_max_right (t.bottom items pad n) _)
    refine ⟨ht.le, fun s hs => ?_, ?_⟩
    · exact (List.mem_append.mp hs).elim (ht.within s) (hts.within s)
    · refine List.pairwise_append.mpr ⟨ht.apart, hts.apart, fun a ha b hb hnest => ?_⟩
      obtain ⟨j, hj, hpre⟩ := prefix_slotsAll items ts hb
      exact absurd hnest (not_nested (by omega) (prefix_slots items t ha) hpre)

end

end ScopeTree

end Nibble.Lib
