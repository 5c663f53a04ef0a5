import Mathlib.Data.List.Basic
import Mathlib.Order.Basic

/-!
# Sorting a segment of an array in place

An array is rearranged between two positions by swaps. What holds of all elements
between the positions, and everything outside, stays as it was. A segment is sorted
once both sides of an element in its place are.
-/

namespace Nibble.Lib

variable {α β : Type*} {lo hi : Nat} {xs ys zs : Array α}

/-- Swaps between `lo` and `hi` lead from the first array to the second. -/
inductive Shuffles (lo hi : Nat) (xs : Array α) : Array α → Prop
  | refl : Shuffles lo hi xs xs
  | swap {ys : Array α} {i j : Nat} (h : Shuffles lo hi xs ys) (h₁ : lo ≤ i ∧ i < hi)
      (h₂ : lo ≤ j ∧ j < hi) : Shuffles lo hi xs (ys.swapIfInBounds i j)

/-- `p` holds of all elements between `lo` and `hi`. -/
def HoldsIn (p : α → Prop) (lo hi : Nat) (xs : Array α) : Prop :=
  ∀ k x, lo ≤ k → k < hi → xs[k]? = some x → p x

/-- The elements between `lo` and `hi` are sorted by a key. -/
def SortedIn [Preorder β] (f : α → β) (lo hi : Nat) (xs : Array α) : Prop :=
  ∀ i j x y, lo ≤ i → i < j → j < hi → xs[i]? = some x → xs[j]? = some y → f x ≤ f y

theorem getElem?_swapIfInBounds {i j : Nat} (hi : i < xs.size) (hj : j < xs.size) (k : Nat) :
    (xs.swapIfInBounds i j)[k]? = if k = i then xs[j]? else if k = j then xs[i]? else xs[k]? := by
  rw [Array.swapIfInBounds_def, dif_pos hi, dif_pos hj, Array.getElem?_swap]
  by_cases hkj : j = k
  · subst hkj
    rw [if_pos rfl, if_pos rfl, Array.getElem?_eq_getElem hi, Array.getElem?_eq_getElem hj]
    split
    · rename_i hji
      subst hji
      rfl
    · rfl
  · rw [if_neg hkj, if_neg (Ne.symm hkj), Array.getElem?_eq_getElem hj]
    simp only [eq_comm (a := i)]

theorem swapIfInBounds_perm (xs : Array α) (i j : Nat) : (xs.swapIfInBounds i j).Perm xs := by
  rw [Array.swapIfInBounds_def]
  split
  · split
    · exact Array.swap_perm _ _
    · exact .refl _
  · exact .refl _

namespace Shuffles

theorem trans (h : Shuffles lo hi xs ys) (h' : Shuffles lo hi ys zs) : Shuffles lo hi xs zs := by
  induction h' with
  | refl => exact h
  | swap _ hi hj ih => exact ih.swap hi hj

theorem widen {lo' hi' : Nat} (h : Shuffles lo hi xs ys) (hlo : lo' ≤ lo) (hhi : hi ≤ hi') :
    Shuffles lo' hi' xs ys := by
  induction h with
  | refl => exact .refl
  | swap _ hi hj ih =>
    exact ih.swap ⟨Nat.le_trans hlo hi.1, Nat.lt_of_lt_of_le hi.2 hhi⟩ ⟨Nat.le_trans hlo hj.1, Nat.lt_of_lt_of_le hj.2 hhi⟩

theorem perm (h : Shuffles lo hi xs ys) : ys.Perm xs := by
  induction h with
  | refl => exact .refl _
  | swap _ _ _ ih => exact (swapIfInBounds_perm _ _ _).trans ih

theorem size_eq (h : Shuffles lo hi xs ys) : ys.size = xs.size := by
  induction h with
  | refl => rfl
  | swap _ _ _ ih => rw [Array.size_swapIfInBounds, ih]

theorem outside (h : Shuffles lo hi xs ys) (hhi : hi ≤ xs.size) {k : Nat} (hk : k < lo ∨ hi ≤ k) :
    ys[k]? = xs[k]? := by
  induction h with
  | refl => rfl
  | swap h hi hj ih =>
    rw [getElem?_swapIfInBounds (by have := h.size_eq; omega) (by have := h.size_eq; omega),
      if_neg (by omega), if_neg (by omega), ih]

theorem holdsIn {p : α → Prop} (h : Shuffles lo hi xs ys) (hhi : hi ≤ xs.size)
    (hp : HoldsIn p lo hi xs) : HoldsIn p lo hi ys := by
  induction h with
  | refl => exact hp
  | @swap ys i j h hi hj ih =>
    intro k x hlo hlt hx
    rw [getElem?_swapIfInBounds (by have := h.size_eq; omega) (by have := h.size_eq; omega)] at hx
    split at hx
    · exact ih j x hj.1 hj.2 hx
    · split at hx
      · exact ih i x hi.1 hi.2 hx
      · exact ih k x hlo hlt hx

end Shuffles

/-- What is true outside of a segment stays true. -/
theorem SortedIn.congr [Preorder β] {f : α → β} (h : SortedIn f lo hi xs)
    (heq : ∀ k, lo ≤ k → k < hi → ys[k]? = xs[k]?) : SortedIn f lo hi ys := by
  intro i j x y hlo hij hj hx hy
  rw [heq i hlo (by omega)] at hx
  rw [heq j (by omega) hj] at hy
  exact h i j x y hlo hij hj hx hy

theorem HoldsIn.congr {p : α → Prop} (h : HoldsIn p lo hi xs)
    (heq : ∀ k, lo ≤ k → k < hi → ys[k]? = xs[k]?) : HoldsIn p lo hi ys :=
  fun k x hlo hlt hx => h k x hlo hlt (heq k hlo hlt ▸ hx)

theorem HoldsIn.mono {p : α → Prop} {lo' hi' : Nat} (h : HoldsIn p lo hi xs) (hlo : lo ≤ lo')
    (hhi : hi' ≤ hi) : HoldsIn p lo' hi' xs :=
  fun k x hk hlt hx => h k x (Nat.le_trans hlo hk) (Nat.lt_of_lt_of_le hlt hhi) hx

theorem HoldsIn.snoc {p : α → Prop} {x : α} (h : HoldsIn p lo hi xs) (hx : xs[hi]? = some x)
    (px : p x) : HoldsIn p lo (hi + 1) xs := by
  intro k y hlo hlt hy
  rcases Nat.lt_succ_iff_lt_or_eq.mp hlt with hk | rfl
  · exact h k y hlo hk hy
  · exact Option.some.inj (hx.symm.trans hy) ▸ px

/-- The step of a partition: an element behind two parts is swapped to the end of the first. -/
theorem HoldsIn.partition {p q : α → Prop} {i j : Nat} {x : α} (hij : i ≤ j)
    (hp : HoldsIn p lo i xs) (hq : HoldsIn q i j xs) (hx : xs[j]? = some x) (px : p x) :
    HoldsIn p lo (i + 1) (xs.swapIfInBounds j i) ∧
      HoldsIn q (i + 1) (j + 1) (xs.swapIfInBounds j i) := by
  obtain ⟨hj, -⟩ := Array.getElem?_eq_some_iff.mp hx
  have hget := getElem?_swapIfInBounds hj (Nat.lt_of_le_of_lt hij hj)
  constructor
  · refine HoldsIn.snoc (p := p) (x := x) ?_ ?_ px
    · intro k y hlo hlt hy
      rw [hget, if_neg (by omega), if_neg (by omega)] at hy
      exact hp k y hlo hlt hy
    · rw [hget]
      split
      · rename_i hji
        rw [hji, hx]
      · rw [if_pos rfl, hx]
  · intro k y hlo hlt hy
    rw [hget] at hy
    split at hy
    · exact hq i y (Nat.le_refl i) (by omega) hy
    · rw [if_neg (by omega)] at hy
      exact hq k y (by omega) (by omega) hy

/-- Two sorted sides of an element that divides them. -/
theorem SortedIn.join [Preorder β] {f : α → β} {p : Nat} {v : α} (hv : xs[p]? = some v)
    (hleft : SortedIn f lo p xs) (hright : SortedIn f (p + 1) hi xs)
    (hle : HoldsIn (fun x => f x ≤ f v) lo p xs) (hge : HoldsIn (fun x => f v ≤ f x) (p + 1) hi xs) :
    SortedIn f lo hi xs := by
  intro i j x y hlo hij hj hx hy
  rcases Nat.lt_trichotomy j p with hjp | rfl | hjp
  · exact hleft i j x y hlo hij hjp hx hy
  · obtain rfl := Option.some.inj (hv.symm.trans hy)
    exact hle i x hlo hij hx
  · rcases Nat.lt_trichotomy i p with hip | rfl | hip
    · exact (hle i x hlo hip hx).trans (hge j y hjp hj hy)
    · obtain rfl := Option.some.inj (hv.symm.trans hx)
      exact hge j y hjp hj hy
    · exact hright i j x y hip hij hj hx hy

/-- The step of quicksort: around an element in its place, both sides are sorted one after the
other. -/
theorem SortedIn.quicksort [Preorder β] {f : α → β} {p : Nat} {v : α} (hhi : hi ≤ xs.size)
    (hp : lo ≤ p ∧ p < hi) (hv : xs[p]? = some v) (hle : HoldsIn (fun x => f x ≤ f v) lo p xs)
    (hge : HoldsIn (fun x => f v ≤ f x) (p + 1) hi xs)
    (hleft : Shuffles lo p xs ys) (hys : SortedIn f lo p ys)
    (hright : Shuffles (p + 1) hi ys zs) (hzs : SortedIn f (p + 1) hi zs) :
    Shuffles lo hi xs zs ∧ SortedIn f lo hi zs := by
  have hsize := hleft.size_eq
  have hout : ∀ k, k < p + 1 → zs[k]? = ys[k]? := fun k hk =>
    hright.outside (by omega) (.inl hk)
  have hinner : ∀ k, p ≤ k → ys[k]? = xs[k]? := fun k hk =>
    hleft.outside (by omega) (.inr hk)
  constructor
  · exact (hleft.widen (Nat.le_refl lo) (Nat.le_of_lt hp.2)).trans
      (hright.widen (by omega) (Nat.le_refl hi))
  · apply SortedIn.join (p := p) (v := v)
    · rw [hout p (by omega), hinner p (Nat.le_refl p), hv]
    · exact hys.congr fun k _ hk => hout k (by omega)
    · exact hzs
    · exact (hleft.holdsIn (by omega) hle).congr fun k _ hk => hout k (by omega)
    · exact hright.holdsIn (by omega) (hge.congr fun k hk _ => hinner k (by omega))

/-- A segment that is the whole array. -/
theorem SortedIn.pairwise [Preorder β] {f : α → β} (h : SortedIn f 0 xs.size xs) :
    xs.toList.Pairwise fun x y => f x ≤ f y := by
  rw [List.pairwise_iff_getElem]
  intro i j hi hj hij
  simp only [Array.length_toList] at hi hj
  exact h i j _ _ (Nat.zero_le i) hij hj (by simp [hi]) (by simp [hj])

end Nibble.Lib
