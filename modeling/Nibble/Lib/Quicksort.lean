import Nibble.Lib.Segment
import Mathlib.Order.Defs.LinearOrder
import Mathlib.Order.Lattice

/-!
# Quicksort in place

Quicksort with the middle element as the pivot, over a comparison that is given. Where the
comparison is the order of a key, every segment is sorted by it.
-/

namespace Nibble.Lib.Quicksort

variable {α β : Type*} (le : α → α → Bool)

/-- The loop of the partition, for the `n` elements from `j` on. -/
def partitionLoop (pivot : α) : Nat → Array α → Nat → Nat → Option (Array α × Nat)
  | 0, xs, i, _ => some (xs, i)
  | n + 1, xs, i, j => do
    let x ← xs[j]?
    if le x pivot then partitionLoop pivot n (xs.swapIfInBounds j i) (i + 1) (j + 1)
    else partitionLoop pivot n xs i (j + 1)

/-- The elements that are not above the pivot in front of it, and where it is. -/
def partition (xs : Array α) (lo hi : Nat) : Option (Array α × Nat) := do
  let mid := lo + (hi - lo) / 2
  let xs := xs.swapIfInBounds mid hi
  let pivot ← xs[hi]?
  let (xs, i) ← partitionLoop le pivot (hi - lo) xs lo lo
  return (xs.swapIfInBounds hi i, i)

/-- The segment from `lo` to `hi` sorted, with calls no deeper than the fuel says. -/
def quicksort : Nat → Array α → Int → Int → Option (Array α)
  | fuel, xs, lo, hi =>
    if lo < 0 ∨ lo ≥ hi then some xs
    else
      match fuel with
      | 0 => none
      | fuel + 1 => do
        let (xs, pivotIndex) ← partition le xs lo.toNat hi.toNat
        let xs ← quicksort fuel xs lo (pivotIndex - 1)
        quicksort fuel xs (pivotIndex + 1) hi

section

variable {le} [LinearOrder β] {f : α → β} {p : α → Prop} {xs : Array α} {pivot : α} {lo hi : Nat}

/-- The loop moves the elements that are not above the pivot in front of the others. -/
theorem partitionLoop_spec (hle : ∀ x, le x pivot = true ↔ f x ≤ f pivot) (xs : Array α) (n : Nat)
    {i j : Nat} (hij : lo ≤ i ∧ i ≤ j) (hhi : j + n = hi) (hsize : hi ≤ xs.size)
    (hbelow : HoldsIn (fun x => f x ≤ f pivot) lo i xs)
    (habove : HoldsIn (fun x => f pivot ≤ f x) i j xs) :
    ∃ ys q, partitionLoop le pivot n xs i j = some (ys, q) ∧ lo ≤ q ∧ q ≤ hi ∧
      Shuffles lo hi xs ys ∧ HoldsIn (fun x => f x ≤ f pivot) lo q ys ∧
      HoldsIn (fun x => f pivot ≤ f x) q hi ys := by
  induction n generalizing xs i j with
  | zero =>
    obtain rfl : j = hi := hhi
    exact ⟨xs, i, rfl, hij.1, hij.2, .refl, hbelow, habove⟩
  | succ n ih =>
    have hj : j < xs.size := by omega
    have hget : xs[j]? = some xs[j] := Array.getElem?_eq_getElem hj
    unfold partitionLoop
    rw [hget]
    simp only [Option.bind_eq_bind, Option.bind_some, hle]
    split
    · rename_i hx
      obtain ⟨hbelow', habove'⟩ := hbelow.partition hij.2 habove hget hx
      have hswap : hi ≤ (xs.swapIfInBounds j i).size := by
        rw [Array.size_swapIfInBounds]
        exact hsize
      obtain ⟨ys, q, hrun, hlo, hq, hsh, hpart⟩ :=
        @ih _ (i + 1) (j + 1) (by omega) (by omega) hswap hbelow' habove'
      exact ⟨ys, q, hrun, hlo, hq, (Shuffles.refl.swap (by omega) (by omega)).trans hsh, hpart⟩
    · rename_i hx
      have hx := le_of_lt (not_le.mp hx)
      exact ih _ (by omega) (by omega) hsize hbelow (habove.snoc hget hx)

/-- The pivot ends in its place. -/
theorem partition_spec (hle : ∀ x y, p y → (le x y = true ↔ f x ≤ f y)) (hlo : lo ≤ hi)
    (hsize : hi < xs.size) (hp : HoldsIn p lo (hi + 1) xs) :
    ∃ ys q v, partition le xs lo hi = some (ys, q) ∧ lo ≤ q ∧ q < hi + 1 ∧
      Shuffles lo (hi + 1) xs ys ∧ ys[q]? = some v ∧ HoldsIn (fun x => f x ≤ f v) lo q ys ∧
      HoldsIn (fun x => f v ≤ f x) (q + 1) (hi + 1) ys := by
  have hmid : Shuffles lo (hi + 1) xs (xs.swapIfInBounds (lo + (hi - lo) / 2) hi) :=
    Shuffles.refl.swap (by omega) (by omega)
  have hsize' := hmid.size_eq
  obtain ⟨v, hv⟩ : ∃ v, (xs.swapIfInBounds (lo + (hi - lo) / 2) hi)[hi]? = some v :=
    ⟨_, Array.getElem?_eq_getElem (by omega)⟩
  have hpv := hmid.holdsIn (by omega) hp hi v hlo (by omega) hv
  obtain ⟨ys, q, hrun, hloq, hqhi, hsh, hbelow, habove⟩ := partitionLoop_spec
    (fun x => hle x v hpv) (xs.swapIfInBounds (lo + (hi - lo) / 2) hi) (hi - lo)
    ⟨Nat.le_refl lo, Nat.le_refl lo⟩ (show lo + (hi - lo) = hi by omega) (by omega)
    (fun k _ _ _ _ => by omega) (fun k _ _ _ _ => by omega)
  have hpivot : ys[hi]? = some v := (hsh.outside (by omega) (.inr (Nat.le_refl hi))).trans hv
  obtain ⟨hbelow', habove'⟩ := hbelow.partition hqhi habove hpivot le_rfl
  refine ⟨ys.swapIfInBounds hi q, q, v, ?_, hloq, by omega, ?_, ?_, ?_, habove'⟩
  · unfold partition
    simp only [Option.bind_eq_bind, hv, hrun, Option.bind_some]
    rfl
  · exact (hmid.trans (hsh.widen (Nat.le_refl lo) (by omega))).swap (by omega) (by omega)
  · have hsize'' := hsh.size_eq
    rw [getElem?_swapIfInBounds (by omega) (by omega)]
    split
    · rename_i heq
      rw [heq, hpivot]
    · rw [if_pos rfl, hpivot]
  · intro k x hk hlt hx
    exact hbelow' k x hk (by omega) hx

/-- A segment is sorted by the key. -/
theorem quicksort_sorted (hle : ∀ x y, p y → (le x y = true ↔ f x ≤ f y)) (fuel : Nat)
    (xs : Array α) (lo n : Nat) (hn : n ≤ fuel + 1) (hsize : lo + n ≤ xs.size)
    (hp : HoldsIn p lo (lo + n) xs) :
    ∃ ys, quicksort le fuel xs lo (lo + n - 1) = some ys ∧ Shuffles lo (lo + n) xs ys ∧
      SortedIn f lo (lo + n) ys := by
  induction fuel generalizing xs lo n with
  | zero =>
    refine ⟨xs, ?_, .refl, fun i j x y hi hij hj => by omega⟩
    unfold quicksort
    rw [if_pos (by omega)]
  | succ fuel ih =>
    unfold quicksort
    by_cases hsmall : n ≤ 1
    · rw [if_pos (by omega)]
      exact ⟨xs, rfl, .refl, fun i j x y hi hij hj => by omega⟩
    · obtain ⟨hi, hhi⟩ : ∃ hi, lo + n = hi + 1 := ⟨lo + n - 1, by omega⟩
      have hint : (lo : Int) + n - 1 = hi := by omega
      rw [hhi] at hsize hp ⊢
      obtain ⟨ys, q, v, hpart, hloq, hqhi, hsh, hv, hbelow, habove⟩ :=
        partition_spec hle (by omega) hsize hp
      have hys := hsh.holdsIn hsize hp
      have hsizeys := hsh.size_eq
      obtain ⟨zs, hleft, hshl, hsortl⟩ := ih ys lo (q - lo) (by omega) (by omega)
        (hys.mono (Nat.le_refl lo) (by omega))
      have hwide := hshl.widen (Nat.le_refl lo) (show lo + (q - lo) ≤ hi + 1 by omega)
      have hzs := hwide.holdsIn (by omega) hys
      have hsizezs := hshl.size_eq
      obtain ⟨ws, hright, hshr, hsortr⟩ := ih zs (q + 1) (hi - q) (by omega) (by omega)
        (hzs.mono (by omega) (by omega))
      rw [show lo + (q - lo) = q by omega] at hshl hsortl
      rw [show q + 1 + (hi - q) = hi + 1 by omega] at hshr hsortr
      obtain ⟨hsh', hsort⟩ := SortedIn.quicksort (by omega) ⟨hloq, hqhi⟩ hv hbelow habove hshl
        hsortl hshr hsortr
      refine ⟨ws, ?_, hsh.trans hsh', hsort⟩
      rw [if_neg (by omega), hint]
      simp only [Int.toNat_natCast, hpart, Option.bind_eq_bind, Option.bind_some]
      rw [show (q : Int) - 1 = lo + (q - lo : Nat) - 1 by omega, hleft]
      simp only [Option.bind_some]
      rw [show (q : Int) + 1 = (q + 1 : Nat) by omega,
        show (hi : Int) = (q + 1 : Nat) + (hi - q : Nat) - 1 by omega, hright]

/-- All of an array is sorted by the key. -/
theorem quicksort_perm (xs : Array α) (hp : ∀ x ∈ xs.toList, p x)
    (hle : ∀ x y, p y → (le x y = true ↔ f x ≤ f y)) :
    ∃ ys, quicksort le xs.size xs 0 (xs.size - 1) = some ys ∧ ys.toList.Perm xs.toList ∧
      ys.toList.Pairwise fun x y => f x ≤ f y := by
  have hall : HoldsIn p 0 (0 + xs.size) xs := by
    intro k x _ _ hx
    exact hp x (Array.mem_toList_iff.mpr (Array.mem_of_getElem? hx))
  obtain ⟨ys, hrun, hsh, hsort⟩ := quicksort_sorted hle xs.size xs 0 xs.size (by omega) (by omega)
    hall
  rw [Nat.zero_add] at hsort
  rw [← hsh.size_eq] at hsort
  refine ⟨ys, ?_, Array.perm_iff_toList_perm.mp hsh.perm, hsort.pairwise⟩
  rw [← hrun]
  congr 1
  omega

end

end Nibble.Lib.Quicksort
