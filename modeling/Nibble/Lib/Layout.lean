import Mathlib.Data.Nat.Basic
import Mathlib.Data.List.Basic
import Mathlib.Tactic.ByContra
import Mathlib.Algebra.Group.Nat.Defs

/-!
# Rounding up and serial placement

Items with a size and an alignment, placed one after another from a cursor.
Each goes to the first aligned offset, and no placement in the same order ends
earlier. Rounding up with a mask is rounding up, where nothing overflows.
-/

namespace Nibble.Lib

/-- The least multiple of `a` that is at least `n`. -/
def alignUp (n a : Nat) : Nat := (n + (a - 1)) / a * a

theorem dvd_alignUp (n a : Nat) : a ∣ alignUp n a := Nat.dvd_mul_left a _

theorem le_alignUp (n : Nat) {a : Nat} (ha : 0 < a) : n ≤ alignUp n a := by
  have h := Nat.div_add_mod (n + (a - 1)) a
  have hlt := Nat.mod_lt (n + (a - 1)) ha
  unfold alignUp
  rw [Nat.mul_comm]
  omega

theorem alignUp_lt (n : Nat) {a : Nat} (ha : 0 < a) : alignUp n a < n + a := by
  have h := Nat.div_mul_le_self (n + (a - 1)) a
  unfold alignUp
  omega

theorem alignUp_le {n a m : Nat} (ha : 0 < a) (hn : n ≤ m) (hm : a ∣ m) : alignUp n a ≤ m := by
  obtain ⟨k, rfl⟩ := hm
  have hk : (n + (a - 1)) / a < k + 1 := by
    rw [Nat.div_lt_iff_lt_mul ha, Nat.mul_comm, Nat.mul_add]
    omega
  unfold alignUp
  rw [Nat.mul_comm a k]
  exact Nat.mul_le_mul_right a (by omega)

theorem alignUp_of_dvd {n a : Nat} (ha : 0 < a) (h : a ∣ n) : alignUp n a = n :=
  Nat.le_antisymm (alignUp_le ha (Nat.le_refl n) h) (le_alignUp n ha)

theorem alignUp_mono {m n a : Nat} (ha : 0 < a) (h : m ≤ n) : alignUp m a ≤ alignUp n a :=
  alignUp_le ha (Nat.le_trans h (le_alignUp n ha)) (dvd_alignUp n a)

/-- A number of at most two alignments is rounded to the larger one. -/
theorem alignUp_alignUp {n a b : Nat} (ha : 0 < a) (hb : 0 < b) (h : a ∣ b) :
    alignUp (alignUp n a) b = alignUp n b := by
  apply Nat.le_antisymm
  · exact alignUp_le hb (alignUp_le ha (le_alignUp n hb) (Nat.dvd_trans h (dvd_alignUp n b)))
      (dvd_alignUp n b)
  · exact alignUp_mono hb (le_alignUp n ha)

theorem alignUp_add_of_dvd {m a : Nat} (n : Nat) (ha : 0 < a) (h : a ∣ m) :
    alignUp (m + n) a = m + alignUp n a := by
  obtain ⟨k, rfl⟩ := h
  unfold alignUp
  rw [Nat.add_assoc, Nat.mul_add_div ha, Nat.add_mul, Nat.mul_comm k a]

/-! ## With a mask -/

/-- `(p + a - 1) & ~(a - 1)`. -/
def alignUpMask {w : Nat} (p a : BitVec w) : BitVec w := (p + (a - 1)) &&& ~~~(a - 1)

/-- A mask of low bits rounds down. -/
theorem toNat_and_not_mask {w k : Nat} (x m : BitVec w) (hm : m.toNat = 2 ^ k - 1) :
    (x &&& ~~~m).toNat = x.toNat / 2 ^ k * 2 ^ k := by
  have hsplit := Nat.div_add_mod x.toNat (2 ^ k)
  apply Nat.eq_of_testBit_eq
  intro i
  rw [BitVec.toNat_and, Nat.testBit_and, ← BitVec.getLsbD, ← BitVec.getLsbD, BitVec.getLsbD_not,
    Nat.testBit_mul_two_pow, Nat.testBit_div_two_pow]
  have hmi : m.getLsbD i = decide (i < k) := by
    rw [BitVec.getLsbD, hm, Nat.testBit_two_pow_sub_one]
  rw [hmi]
  by_cases hik : i < k
  · simp [hik, Nat.not_le.mpr hik]
  · have hki : k ≤ i := Nat.le_of_not_lt hik
    by_cases hiw : i < w
    · simp [hik, hki, hiw, BitVec.getLsbD]
    · have hx : x.getLsbD i = false := BitVec.getLsbD_of_ge x i (Nat.le_of_not_lt hiw)
      have hx' : x.toNat.testBit i = false := hx
      simp [hki, hx, hx']

/-- A multiple of a power of two below `2 ^ w` leaves room for another one. -/
theorem add_mask_lt {w k n : Nat} (hk : k ≤ w) (h : alignUp n (2 ^ k) < 2 ^ w) :
    n + (2 ^ k - 1) < 2 ^ w := by
  have hpos : 0 < 2 ^ k := Nat.two_pow_pos k
  have hle := le_alignUp n hpos
  obtain ⟨m, hm⟩ := dvd_alignUp n (2 ^ k)
  have hw : 2 ^ w = 2 ^ k * 2 ^ (w - k) := by rw [← Nat.pow_add, Nat.add_sub_cancel' hk]
  have hlt : m < 2 ^ (w - k) := by
    rw [hm, hw] at h
    exact Nat.lt_of_mul_lt_mul_left h
  have hroom : 2 ^ k * (m + 1) ≤ 2 ^ w := by
    rw [hw]
    exact Nat.mul_le_mul_left _ hlt
  rw [Nat.mul_add, ← hm] at hroom
  omega

theorem toNat_alignUpMask {w k : Nat} {p a : BitVec w} (ha : a.toNat = 2 ^ k)
    (h : alignUp p.toNat (2 ^ k) < 2 ^ w) :
    (alignUpMask p a).toNat = alignUp p.toNat (2 ^ k) := by
  have hpos : 0 < 2 ^ k := Nat.two_pow_pos k
  have hk : k ≤ w := by
    have := a.isLt
    rw [ha] at this
    exact Nat.le_of_lt ((Nat.pow_lt_pow_iff_right (by decide)).mp this)
  have hfit := add_mask_lt hk h
  have h1 : (1 : BitVec w).toNat = 1 := by
    have : w ≠ 0 := by
      rintro rfl
      have := a.isLt
      omega
    simp [Nat.pos_of_ne_zero this]
  have hm : (a - 1).toNat = 2 ^ k - 1 := by
    rw [BitVec.toNat_sub_of_le, ha, h1]
    rw [BitVec.le_def, ha, h1]
    exact hpos
  unfold alignUpMask
  rw [toNat_and_not_mask _ _ hm, BitVec.toNat_add, hm, Nat.mod_eq_of_lt hfit]
  rfl

/-- Numbers that wrap are rounded up as the numbers are. -/
theorem alignUpMask_ofNat {w k : Nat} (hk : k < w) (n : Nat) :
    alignUpMask (BitVec.ofNat w n) (BitVec.ofNat w (2 ^ k)) =
      BitVec.ofNat w (alignUp n (2 ^ k)) := by
  have hpos : 0 < 2 ^ k := Nat.two_pow_pos k
  have hlt : 2 ^ k < 2 ^ w := Nat.pow_lt_pow_right (by decide) hk
  have hm : (BitVec.ofNat w (2 ^ k) - 1).toNat = 2 ^ k - 1 := by
    have h1 : (1 : BitVec w).toNat = 1 := by simp [Nat.lt_of_le_of_lt (Nat.zero_le k) hk]
    have ha : (BitVec.ofNat w (2 ^ k)).toNat = 2 ^ k := by
      rw [BitVec.toNat_ofNat, Nat.mod_eq_of_lt hlt]
    rw [BitVec.toNat_sub_of_le, ha, h1]
    rw [BitVec.le_def, ha, h1]
    exact hpos
  have hw : 2 ^ w = 2 ^ k * 2 ^ (w - k) := by
    rw [← Nat.pow_add, Nat.add_sub_cancel' (Nat.le_of_lt hk)]
  apply BitVec.eq_of_toNat_eq
  unfold alignUpMask alignUp
  rw [toNat_and_not_mask _ _ hm, BitVec.toNat_add, hm, BitVec.toNat_ofNat, BitVec.toNat_ofNat,
    Nat.mod_add_mod, hw, Nat.mod_mul_right_div_self, Nat.mul_comm (2 ^ k), Nat.mul_mod_mul_right]

/-! ## Serial placement -/

/-- What is placed. -/
structure Item where
  size : Nat
  align : Nat
  deriving DecidableEq, Repr

/-- The offsets of items placed from the cursor. -/
def place : List Item → Nat → List Nat
  | [], _ => []
  | i :: is, n => alignUp n i.align :: place is (alignUp n i.align + i.size)

/-- The cursor behind them. -/
def placeEnd : List Item → Nat → Nat
  | [], n => n
  | i :: is, n => placeEnd is (alignUp n i.align + i.size)

/-- The offsets put the items between `lo` and `hi`, each aligned and behind the ones before. -/
inductive Placed : List Item → List Nat → Nat → Nat → Prop
  | nil {lo hi : Nat} : lo ≤ hi → Placed [] [] lo hi
  | cons {i : Item} {is : List Item} {o : Nat} {os : List Nat} {lo hi : Nat} :
    lo ≤ o → i.align ∣ o → Placed is os (o + i.size) hi → Placed (i :: is) (o :: os) lo hi

@[simp] theorem length_place (is : List Item) (n : Nat) : (place is n).length = is.length := by
  induction is generalizing n with
  | nil => rfl
  | cons i is ih => simp [place, ih]

theorem placeEnd_append (is js : List Item) (n : Nat) :
    placeEnd (is ++ js) n = placeEnd js (placeEnd is n) := by
  induction is generalizing n with
  | nil => rfl
  | cons i is ih => simp [placeEnd, ih]

theorem place_append (is js : List Item) (n : Nat) :
    place (is ++ js) n = place is n ++ place js (placeEnd is n) := by
  induction is generalizing n with
  | nil => rfl
  | cons i is ih => simp [place, placeEnd, ih]

theorem placed_place {is : List Item} (n : Nat) (h : ∀ i ∈ is, 0 < i.align) :
    Placed is (place is n) n (placeEnd is n) := by
  induction is generalizing n with
  | nil => exact .nil (Nat.le_refl n)
  | cons i is ih =>
    have hi := h i List.mem_cons_self
    exact .cons (le_alignUp n hi) (dvd_alignUp n i.align)
      (ih _ fun j hj => h j (List.mem_cons_of_mem i hj))

namespace Placed

variable {is : List Item} {os : List Nat} {lo hi : Nat}

theorem le (h : Placed is os lo hi) : lo ≤ hi := by
  induction h with
  | nil h => exact h
  | cons h _ _ ih => omega

theorem length_eq (h : Placed is os lo hi) : os.length = is.length := by
  induction h with
  | nil => rfl
  | cons _ _ _ ih => simp [ih]

theorem mono {lo' hi' : Nat} (h : Placed is os lo hi) (hlo : lo' ≤ lo) (hhi : hi ≤ hi') :
    Placed is os lo' hi' := by
  induction h generalizing lo' with
  | nil h => exact .nil (by omega)
  | cons h hd _ ih => exact .cons (by omega) hd (ih (Nat.le_refl _) hhi)

/-- An item is aligned and within the bounds. -/
theorem get (h : Placed is os lo hi) {k o : Nat} {i : Item} (hk : is[k]? = some i)
    (ho : os[k]? = some o) : i.align ∣ o ∧ lo ≤ o ∧ o + i.size ≤ hi := by
  induction h generalizing k with
  | nil => cases hk
  | cons hle hd htail ih =>
    cases k with
    | zero =>
      cases hk
      cases ho
      exact ⟨hd, hle, htail.le⟩
    | succ k =>
      obtain ⟨h1, h2, h3⟩ := ih hk ho
      exact ⟨h1, by omega, h3⟩

/-- A later item is behind an earlier one. -/
theorem ordered (h : Placed is os lo hi) {j k oj ok : Nat} {i : Item} (hjk : j < k)
    (hj : is[j]? = some i) (hoj : os[j]? = some oj) (hok : os[k]? = some ok) :
    oj + i.size ≤ ok := by
  induction h generalizing j k with
  | nil => cases hj
  | @cons _ _ _ os' _ _ _ _ htail ih =>
    cases k with
    | zero => omega
    | succ k =>
      cases j with
      | zero =>
        cases hj
        cases hoj
        have hok' : os'[k]? = some ok := hok
        have hlt := (List.getElem?_eq_some_iff.mp hok').1
        rw [htail.length_eq] at hlt
        exact (htail.get (List.getElem?_eq_getElem hlt) hok').2.1
      | succ j => exact ih (by omega) hj hoj hok

/-- Offsets that are aligned, in order and within bounds put the items there. -/
theorem of_get (hlen : os.length = is.length)
    (hget : ∀ (k o : Nat) (i : Item), is[k]? = some i → os[k]? = some o →
      i.align ∣ o ∧ lo ≤ o ∧ o + i.size ≤ hi)
    (hord : ∀ (j k oj ok : Nat) (i : Item), j < k → is[j]? = some i → os[j]? = some oj →
      os[k]? = some ok → oj + i.size ≤ ok)
    (hle : lo ≤ hi) : Placed is os lo hi := by
  induction is generalizing os lo with
  | nil =>
    cases os with
    | nil => exact .nil hle
    | cons o os => simp at hlen
  | cons i is ih =>
    cases os with
    | nil => simp at hlen
    | cons o os =>
      obtain ⟨h1, h2, h3⟩ := hget 0 o i rfl rfl
      refine .cons h2 h1 (ih (by simpa using hlen) ?_ ?_ h3)
      · intro k o' i' hi' ho'
        obtain ⟨g1, -, g3⟩ := hget (k + 1) o' i' hi' ho'
        exact ⟨g1, hord 0 (k + 1) o o' i (by omega) rfl rfl ho', g3⟩
      · intro j k oj ok i' hjk hi' hj hk
        exact hord (j + 1) (k + 1) oj ok i' (by omega) hi' hj hk

/-- No placement ends before the serial one. -/
theorem placeEnd_le (h : Placed is os lo hi) (hpos : ∀ i ∈ is, 0 < i.align) {n : Nat}
    (hn : n ≤ lo) : placeEnd is n ≤ hi := by
  induction h generalizing n with
  | nil h => exact Nat.le_trans hn h
  | @cons i is' o os' lo' hi' hle hd _ ih =>
    have hi := hpos i List.mem_cons_self
    have ho : alignUp n i.align ≤ o := alignUp_le hi (Nat.le_trans hn hle) hd
    exact ih (fun j hj => hpos j (List.mem_cons_of_mem i hj)) (by omega)

end Placed

end Nibble.Lib
