import Mathlib.Data.BitVec

/-!
# Division of a double word

A processor divides a number of two words by one of one word and faults where
the quotient does not fit. With the dividend extended from one word this is
division of words; with anything else above it, every division may fault.
-/

namespace Nibble.Lib

variable {w : Nat}

/-- The quotient and the remainder of `hi:lo` and `d`; none where the processor faults. -/
def wideDiv (signed : Bool) (hi lo d : BitVec w) : Option (BitVec w × BitVec w) :=
  if d = 0 then none
  else if signed then
    let n := (hi ++ lo).toInt
    if -2 ^ (w - 1) ≤ n.tdiv d.toInt ∧ n.tdiv d.toInt < 2 ^ (w - 1) then
      some (BitVec.ofInt w (n.tdiv d.toInt), BitVec.ofInt w (n.tmod d.toInt))
    else none
  else
    let n := (hi ++ lo).toNat
    if n / d.toNat < 2 ^ w then some (BitVec.ofNat w (n / d.toNat), BitVec.ofNat w (n % d.toNat))
    else none

/-- What the upper word has to be. -/
def extension (signed : Bool) (lo : BitVec w) : BitVec w :=
  if signed && lo.msb then BitVec.allOnes w else 0

def quotient (signed : Bool) (a b : BitVec w) : BitVec w := if signed then a.sdiv b else a / b

def remainder (signed : Bool) (a b : BitVec w) : BitVec w := if signed then a.srem b else a % b

/-- The quotient is a word. -/
def Divides (signed : Bool) (a b : BitVec w) : Prop :=
  b ≠ 0 ∧ (signed = true → a ≠ BitVec.intMin w ∨ b ≠ -1)

theorem toInt_extension (hw : 0 < w) (lo : BitVec w) :
    (extension true lo ++ lo).toInt = lo.toInt := by
  have hlo : lo.toInt = if lo.msb then (lo.toNat : Int) - 2 ^ w else lo.toNat := by
    rw [BitVec.toInt_eq_msb_cond]
    split <;> simp
  rw [BitVec.toInt_append, if_neg (by simpa using hw.ne'), hlo]
  cases h : lo.msb
  · simp [extension, h]
  · simp [extension, h, hw]
    exact Int.add_comm ..

theorem toNat_extension (lo : BitVec w) : (extension false lo ++ lo).toNat = lo.toNat := by
  simp [extension]

/-- The division of an extended word is the division of the word. -/
theorem wideDiv_extension {signed : Bool} (hw : 0 < w) {a b : BitVec w}
    (h : Divides signed a b) :
    wideDiv signed (extension signed a) a b = some (quotient signed a b, remainder signed a b) := by
  unfold wideDiv
  rw [if_neg h.1]
  cases signed with
  | true =>
    have hq := BitVec.toInt_sdiv_of_ne_or_ne a b (h.2 rfl)
    have hr := BitVec.toInt_srem a b
    simp only [ite_true, toInt_extension hw, ← hq, ← hr, quotient, remainder,
      BitVec.ofInt_toInt]
    rw [if_pos ⟨BitVec.le_toInt _, BitVec.toInt_lt⟩]
  | false =>
    have hlt : a.toNat / b.toNat < 2 ^ w := Nat.lt_of_le_of_lt (Nat.div_le_self ..) a.isLt
    simp only [Bool.false_eq_true, ite_false, toNat_extension, if_pos hlt, quotient, remainder]
    simp [← BitVec.toNat_udiv, ← BitVec.toNat_umod]

/-- A quotient that is too large in absolute value. -/
theorem not_fits {n d : Int} {h : Nat} (hh : 4 ≤ h) (hn : 2 * h * (h - 1) ≤ n.natAbs)
    (hd : d ≠ 0) (hdh : d.natAbs ≤ h) : ¬ (-(h : Int) ≤ n.tdiv d ∧ n.tdiv d < h) := by
  have hq : 2 * (h - 1) ≤ (n.tdiv d).natAbs := by
    rw [Int.natAbs_tdiv]
    show 2 * (h - 1) ≤ n.natAbs / d.natAbs
    rw [Nat.le_div_iff_mul_le (by omega)]
    calc 2 * (h - 1) * d.natAbs ≤ 2 * (h - 1) * h := Nat.mul_le_mul_left _ hdh
      _ = 2 * h * (h - 1) := Nat.mul_right_comm ..
      _ ≤ n.natAbs := hn
  omega

theorem wideDiv_intMax (hw : 3 ≤ w) (lo d : BitVec w) :
    wideDiv true (BitVec.intMax w) lo d = none := by
  have hpow : 2 ^ w = 2 * 2 ^ (w - 1) := by rw [← Nat.pow_succ', Nat.succ_eq_add_one]; congr; omega
  have hbig : 4 ≤ 2 ^ (w - 1) := Nat.pow_le_pow_right (n := 2) (i := 2) (by decide) (by omega)
  have hcast : ((2 ^ (w - 1) : Nat) : Int) = 2 ^ (w - 1) := by push_cast; rfl
  unfold wideDiv
  by_cases hd : d = 0
  · rw [if_pos hd]
  rw [if_neg hd]
  have hn : (BitVec.intMax w ++ lo).toInt =
      ((2 * 2 ^ (w - 1) * (2 ^ (w - 1) - 1) + lo.toNat : Nat) : Int) := by
    rw [BitVec.toInt_append, if_neg (by simpa using (show w ≠ 0 by omega)), BitVec.toInt_intMax,
      Nat.cast_add, Nat.cast_mul, Nat.cast_sub (by omega), ← hpow, hcast]
    norm_cast
  have hne : d.toInt ≠ 0 := fun h => hd (BitVec.eq_of_toInt_eq (by simpa using h))
  have hdh : d.toInt.natAbs ≤ 2 ^ (w - 1) := by
    have hlo := BitVec.le_toInt d
    have hhi := BitVec.toInt_lt (x := d)
    rw [← hcast] at hlo hhi
    omega
  have hfit := not_fits (n := (BitVec.intMax w ++ lo).toInt) (d := d.toInt) hbig
    (by rw [hn, Int.natAbs_natCast]; omega) hne hdh
  rw [hcast] at hfit
  simp only [ite_true]
  exact if_neg hfit

theorem wideDiv_allOnes (lo d : BitVec w) : wideDiv false (BitVec.allOnes w) lo d = none := by
  unfold wideDiv
  by_cases hd : d = 0
  · rw [if_pos hd]
  rw [if_neg hd, if_neg (by decide)]
  have hpos : 0 < d.toNat :=
    Nat.pos_of_ne_zero fun h => hd (BitVec.eq_of_toNat_eq (by simpa using h))
  have hdw : d.toNat ≤ 2 ^ w - 1 := Nat.le_sub_one_of_lt d.isLt
  have hq : 2 ^ w ≤ (BitVec.allOnes w ++ lo).toNat / d.toNat := by
    rw [Nat.le_div_iff_mul_le hpos, BitVec.toNat_append, BitVec.toNat_allOnes,
      ← Nat.shiftLeft_add_eq_or_of_lt lo.isLt, Nat.shiftLeft_eq, Nat.mul_comm (2 ^ w - 1)]
    exact Nat.le_add_right_of_le (Nat.mul_le_mul_left _ hdw)
  simp only [if_neg (Nat.not_lt.mpr hq)]

/-- With a wrong upper word the division faults, whatever is divided. -/
theorem exists_wideDiv_none (signed : Bool) (hw : 3 ≤ w) :
    ∃ hi : BitVec w, ∀ lo d, wideDiv signed hi lo d = none := by
  cases signed with
  | true => exact ⟨_, wideDiv_intMax hw⟩
  | false => exact ⟨_, wideDiv_allOnes⟩

end Nibble.Lib
