import Mathlib.Algebra.Order.Floor.Semifield
import Mathlib.Data.Rat.Floor
import Mathlib.Tactic.Ring
import Mathlib.Tactic.Linarith
import Mathlib.Tactic.FieldSimp

/-!
# Rounding half to even

A number that is not negative is rounded to the nearest whole number, a half to the even one.
For a quotient the remainder decides.
-/

namespace Nibble.Lib

/-- The nearest whole number, of two the even one. -/
def roundHalfEven (y : ℚ) : Nat :=
  let k := ⌊y⌋₊
  if y - k < 1 / 2 then k else if 1 / 2 < y - k then k + 1 else k + k % 2

/-- Whether a quotient is rounded up, by its whole part and what is left. -/
def roundsUpDiv (a b : Nat) : Bool :=
  b < 2 * (a % b) || 2 * (a % b) = b && a / b % 2 = 1

theorem roundHalfEven_natCast (n : Nat) : roundHalfEven n = n := by
  unfold roundHalfEven
  simp only [Nat.floor_natCast, sub_self]
  rw [if_pos (by norm_num)]

theorem roundHalfEven_div (a : Nat) {b : Nat} (hb : 0 < b) :
    roundHalfEven (a / b) = a / b + if roundsUpDiv a b then 1 else 0 := by
  have hb' : (0 : ℚ) < b := by exact_mod_cast hb
  have hrest : (a : ℚ) / b - (a / b : Nat) = (a % b : Nat) / b := by
    rw [div_sub' hb'.ne', div_left_inj' hb'.ne', sub_eq_iff_eq_add]
    exact_mod_cast (Nat.mod_add_div a b).symm
  unfold roundHalfEven roundsUpDiv
  simp only [Nat.floor_div_eq_div, hrest]
  have hlt : ((a % b : Nat) : ℚ) / b < 1 / 2 ↔ 2 * (a % b) < b := by
    rw [div_lt_div_iff₀ hb' two_pos, one_mul, mul_comm]
    exact_mod_cast Iff.rfl
  have hgt : 1 / 2 < ((a % b : Nat) : ℚ) / b ↔ b < 2 * (a % b) := by
    rw [div_lt_div_iff₀ two_pos hb', one_mul, mul_comm ((a % b : Nat) : ℚ)]
    exact_mod_cast Iff.rfl
  simp only [hlt, hgt, Bool.or_eq_true, Bool.and_eq_true, decide_eq_true_eq]
  split
  · rw [if_neg (by omega), Nat.add_zero]
  · split
    · rw [if_pos (by omega)]
    · rcases Nat.mod_two_eq_zero_or_one (a / b) with h | h
      · rw [h, if_neg (by omega)]
      · rw [h, if_pos (by omega)]

end Nibble.Lib
