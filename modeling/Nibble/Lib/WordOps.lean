import Mathlib.Data.BitVec
import Mathlib.Tactic.Ring

/-!
# Words as numbers

Each operation on words of `w` bits is one on numbers, taken modulo `2 ^ w`.
-/

namespace Nibble.Lib

variable {w : Nat}

theorem ofInt_sub (a b : Int) : BitVec.ofInt w (a - b) = BitVec.ofInt w a - BitVec.ofInt w b := by
  rw [Int.sub_eq_add_neg, BitVec.ofInt_add, BitVec.ofInt_neg, BitVec.sub_eq_add_neg]

theorem ofInt_not (a : Int) : BitVec.ofInt w (-a - 1) = ~~~BitVec.ofInt w a := by
  rw [ofInt_sub, BitVec.ofInt_neg, BitVec.not_eq_neg_add]
  rfl

theorem natCast_two_pow (n : Nat) : ((2 ^ n : Nat) : Int) = 2 ^ n := by
  push_cast
  rfl

theorem ofInt_shiftLeft (a : Int) {n : Nat} (hn : n < w) :
    BitVec.ofInt w (a * 2 ^ n) = BitVec.ofInt w a <<< n := by
  have hlt : 2 ^ n < 2 ^ w := Nat.pow_lt_pow_right (by decide) hn
  rw [BitVec.ofInt_mul, BitVec.shiftLeft_eq_mul_twoPow]
  congr 1
  apply BitVec.eq_of_toNat_eq
  rw [BitVec.toNat_twoPow_of_lt hn, BitVec.toNat_ofInt, ← natCast_two_pow, ← Int.natCast_emod,
    Int.toNat_natCast, Nat.mod_eq_of_lt hlt]

theorem ofInt_sshiftRight (x : BitVec w) (n : Nat) :
    BitVec.ofInt w (x.toInt / 2 ^ n) = x.sshiftRight n := by
  rw [← natCast_two_pow, ← Int.shiftRight_eq_div_pow, ← BitVec.toInt_sshiftRight,
    BitVec.ofInt_toInt]

theorem ofInt_ushiftRight (x : BitVec w) (n : Nat) :
    BitVec.ofInt w ((x.toNat : Int) / 2 ^ n) = x >>> n := by
  rw [← natCast_two_pow, ← Int.natCast_ediv, BitVec.ofInt_natCast, ← Nat.shiftRight_eq_div_pow,
    ← BitVec.toNat_ushiftRight, BitVec.ofNat_toNat, BitVec.setWidth_eq]

theorem ofInt_sdiv (x y : BitVec w) : BitVec.ofInt w (x.toInt.tdiv y.toInt) = x.sdiv y := by
  apply BitVec.eq_of_toInt_eq
  rw [BitVec.toInt_ofInt, BitVec.toInt_sdiv]

theorem ofInt_srem (x y : BitVec w) : BitVec.ofInt w (x.toInt.tmod y.toInt) = x.srem y := by
  rw [← BitVec.toInt_srem, BitVec.ofInt_toInt]

theorem ofInt_udiv (x y : BitVec w) :
    BitVec.ofInt w ((x.toNat : Int).tdiv y.toNat) = x / y := by
  rw [← Int.ofNat_tdiv, BitVec.ofInt_natCast, BitVec.udiv_def]

theorem ofInt_umod (x y : BitVec w) :
    BitVec.ofInt w ((x.toNat : Int).tmod y.toNat) = x % y := by
  rw [← Int.ofNat_tmod, BitVec.ofInt_natCast, BitVec.umod_def]

end Nibble.Lib
