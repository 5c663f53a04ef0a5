import Mathlib.Logic.Basic
import Mathlib.Tactic.Ring

/-!
# Little-endian bytes

A number as a fixed count of bytes, least significant first, and back.
-/

namespace Nibble.Lib

/-- The low `n` bytes of `v`. -/
def leBytes : Nat → Nat → List UInt8
  | 0, _ => []
  | n + 1, v => UInt8.ofNat v :: leBytes n (v / 256)

/-- The number that bytes stand for. -/
def ofLeBytes : List UInt8 → Nat
  | [] => 0
  | b :: bs => b.toNat + 256 * ofLeBytes bs

@[simp] theorem length_leBytes (n v : Nat) : (leBytes n v).length = n := by
  induction n generalizing v with
  | zero => rfl
  | succ n ih => simp [leBytes, ih]

theorem ofLeBytes_leBytes (n v : Nat) : ofLeBytes (leBytes n v) = v % 2 ^ (8 * n) := by
  induction n generalizing v with
  | zero => simp [leBytes, ofLeBytes, Nat.mod_one]
  | succ n ih =>
    have h : (2 : Nat) ^ (8 * (n + 1)) = 256 * 2 ^ (8 * n) := by ring
    simp only [leBytes, ofLeBytes, ih, h, UInt8.toNat_ofNat', Nat.reducePow]
    rw [Nat.mod_mul]

/-- Take a number of `n` bytes off the front. -/
def readLe (n : Nat) (bs : List UInt8) : Option (Nat × List UInt8) :=
  if n ≤ bs.length then some (ofLeBytes (bs.take n), bs.drop n) else none

@[simp] theorem readLe_leBytes (n v : Nat) (rest : List UInt8) :
    readLe n (leBytes n v ++ rest) = some (v % 2 ^ (8 * n), rest) := by
  simp [readLe, ofLeBytes_leBytes]

theorem readLe_one (b : UInt8) (rest : List UInt8) : readLe 1 (b :: rest) = some (b.toNat, rest) := by
  simp [readLe, ofLeBytes]

/-- Extending in two steps. -/
theorem signExtend_signExtend {w v : Nat} (x : BitVec w) (u : Nat) (h : w ≤ v) (hw : 0 < w) :
    (x.signExtend v).signExtend u = x.signExtend u := by
  apply BitVec.eq_of_getLsbD_eq
  intro i hi
  have hmsb : (x.signExtend v).msb = x.msb := by
    rw [BitVec.msb_eq_getLsbD_last, BitVec.msb_eq_getLsbD_last, BitVec.getLsbD_signExtend]
    by_cases hv : v = w
    · subst hv
      simp [hw]
    · have h1 : v - 1 < v := by omega
      have h2 : ¬ v - 1 < w := by omega
      simp [h1, h2, BitVec.msb_eq_getLsbD_last]
  simp only [BitVec.getLsbD_signExtend, hi, decide_true, Bool.true_and, hmsb]
  by_cases h1 : i < w
  · have h2 : i < v := by omega
    simp [h1, h2]
  · by_cases h2 : i < v <;> simp [h1, h2]

end Nibble.Lib
