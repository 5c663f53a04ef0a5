import Mathlib.Tactic.Ring
import Mathlib.Tactic.Linarith
import Mathlib.Data.Nat.Log

/-!
# Strides

A distance of `n` elements of `s` bytes each is the word `s * n`. Shifting it
to the right by `k` gives the number of elements back for some `n` only, when
`s` is not `2 ^ k`.
-/

namespace Nibble.Lib

variable {w : Nat} {s n : BitVec w} {k : Nat}

/-- The address `n` elements of `s` bytes after `p`, or before it. -/
def moved (add : Bool) (p s n : BitVec w) : BitVec w := if add then p + s * n else p - s * n

theorem moved_sub_self (p s n : BitVec w) : moved true p s n - p = s * n := by
  simp only [moved, if_true, BitVec.add_comm p, BitVec.add_sub_cancel]

/-- The distance of `n` elements is a signed word. -/
def FitsStride (s n : BitVec w) : Prop :=
  -2 ^ (w - 1) ≤ s.toNat * n.toInt ∧ s.toNat * n.toInt < 2 ^ (w - 1)

instance : Decidable (FitsStride s n) := inferInstanceAs (Decidable (_ ∧ _))

theorem FitsStride.toInt_mul (hw : 0 < w) (h : FitsStride s n) :
    (s * n).toInt = s.toNat * n.toInt := by
  have hmul : s * n = BitVec.ofInt w (s.toNat * n.toInt) := by
    rw [BitVec.ofInt_mul, BitVec.ofInt_toInt, BitVec.ofInt_natCast, BitVec.ofNat_toNat,
      BitVec.setWidth_eq]
  rw [hmul, BitVec.toInt_ofInt_eq_self hw h.1 h.2]

/-- What is left over when elements of `s` bytes are counted as elements of `2 ^ k`. -/
def surplus (s n : BitVec w) (k : Nat) : Int := n.toInt * (s.toNat - 2 ^ k)

theorem ediv_pow_eq_iff (s n : Int) (k : Nat) :
    s * n / 2 ^ k = n ↔ 0 ≤ n * (s - 2 ^ k) ∧ n * (s - 2 ^ k) < 2 ^ k := by
  have hpos : (0 : Int) < 2 ^ k := by positivity
  have hsplit : n * (s - 2 ^ k) = s * n - n * 2 ^ k := by ring
  rw [hsplit]
  constructor
  · intro h
    have hle := Int.ediv_mul_le (s * n) hpos.ne'
    have hlt := Int.lt_ediv_add_one_mul_self (s * n) hpos
    rw [h] at hle hlt
    constructor <;> linarith
  · rintro ⟨hle, hlt⟩
    refine le_antisymm ?_ ?_
    · exact Int.lt_add_one_iff.mp ((Int.ediv_lt_iff_lt_mul hpos).mpr (by linarith))
    · exact (Int.le_ediv_iff_mul_le hpos).mpr (by linarith)

theorem sshiftRight_stride_iff (hw : 0 < w) (h : FitsStride s n) :
    (s * n).sshiftRight k = n ↔ 0 ≤ surplus s n k ∧ surplus s n k < 2 ^ k := by
  rw [← BitVec.toInt_inj, BitVec.toInt_sshiftRight, Int.shiftRight_eq_div_pow, h.toInt_mul hw]
  rw [Nat.cast_pow]
  exact ediv_pow_eq_iff s.toNat n.toInt k

/-- A signed word that is not negative has the value of the unsigned one. -/
theorem toInt_of_nonneg {x : BitVec w} (h : 0 ≤ x.toInt) : x.toInt = x.toNat := by
  rw [BitVec.toInt_eq_toNat_cond] at h ⊢
  have := x.isLt
  split <;> omega

/-- Shifting in zeros is wrong for every negative distance, and otherwise as an arithmetic shift. -/
theorem ushiftRight_stride_iff (hw : 0 < w) (hs : s.toNat ≤ 2 ^ k) (h : FitsStride s n) :
    (s * n) >>> k = n ↔ surplus s n k = 0 ∧ (0 ≤ n.toInt ∨ k = 0) := by
  have hpos : (0 : Int) < 2 ^ k := by positivity
  rcases Nat.eq_zero_or_pos k with rfl | hk
  · have hshift : (s * n) >>> 0 = (s * n).sshiftRight 0 := by simp
    rw [hshift, sshiftRight_stride_iff hw h, pow_zero]
    omega
  · rcases lt_or_ge n.toInt 0 with hneg | hn
    · refine iff_of_false (fun heq => ?_) (fun hsur => by omega)
      have hmsb : ((s * n) >>> k).msb = false := by
        rw [BitVec.msb_ushiftRight]
        simp [hk.ne']
      rw [heq, BitVec.msb_eq_toInt] at hmsb
      simp only [decide_eq_false_iff_not] at hmsb
      omega
    · have hprod : 0 ≤ (s.toNat : Int) * n.toInt := by positivity
      have hmsb : (s * n).msb = false := by
        rw [BitVec.msb_eq_toInt, decide_eq_false_iff_not, h.toInt_mul hw]
        omega
      have hle : surplus s n k ≤ 0 := by
        have : (s.toNat : Int) ≤ 2 ^ k := by exact_mod_cast hs
        exact mul_nonpos_of_nonneg_of_nonpos hn (by linarith)
      rw [← BitVec.sshiftRight_eq_of_msb_false hmsb, sshiftRight_stride_iff hw h]
      constructor
      · exact fun hsur => ⟨le_antisymm hle hsur.1, .inl hn⟩
      · rintro ⟨hsur, -⟩
        rw [hsur]
        exact ⟨le_refl _, hpos⟩

end Nibble.Lib
