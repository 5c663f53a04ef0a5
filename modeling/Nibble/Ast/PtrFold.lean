import Nibble.Types
import Nibble.Lib.Strides

/-!
# Pointer arithmetic on constants

`resolve_ptr_int_arith` and the difference of two pointers in
`resolve_expr_binary`. Operands that are immediates are computed here; others
are left to the emission of code, which uses the same `clp2`. The resolver
calls `resolve_ptr_int_arith` for a sum and for a difference alike.
-/

namespace Nibble.Ast

open Nibble.Lib

/-- The loop of `calc_hmap_size`. -/
def calcHmapSizeLoop (cap : BitVec 64) : Nat → BitVec 64 → Nat → Option Nat
  | 0, _, _ => none
  | fuel + 1, pow2Cap, log2Cap =>
    if cap > pow2Cap then calcHmapSizeLoop cap fuel (pow2Cap <<< 1) (log2Cap + 1) else some log2Cap

/-- `calc_hmap_size`. After 64 rounds `pow2_cap` is zero and stays zero. -/
def calcHmapSize (cap : BitVec 64) : Option Nat := calcHmapSizeLoop cap 65 1 0

/-- `clp2`. -/
def clp2 (c : BitVec 64) : Option Nat := calcHmapSize c

theorem calcHmapSizeLoop_eq (cap : BitVec 64) : ∀ (fuel i : Nat), i + fuel = 65 → i ≤ 64 →
    (∀ j < i, 2 ^ j < cap.toNat) →
    calcHmapSizeLoop cap fuel (BitVec.ofNat 64 (2 ^ i)) i =
      if cap.toNat ≤ 2 ^ 63 then some (Nat.clog 2 cap.toNat) else none
  | 0, i, hi, hle, _ => by omega
  | fuel + 1, i, hi, hle, hlow => by
    rw [calcHmapSizeLoop]
    rcases Nat.lt_or_eq_of_le hle with hlt | rfl
    · have hpow : (2 : Nat) ^ i < 2 ^ 64 := Nat.pow_lt_pow_right (by decide) hlt
      have hshift : BitVec.ofNat 64 (2 ^ i) <<< 1 = BitVec.ofNat 64 (2 ^ (i + 1)) := by
        rw [BitVec.shiftLeft_eq_mul_twoPow, pow_succ, BitVec.ofNat_mul]
        rfl
      have hgt : cap > BitVec.ofNat 64 (2 ^ i) ↔ 2 ^ i < cap.toNat := by
        rw [gt_iff_lt, BitVec.lt_def, BitVec.toNat_ofNat, Nat.mod_eq_of_lt hpow]
      by_cases hcap : 2 ^ i < cap.toNat
      · rw [if_pos (hgt.mpr hcap), hshift]
        refine calcHmapSizeLoop_eq cap fuel (i + 1) (by omega) (by omega) fun j hj => ?_
        rcases Nat.lt_succ_iff_lt_or_eq.mp hj with hj | rfl
        · exact hlow j hj
        · exact hcap
      · have hle63 : cap.toNat ≤ 2 ^ 63 :=
          (Nat.not_lt.mp hcap).trans (Nat.pow_le_pow_right (by decide) (by omega))
        rw [if_neg (mt hgt.mp hcap), if_pos hle63]
        refine congrArg some (le_antisymm ?_ (Nat.clog_le_of_le_pow (Nat.not_lt.mp hcap)))
        by_contra hclog
        have := hlow _ (Nat.not_le.mp hclog)
        have := Nat.le_pow_clog (b := 2) (by decide) cap.toNat
        omega
    · obtain rfl : fuel = 0 := by omega
      have h63 := hlow 63 (by decide)
      have hgt : cap > BitVec.ofNat 64 (2 ^ 64) := by
        rw [gt_iff_lt, BitVec.lt_def, BitVec.toNat_ofNat]
        omega
      rw [if_pos hgt, if_neg (Nat.not_le.mpr h63), calcHmapSizeLoop]

/-- The loop finds the logarithm rounded up, unless no power of two is large enough. -/
theorem clp2_eq (c : BitVec 64) :
    clp2 c = if c.toNat ≤ 2 ^ 63 then some (Nat.clog 2 c.toNat) else none :=
  calcHmapSizeLoop_eq c 65 0 rfl (by decide) fun _ h => absurd h (Nat.not_lt_zero _)

theorem clog_lt_of_le {n : Nat} (h : n ≤ 2 ^ 63) : Nat.clog 2 n < 64 :=
  Nat.lt_succ_of_le (Nat.clog_le_of_le_pow h)

/-! ## The resolver -/

/-- `ExprOperand`. -/
structure ExprOperand where
  type : Ty
  isConstexpr : Bool
  isLvalue : Bool
  isImm : Bool
  imm : BitVec 64
  deriving DecidableEq, Repr

namespace ExprOperand

/-- A value known to the resolver. -/
def isConst (op : ExprOperand) : Bool := op.isConstexpr && op.isImm

/-- The integer that an operand of an integer type stands for, at 64 bits. -/
def intValue (op : ExprOperand) : BitVec 64 :=
  let low := op.imm.setWidth (8 * op.type.size)
  if op.type.isSigned then low.signExtend 64 else low.setWidth 64

/-- `cast_eop` of an integer to `u64`. -/
def castToU64 (op : ExprOperand) : ExprOperand :=
  { op with
    type := .integer .u64
    isLvalue := false
    imm := if op.isConst then op.intValue else op.imm }

@[simp] theorem isConst_castToU64 (op : ExprOperand) : op.castToU64.isConst = op.isConst := rfl

end ExprOperand

/-- The base type that arithmetic on a `^void` uses. -/
def arithBase (base : Ty) : Ty := if base = .void then .integer .s8 else base

/-- `resolve_ptr_int_arith`: the result and the two operands after their conversions. -/
def resolvePtrIntArith (ptr intEop : ExprOperand) :
    Option (ExprOperand × ExprOperand × ExprOperand) :=
  match ptr.type with
  | .ptr base =>
    if base ≠ .void ∧ base.size = 0 then none
    else
      let ptr := { ptr with type := .ptr (arithBase base) }
      let intEop := intEop.castToU64
      let dst : ExprOperand :=
        if ptr.isConst && intEop.isConst then
          ⟨ptr.type, true, false, true, ptr.imm + intEop.imm * BitVec.ofNat 64 (arithBase base).size⟩
        else ⟨ptr.type, ptr.isConstexpr && intEop.isConstexpr, false, false, 0⟩
      some (dst, ptr, intEop)
  | _ => none

/-- The base types of the operands of a difference, where `^void` meets `^void` or `^s8`. -/
def diffBases (left right : Ty) : Ty × Ty :=
  match left, right with
  | .void, .void => (.integer .s8, .integer .s8)
  | .void, .integer .s8 => (.integer .s8, right)
  | .integer .s8, .void => (left, .integer .s8)
  | _, _ => (left, right)

/-- The case `ptr - ptr` of `resolve_expr_binary`. `none` is an error, or `clp2` without an end. -/
def resolvePtrDiff (left right : ExprOperand) :
    Option (ExprOperand × ExprOperand × ExprOperand) :=
  match left.type, right.type with
  | .ptr leftBase, .ptr rightBase => do
    let (l, r) := diffBases leftBase rightBase
    guard (l = r)
    let left' := { left with type := .ptr l }
    let right' := { right with type := .ptr r }
    if left.isConst && right.isConst then
      let baseSizeLog2 ← clp2 (BitVec.ofNat 64 leftBase.size)
      some (⟨.integer .s64, true, false, true, (left.imm - right.imm) >>> baseSizeLog2⟩,
        left', right')
    else
      some (⟨.integer .s64, left.isConstexpr && right.isConstexpr, false, false, 0⟩, left', right')
  | _, _ => none

/-! ## What is folded -/

section

variable {ptr intEop left right : ExprOperand} {base leftBase rightBase : Ty}

/-- A sum is folded to the address `n` elements further, and so is a difference. -/
theorem resolvePtrIntArith_imm (ht : ptr.type = .ptr base) (hsize : base = .void ∨ base.size ≠ 0)
    (hp : ptr.isConst = true) (hi : intEop.isConst = true) :
    (resolvePtrIntArith ptr intEop).map (·.1.imm) = some
      (moved true ptr.imm (BitVec.ofNat 64 (arithBase base).size) intEop.intValue) := by
  have hconst : ({ ptr with type := .ptr (arithBase base) } : ExprOperand).isConst = true := hp
  have hok : ¬ (base ≠ .void ∧ base.size = 0) := by tauto
  simp only [resolvePtrIntArith, ht, if_neg hok, hconst, ExprOperand.isConst_castToU64, hi,
    Bool.and_self, if_true, Option.map_some, moved]
  simp only [ExprOperand.castToU64, hi, if_true]
  rw [BitVec.mul_comm]

/-- The size of `void`, zero, has the logarithm of the size of `s8`. -/
theorem clp2_diffBases (left right : Ty) :
    clp2 (BitVec.ofNat 64 (diffBases left right).1.size) = clp2 (BitVec.ofNat 64 left.size) := by
  have hvoid : clp2 (BitVec.ofNat 64 (Ty.size .void)) = some 0 := by decide
  unfold diffBases
  split
  · exact hvoid.symm ▸ (by decide)
  · exact hvoid.symm ▸ (by decide)
  · rfl
  · rfl

theorem resolvePtrDiff_imm (hl : left.type = .ptr leftBase) (hr : right.type = .ptr rightBase)
    (hsame : (diffBases leftBase rightBase).1 = (diffBases leftBase rightBase).2)
    (hlc : left.isConst = true) (hrc : right.isConst = true) :
    (resolvePtrDiff left right).map (·.1.imm) =
      (clp2 (BitVec.ofNat 64 (diffBases leftBase rightBase).1.size)).map
        ((left.imm - right.imm) >>> ·) := by
  rw [clp2_diffBases]
  simp only [resolvePtrDiff, hl, hr, hsame, guard, if_true, hlc, hrc, Bool.and_self]
  cases clp2 (BitVec.ofNat 64 leftBase.size) <;> rfl

end

end Nibble.Ast
