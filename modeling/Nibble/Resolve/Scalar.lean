import Mathlib.Data.BitVec
import Mathlib.Algebra.Order.Ring.Int
import Nibble.Front.Token
import Nibble.Types

/-!
# Scalars

The union `Scalar` of `nibble.h`, casts between its integer members, and
`const_eval.c`. A scalar is the 64 bits of the union; a member that is not all
of it reads and writes the low ones.
-/

namespace Nibble.Resolve

open Nibble.Front (TokenKind)

/-- `Scalar`, as a number of 64 bits. -/
abbrev Scalar := BitVec 64

/-- The bits of an integer member. -/
def bitsOf (k : IntegerKind) : Nat := 8 * intKindSize k

theorem bitsOf_le (k : IntegerKind) : 0 < bitsOf k ∧ bitsOf k ≤ 64 := by
  cases k <;> decide

namespace Scalar

/-- A member, converted to 64 bits. -/
def read (s : Scalar) (k : IntegerKind) : BitVec 64 :=
  if intKindSigned k then (s.setWidth (bitsOf k)).signExtend 64
  else (s.setWidth (bitsOf k)).setWidth 64

/-- The low bits replaced. -/
def setLow (s : Scalar) (w : Nat) (v : BitVec 64) : Scalar :=
  ((s >>> w) <<< w) ||| (v.setWidth w).setWidth 64

/-- A member set to a value that is converted to its type. -/
def write (s : Scalar) (k : IntegerKind) (v : BitVec 64) : Scalar := s.setLow (bitsOf k) v

/-- The number that a member holds. -/
def value (s : Scalar) (k : IntegerKind) : Int :=
  if intKindSigned k then (s.setWidth (bitsOf k)).toInt else (s.setWidth (bitsOf k)).toNat

/-- The number of `_s64` or `_u64`. -/
def view (s : Scalar) (isSigned : Bool) : Int := if isSigned then s.toInt else s.toNat

/-- The 64-bit view is the value of the member. -/
def Normal (s : Scalar) (k : IntegerKind) : Prop := s.read k = s

instance (s : Scalar) (k : IntegerKind) : Decidable (s.Normal k) :=
  inferInstanceAs (Decidable (s.read k = s))

end Scalar

/-- A number taken into a kind modulo its size. -/
def wrap (k : IntegerKind) (n : Int) : Int :=
  if intKindSigned k then n.bmod (2 ^ bitsOf k) else n % (2 ^ bitsOf k : Nat)

/-- A number converted to a kind. -/
def castValue (k : IntegerKind) (n : Int) : Int :=
  if k = .bool then if n ≠ 0 then 1 else 0 else wrap k n

def lowest (k : IntegerKind) : Int := if intKindSigned k then -2 ^ (bitsOf k - 1) else 0

def highest (k : IntegerKind) : Int :=
  if intKindSigned k then 2 ^ (bitsOf k - 1) - 1 else 2 ^ bitsOf k - 1

/-- The numbers that a kind has. -/
def InRange (k : IntegerKind) (n : Int) : Prop := lowest k ≤ n ∧ n ≤ highest k

instance (k : IntegerKind) (n : Int) : Decidable (InRange k n) :=
  inferInstanceAs (Decidable (lowest k ≤ n ∧ n ≤ highest k))

/-- `CASE_INT_CAST`: the member of `src` is converted and written to that of `dst`. -/
def intCast (s : Scalar) (src dst : IntegerKind) : Scalar :=
  match dst with
  | .bool => s.write .bool (if s.read src ≠ 0 then 1 else 0)
  | dst => s.write dst (s.read src)

/-! ## Evaluation -/

/-- How the evaluation can stop without a result. -/
inductive Fault where
  | assertion
  | trap
  | fatalExit
  | endless
  | outOfBounds
  deriving DecidableEq, Repr

/-- What C leaves undefined and no processor traps on: shifts by a count outside of the operand. -/
structure Undefined where
  shl : BitVec 64 → BitVec 64 → BitVec 64
  shr : Bool → BitVec 64 → BitVec 64 → BitVec 64

/-- `eval_unary_op_s64` and `eval_unary_op_u64`. -/
def evalUnaryOp64bit (op : TokenKind) (val : BitVec 64) : Except Fault (BitVec 64) :=
  match op with
  | .plus => .ok val
  | .minus => .ok (-val)
  | .neg => .ok (~~~val)
  | .not => .ok (if val = 0 then 1 else 0)
  | _ => .error .fatalExit

/-- The quotient and the remainder of `s64`, which are guarded against zero. -/
def divS64 (op : BitVec 64 → BitVec 64 → BitVec 64) (left right : BitVec 64) :
    Except Fault (BitVec 64) :=
  if right = 0 then .ok 0
  else if left = BitVec.intMin 64 ∧ right = -1 then .error .trap
  else .ok (op left right)

variable (U : Undefined)

/-- `eval_binary_op_s64`. -/
def evalBinaryOpS64 (op : TokenKind) (left right : BitVec 64) : Except Fault (BitVec 64) :=
  match op with
  | .plus => .ok (left + right)
  | .minus => .ok (left - right)
  | .asterisk => .ok (left * right)
  | .div => divS64 BitVec.sdiv left right
  | .mod => divS64 BitVec.srem left right
  | .lshift => .ok (if right.toNat < 64 then left <<< right.toNat else U.shl left right)
  | .rshift =>
    .ok (if right.toNat < 64 then left.sshiftRight right.toNat else U.shr true left right)
  | .and => .ok (left &&& right)
  | .or => .ok (left ||| right)
  | .caret => .ok (left ^^^ right)
  | _ => .error .fatalExit

/-- `eval_binary_op_u64`. -/
def evalBinaryOpU64 (op : TokenKind) (left right : BitVec 64) : Except Fault (BitVec 64) :=
  match op with
  | .plus => .ok (left + right)
  | .minus => .ok (left - right)
  | .asterisk => .ok (left * right)
  | .div => .ok (if right = 0 then 0 else left / right)
  | .mod => .ok (if right = 0 then 0 else left % right)
  | .lshift => .ok (if right.toNat < 64 then left <<< right.toNat else U.shl left right)
  | .rshift => .ok (if right.toNat < 64 then left >>> right.toNat else U.shr false left right)
  | .and => .ok (left &&& right)
  | .or => .ok (left ||| right)
  | .caret => .ok (left ^^^ right)
  | _ => .error .fatalExit

/-- `eval_binary_op_64bit`. -/
def evalBinaryOp64bit (op : TokenKind) (isSigned : Bool) (left right : Scalar) :
    Except Fault Scalar :=
  if isSigned then evalBinaryOpS64 U op left right else evalBinaryOpU64 U op left right

/-- A comparison of `eval_binary_logical_op_s64` or `_u64`, with the order of the type. -/
def evalBinaryLogicalOp (lt : BitVec 64 → BitVec 64 → Bool) (op : TokenKind)
    (left right : BitVec 64) : Except Fault Bool :=
  match op with
  | .logicAnd => .ok (left ≠ 0 && right ≠ 0)
  | .logicOr => .ok (left ≠ 0 || right ≠ 0)
  | .eq => .ok (left = right)
  | .noteq => .ok (left ≠ right)
  | .gt => .ok (lt right left)
  | .gteq => .ok !(lt left right)
  | .lt => .ok (lt left right)
  | .lteq => .ok !(lt right left)
  | _ => .error .fatalExit

def evalBinaryLogicalOpS64 : TokenKind → BitVec 64 → BitVec 64 → Except Fault Bool :=
  evalBinaryLogicalOp BitVec.slt

def evalBinaryLogicalOpU64 : TokenKind → BitVec 64 → BitVec 64 → Except Fault Bool :=
  evalBinaryLogicalOp BitVec.ult

/-- `eval_binary_logical_op_64bit`. -/
def evalBinaryLogicalOp64bit (op : TokenKind) (isSigned : Bool) (left right : Scalar) :
    Except Fault Bool :=
  if isSigned then evalBinaryLogicalOpS64 op left right else evalBinaryLogicalOpU64 op left right

section

variable (isSigned : Bool) (l r : Scalar)

/-- A difference that is not negative is computed without overflow. -/
theorem toNat_sub_of_le {l r : Scalar} (h : r.view isSigned ≤ l.view isSigned) :
    ((l - r).toNat : Int) = l.view isSigned - r.view isSigned := by
  have hl := l.isLt
  have hr := r.isLt
  unfold Scalar.view at h ⊢
  rw [BitVec.toNat_sub]
  split at h
  · rename_i hs
    rw [if_pos hs, if_pos hs]
    rw [BitVec.toInt_eq_toNat_cond, BitVec.toInt_eq_toNat_cond] at h ⊢
    split at h <;> split at h <;> simp_all <;> omega
  · rename_i hs
    rw [if_neg hs, if_neg hs]
    omega

theorem toNat_sub_of_lt {l r : Scalar} (h : l.view isSigned < r.view isSigned) :
    ((l - r).toNat : Int) = l.view isSigned - r.view isSigned + 2 ^ 64 := by
  have hl := l.isLt
  have hr := r.isLt
  unfold Scalar.view at h ⊢
  rw [BitVec.toNat_sub]
  split at h
  · rename_i hs
    rw [if_pos hs, if_pos hs]
    rw [BitVec.toInt_eq_toNat_cond, BitVec.toInt_eq_toNat_cond] at h ⊢
    split at h <;> split at h <;> simp_all <;> omega
  · rename_i hs
    rw [if_neg hs, if_neg hs]
    omega

theorem view_inj {l r : Scalar} (h : l.view isSigned = r.view isSigned) : l = r := by
  unfold Scalar.view at h
  split at h
  · exact BitVec.eq_of_toInt_eq h
  · exact BitVec.eq_of_toNat_eq (Int.natCast_inj.mp h)

theorem eval_lteq : evalBinaryLogicalOp64bit .lteq isSigned l r = .ok true ↔
    l.view isSigned ≤ r.view isSigned := by
  cases isSigned <;> simp [evalBinaryLogicalOp64bit, evalBinaryLogicalOpS64,
    evalBinaryLogicalOpU64, evalBinaryLogicalOp, Scalar.view, BitVec.slt, BitVec.ult]

theorem eval_gteq : evalBinaryLogicalOp64bit .gteq isSigned l r = .ok true ↔
    r.view isSigned ≤ l.view isSigned := by
  cases isSigned <;> simp [evalBinaryLogicalOp64bit, evalBinaryLogicalOpS64,
    evalBinaryLogicalOpU64, evalBinaryLogicalOp, Scalar.view, BitVec.slt, BitVec.ult]

theorem eval_lt : evalBinaryLogicalOp64bit .lt isSigned l r = .ok true ↔
    l.view isSigned < r.view isSigned := by
  cases isSigned <;> simp [evalBinaryLogicalOp64bit, evalBinaryLogicalOpS64,
    evalBinaryLogicalOpU64, evalBinaryLogicalOp, Scalar.view, BitVec.slt, BitVec.ult]

theorem eval_noteq : evalBinaryLogicalOp64bit .noteq isSigned l r = .ok true ↔ l ≠ r := by
  cases isSigned <;> simp [evalBinaryLogicalOp64bit, evalBinaryLogicalOpS64,
    evalBinaryLogicalOpU64, evalBinaryLogicalOp]

theorem eval_minus : evalBinaryOp64bit U .minus isSigned l r = .ok (l - r) := by
  cases isSigned <;> rfl

theorem eval_gt : evalBinaryLogicalOp64bit .gt isSigned l r = .ok true ↔
    r.view isSigned < l.view isSigned := by
  cases isSigned <;> simp [evalBinaryLogicalOp64bit, evalBinaryLogicalOpS64,
    evalBinaryLogicalOpU64, evalBinaryLogicalOp, Scalar.view, BitVec.slt, BitVec.ult]

end

/-! ## Members -/

theorem wrap_add (k : IntegerKind) (n : Int) : wrap k (n + 2 ^ bitsOf k) = wrap k n := by
  unfold wrap
  rw [show (2 : Int) ^ bitsOf k = ((2 ^ bitsOf k : Nat) : Int) by push_cast; rfl]
  split
  · exact Int.add_bmod_right ..
  · exact Int.add_emod_right ..

theorem wrap_eq_self {k : IntegerKind} {n : Int} (h : InRange k n) : wrap k n = n := by
  unfold InRange lowest highest at h
  unfold wrap
  have hpos := (bitsOf_le k).1
  split at h
  · rename_i hs
    rw [if_pos hs]
    obtain ⟨m, hm⟩ : ∃ m, bitsOf k = m + 1 := ⟨bitsOf k - 1, by omega⟩
    rw [hm, Nat.add_sub_cancel] at h
    rw [hm]
    apply Int.bmod_eq_of_le
    · push_cast [pow_succ]
      omega
    · push_cast [pow_succ]
      omega
  · rename_i hs
    rw [if_neg hs]
    refine Int.emod_eq_of_lt h.1 ?_
    push_cast
    omega

namespace Scalar

variable {s : Scalar} {k j : IntegerKind}

theorem setWidth_setLow {w : Nat} (hw : w ≤ 64) (s : Scalar) (v : BitVec 64) :
    (s.setLow w v).setWidth w = v.setWidth w := by
  apply BitVec.eq_of_getLsbD_eq
  intro i hi
  simp [setLow, hi, show i < 64 by omega]

theorem read_write (s : Scalar) (k : IntegerKind) (v : BitVec 64) :
    (s.write k v).read k = read v k := by
  unfold read write
  rw [setWidth_setLow (bitsOf_le k).2]

theorem value_write (s : Scalar) (k : IntegerKind) (v : BitVec 64) :
    (s.write k v).value k = value v k := by
  unfold value write
  rw [setWidth_setLow (bitsOf_le k).2]

/-- A write of what is there changes nothing. -/
theorem setLow_self (s : Scalar) {w : Nat} {v : BitVec 64}
    (h : v.setWidth w = s.setWidth w) : s.setLow w v = s := by
  apply BitVec.eq_of_getLsbD_eq
  intro i hi
  have hbit := congrArg (fun x => x.getLsbD i) h
  simp only [BitVec.getLsbD_setWidth] at hbit
  by_cases hlow : i < w
  · simp only [hlow, decide_true, Bool.true_and] at hbit
    simp only [setLow, BitVec.getLsbD_or, BitVec.getLsbD_shiftLeft, hlow, decide_true,
      BitVec.getLsbD_setWidth, hbit, hi]
    simp
  · simp [setLow, hlow, hi, show w + (i - w) = i by omega]

/-- The number of a member that reads as `n` bits. -/
theorem value_eq (s : Scalar) (k : IntegerKind) :
    s.value k = if intKindSigned k then (s.read k).toInt else (s.read k).toNat := by
  unfold value read
  have hle := (bitsOf_le k).2
  split
  · rw [BitVec.toInt_signExtend_of_le hle]
  · rw [BitVec.toNat_setWidth_of_le hle]

/-- The 64-bit view of a member is its number. -/
theorem read_eq_ofInt (s : Scalar) (k : IntegerKind) : s.read k = BitVec.ofInt 64 (s.value k) := by
  rw [value_eq]
  split
  · rw [BitVec.ofInt_toInt]
  · rw [BitVec.ofInt_natCast, BitVec.ofNat_toNat, BitVec.setWidth_eq]

theorem setWidth_ofInt {w : Nat} (hw : w ≤ 64) (n : Int) :
    (BitVec.ofInt 64 n).setWidth w = BitVec.ofInt w n := by
  apply BitVec.eq_of_toNat_eq
  have hdvd : ((2 ^ w : Nat) : Int) ∣ ((2 ^ 64 : Nat) : Int) :=
    Int.natCast_dvd_natCast.mpr (Nat.pow_dvd_pow 2 hw)
  have hmod : n % ((2 ^ 64 : Nat) : Int) % ((2 ^ w : Nat) : Int) = n % ((2 ^ w : Nat) : Int) :=
    Int.emod_emod_of_dvd n hdvd
  have hnonneg : 0 ≤ n % ((2 ^ 64 : Nat) : Int) := Int.emod_nonneg _ (by decide)
  rw [BitVec.toNat_setWidth, BitVec.toNat_ofInt, BitVec.toNat_ofInt, ← hmod,
    Int.toNat_emod hnonneg (Int.natCast_nonneg _), Int.toNat_natCast]

/-- A number that is written to a member wraps around. -/
theorem value_ofInt (n : Int) (k : IntegerKind) : value (BitVec.ofInt 64 n) k = wrap k n := by
  unfold value wrap
  rw [setWidth_ofInt (bitsOf_le k).2]
  split
  · rw [BitVec.toInt_ofInt]
  · rw [BitVec.toNat_ofInt, Int.toNat_of_nonneg]
    exact Int.emod_nonneg _ (Int.natCast_ne_zero.mpr (Nat.two_pow_pos _).ne')

theorem value_inRange (s : Scalar) (k : IntegerKind) : InRange k (s.value k) := by
  unfold InRange lowest highest value
  split
  · have hle := BitVec.le_toInt (s.setWidth (bitsOf k))
    have hlt := @BitVec.toInt_lt _ (s.setWidth (bitsOf k))
    exact ⟨hle, by omega⟩
  · have hlt := Int.ofNat_lt.mpr (s.setWidth (bitsOf k)).isLt
    push_cast at hlt
    exact ⟨Int.natCast_nonneg _, by omega⟩

theorem value_intCast (s : Scalar) (k : IntegerKind) {j : IntegerKind} (hj : j ≠ .bool) :
    (intCast s k j).value j = wrap j (s.value k) := by
  have hwrite : intCast s k j = s.write j (s.read k) := by
    cases j <;> first | rfl | exact absurd rfl hj
  rw [hwrite, value_write, read_eq_ofInt, value_ofInt]

/-- The kind of 64 bits and of the sign of another. -/
theorem inRange_64 {n : Int} (h : InRange k n) :
    InRange (if intKindSigned k then .s64 else .u64) n := by
  have hsub : lowest (if intKindSigned k then .s64 else .u64) ≤ lowest k ∧
      highest k ≤ highest (if intKindSigned k then .s64 else .u64) := by
    cases k <;> decide
  exact ⟨Int.le_trans hsub.1 h.1, Int.le_trans h.2 hsub.2⟩

theorem view_eq_value (s : Scalar) (isSigned : Bool) :
    s.view isSigned = s.value (if isSigned then .s64 else .u64) := by
  cases isSigned with
  | true => exact congrArg BitVec.toInt (BitVec.setWidth_eq s).symm
  | false => exact congrArg (fun x => (BitVec.toNat x : Int)) (BitVec.setWidth_eq s).symm

/-- Every number between two views is a view. -/
theorem exists_view {isSigned : Bool} {a b : Scalar} {n : Int} (ha : a.view isSigned ≤ n)
    (hb : n ≤ b.view isSigned) : ∃ w : Scalar, w.view isSigned = n := by
  rw [view_eq_value] at ha hb
  refine ⟨BitVec.ofInt 64 n, ?_⟩
  rw [view_eq_value, value_ofInt]
  exact wrap_eq_self ⟨Int.le_trans (value_inRange a _).1 ha, Int.le_trans hb (value_inRange b _).2⟩

/-- Two scalars of the same number have the same 64-bit view. -/
theorem read_eq_iff {t : Scalar} : s.read k = t.read k ↔ s.value k = t.value k := by
  constructor
  · intro h
    rw [value_eq, value_eq, h]
  · intro h
    rw [read_eq_ofInt, read_eq_ofInt, h]

theorem read_eq_zero_iff (s : Scalar) (k : IntegerKind) : s.read k = 0 ↔ s.value k = 0 := by
  have hzero : (0 : Scalar).read k = 0 ∧ (0 : Scalar).value k = 0 := by cases k <;> decide
  rw [← hzero.2, ← read_eq_iff, hzero.1]

theorem value_intCast_bool (s : Scalar) (k : IntegerKind) :
    (intCast s k .bool).value .bool = castValue .bool (s.value k) := by
  have hbit : value 1 .bool = 1 ∧ value 0 .bool = 0 := by decide
  show (s.write .bool (if s.read k ≠ 0 then 1 else 0)).value .bool = _
  rw [value_write]
  unfold castValue
  rw [if_pos rfl]
  by_cases hzero : s.value k = 0
  · rw [if_neg (not_not.mpr ((read_eq_zero_iff s k).mpr hzero)), if_neg (not_not.mpr hzero), hbit.2]
  · rw [if_pos (mt (read_eq_zero_iff s k).mp hzero), if_pos hzero, hbit.1]

/-- A cast converts the number. -/
theorem value_intCast_castValue (s : Scalar) (k j : IntegerKind) :
    (intCast s k j).value j = castValue j (s.value k) := by
  by_cases hj : j = .bool
  · subst hj
    exact value_intCast_bool s k
  · rw [value_intCast s k hj, castValue, if_neg hj]

/-- Members of 64 bits are always normal. -/
theorem normal_of_bits (h : bitsOf k = 64) (s : Scalar) : s.Normal k := by
  unfold Normal read
  rw [h]
  split <;> simp

end Scalar

end Nibble.Resolve
