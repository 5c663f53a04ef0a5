import Nibble.Lib.WordOps
import Nibble.Resolve.Normal

/-!
# The numbers that operators give

What `const_eval.c` computes at 64 bits is the number that the operator gives, taken
modulo `2 ^ 64`. The cast back to the type of the operands leaves these bits, so the
result is normal exactly if the number fits.
-/

namespace Nibble.Resolve

open Nibble.Lib
open Nibble.Front (TokenKind)

/-- The number of a unary operator. -/
def unaryNumber (op : TokenKind) (a : Int) : Int :=
  match op with
  | .plus => a
  | .minus => -a
  | .neg => -a - 1
  | _ => 0

/-- The number of a binary operator. A division by zero gives zero, and a shift by a count outside
of the operand what the processor makes of it. -/
def binaryNumber (U : Undefined) (isSigned : Bool) (op : TokenKind) (a b : Int) : Int :=
  match op with
  | .plus => a + b
  | .minus => a - b
  | .asterisk => a * b
  | .div => a.tdiv b
  | .mod => if b = 0 then 0 else a.tmod b
  | .lshift =>
    if 0 ≤ b ∧ b < 64 then a * 2 ^ b.toNat
    else (U.shl (BitVec.ofInt 64 a) (BitVec.ofInt 64 b)).toInt
  | .rshift =>
    if 0 ≤ b ∧ b < 64 then a / 2 ^ b.toNat
    else (U.shr isSigned (BitVec.ofInt 64 a) (BitVec.ofInt 64 b)).toInt
  | _ => 0

/-- The operators with a number of their own, not computed bit by bit. -/
def isNumeric : TokenKind → Bool
  | .plus | .minus | .asterisk | .div | .mod | .lshift | .rshift => true
  | _ => false

section

variable {U : Undefined} {op : TokenKind} {isSigned : Bool} {x y r : Scalar}

theorem ofInt_view (x : Scalar) (isSigned : Bool) : BitVec.ofInt 64 (x.view isSigned) = x := by
  unfold Scalar.view
  split
  · exact BitVec.ofInt_toInt
  · rw [BitVec.ofInt_natCast, BitVec.ofNat_toNat, BitVec.setWidth_eq]

/-- A count below 64 is the same number with and without a sign. -/
theorem view_count (y : Scalar) (isSigned : Bool) :
    (0 ≤ y.view isSigned ∧ y.view isSigned < 64 ↔ y.toNat < 64) ∧
      (y.toNat < 64 → (y.view isSigned).toNat = y.toNat) := by
  have hlt := y.isLt
  unfold Scalar.view
  split
  · rw [BitVec.toInt_eq_toNat_cond]
    split <;> omega
  · omega

theorem evalUnaryOp64bit_number (h : evalUnaryOp64bit op x = .ok r) (hop : op ≠ .not)
    (isSigned : Bool) : r = BitVec.ofInt 64 (unaryNumber op (x.view isSigned)) := by
  unfold evalUnaryOp64bit at h
  unfold unaryNumber
  split at h <;> cases h
  · exact (ofInt_view x isSigned).symm
  · rw [BitVec.ofInt_neg, ofInt_view]
  · rw [ofInt_not, ofInt_view]
  · exact absurd rfl hop

theorem divS64_number {f : BitVec 64 → BitVec 64 → BitVec 64} (h : divS64 f x y = .ok r) :
    r = if y = 0 then 0 else f x y := by
  unfold divS64 at h
  split at h
  · rename_i hy
    rw [if_pos hy]
    exact (Except.ok.inj h).symm
  · rename_i hy
    rw [if_neg hy]
    split at h
    · cases h
    · exact (Except.ok.inj h).symm

theorem shl_number (x y : Scalar) (isSigned : Bool) :
    BitVec.ofInt 64 (binaryNumber U isSigned .lshift (x.view isSigned) (y.view isSigned)) =
      if y.toNat < 64 then x <<< y.toNat else U.shl x y := by
  obtain ⟨hcount, hnat⟩ := view_count y isSigned
  simp only [binaryNumber, hcount]
  split
  · rename_i hy
    rw [hnat hy, ofInt_shiftLeft _ hy, ofInt_view]
  · rw [BitVec.ofInt_toInt, ofInt_view, ofInt_view]

theorem shr_number (x y : Scalar) (isSigned : Bool) :
    BitVec.ofInt 64 (binaryNumber U isSigned .rshift (x.view isSigned) (y.view isSigned)) =
      if y.toNat < 64 then
        if isSigned then x.sshiftRight y.toNat else x >>> y.toNat
      else U.shr isSigned x y := by
  obtain ⟨hcount, hnat⟩ := view_count y isSigned
  simp only [binaryNumber, hcount]
  split
  · rename_i hy
    rw [hnat hy]
    cases isSigned with
    | true => exact ofInt_sshiftRight x y.toNat
    | false => exact ofInt_ushiftRight x y.toNat
  · rw [BitVec.ofInt_toInt, ofInt_view, ofInt_view]

theorem div_number (x y : Scalar) (isSigned : Bool) :
    BitVec.ofInt 64 (binaryNumber U isSigned .div (x.view isSigned) (y.view isSigned)) =
      if y = 0 then 0 else if isSigned then x.sdiv y else x / y := by
  have hquot : BitVec.ofInt 64 ((x.view isSigned).tdiv (y.view isSigned)) =
      if isSigned then x.sdiv y else x / y := by
    cases isSigned with
    | true => exact ofInt_sdiv x y
    | false => exact ofInt_udiv x y
  refine hquot.trans ?_
  by_cases hy : y = 0
  · subst hy
    rw [if_pos rfl]
    cases isSigned with
    | true => exact BitVec.sdiv_zero
    | false => exact BitVec.udiv_zero
  · rw [if_neg hy]

theorem view_eq_zero_iff : y.view isSigned = 0 ↔ y = 0 := by
  have hzero : (0 : Scalar).view isSigned = 0 := by cases isSigned <;> rfl
  constructor
  · intro h
    exact view_inj isSigned (h.trans hzero.symm)
  · rintro rfl
    exact hzero

theorem mod_number (x y : Scalar) (isSigned : Bool) :
    BitVec.ofInt 64 (binaryNumber U isSigned .mod (x.view isSigned) (y.view isSigned)) =
      if y = 0 then 0 else if isSigned then x.srem y else x % y := by
  simp only [binaryNumber, view_eq_zero_iff]
  split
  · rfl
  · cases isSigned with
    | true => exact ofInt_srem x y
    | false => exact ofInt_umod x y

theorem eval_divMod {op : TokenKind} (hop : op = .div ∨ op = .mod)
    (h : evalBinaryOp64bit U op isSigned x y = .ok r) :
    r = if y = 0 then 0 else
      if op = .div then if isSigned then x.sdiv y else x / y
      else if isSigned then x.srem y else x % y := by
  cases isSigned with
  | true => rcases hop with rfl | rfl <;> exact divS64_number h
  | false => rcases hop with rfl | rfl <;> exact (Except.ok.inj h).symm

theorem isNumeric_cases (hop : isNumeric op = true) : op = .plus ∨ op = .minus ∨ op = .asterisk ∨
    op = .div ∨ op = .mod ∨ op = .lshift ∨ op = .rshift := by
  revert hop
  cases op <;> simp [isNumeric]

/-- Evaluation at 64 bits gives the number of the operator. -/
theorem evalBinaryOp64bit_number (hop : isNumeric op = true)
    (h : evalBinaryOp64bit U op isSigned x y = .ok r) :
    r = BitVec.ofInt 64 (binaryNumber U isSigned op (x.view isSigned) (y.view isSigned)) := by
  have hsame : ∀ v, evalBinaryOp64bit U op isSigned x y = .ok v → r = v :=
    fun v hv => Except.ok.inj (h.symm.trans hv)
  rcases isNumeric_cases hop with rfl | rfl | rfl | rfl | rfl | rfl | rfl
  · rw [hsame (x + y) (by cases isSigned <;> rfl), binaryNumber, BitVec.ofInt_add, ofInt_view,
      ofInt_view]
  · rw [hsame (x - y) (eval_minus U isSigned x y), binaryNumber, ofInt_sub, ofInt_view, ofInt_view]
  · rw [hsame (x * y) (by cases isSigned <;> rfl), binaryNumber, BitVec.ofInt_mul, ofInt_view,
      ofInt_view]
  · exact (eval_divMod (.inl rfl) h).trans (div_number x y isSigned).symm
  · exact (eval_divMod (.inr rfl) h).trans (mod_number x y isSigned).symm
  · rw [shl_number]
    exact hsame _ (by cases isSigned <;> rfl)
  · rw [shr_number]
    exact hsame _ (by cases isSigned <;> rfl)

/-! ## Bitwise operators -/

/-- The number that a member holds is its 64-bit view once it is read. -/
theorem view_read (s : Scalar) (k : IntegerKind) :
    Scalar.view (s.read k) (intKindSigned k) = s.value k :=
  (Scalar.value_eq s k).symm

theorem normal_read (s : Scalar) (k : IntegerKind) : Scalar.Normal (s.read k) k := by
  rw [Scalar.normal_iff, wideKind, ← Scalar.view_eq_value, view_read]
  exact Scalar.value_inRange s k

/-- What is computed bit by bit from normal scalars is normal. -/
theorem normal_bitwise {f : Bool → Bool → Bool} {k : IntegerKind} (hf : f false false = false)
    (hr : ∀ i < 64, r.getLsbD i = f (x.getLsbD i) (y.getLsbD i)) (hx : x.Normal k)
    (hy : y.Normal k) : r.Normal k := by
  have hbits := bitsOf_le k
  rw [Scalar.normal_iff_above] at hx hy ⊢
  intro i hlow hi
  rw [hr i hi, hx i hlow hi, hy i hlow hi]
  unfold Scalar.sign
  cases hs : intKindSigned k with
  | true => simp only [Bool.true_and, hr (bitsOf k - 1) (by omega)]
  | false => simpa only [Bool.false_and] using hf

theorem evalBinaryOp64bit_bitwise {k : IntegerKind} (hop : isNumeric op = false)
    (h : evalBinaryOp64bit U op isSigned x y = .ok r) (hx : x.Normal k) (hy : y.Normal k) :
    r.Normal k := by
  have hcases : x &&& y = r ∨ x ||| y = r ∨ x ^^^ y = r := by
    revert h hop
    cases isSigned <;> cases op <;>
      simp +contextual [isNumeric, evalBinaryOp64bit, evalBinaryOpS64, evalBinaryOpU64]
  rcases hcases with rfl | rfl | rfl
  · exact normal_bitwise (f := and) rfl (fun i _ => BitVec.getLsbD_and) hx hy
  · exact normal_bitwise (f := or) rfl (fun i _ => BitVec.getLsbD_or) hx hy
  · exact normal_bitwise (f := xor) rfl (fun i _ => BitVec.getLsbD_xor) hx hy

end

/-! ## Constants -/

section

variable {M : Machine} {op : TokenKind} {type : Ty} {k : IntegerKind} {l r val : Scalar}
  {dst : Eop}

theorem isSigned_of_intKind (hk : intKind? type = some k) : type.isSigned = intKindSigned k := by
  rcases eq_of_intKind hk with rfl | ⟨id, rfl⟩ <;> rfl

/-- A constant is computed at 64 bits with the value that its member holds. -/
theorem castTo_wide (hk : intKind? type = some k) (val : Scalar) :
    castTo M.rels M.conv (opFromConst type val) (wideType type.isSigned) =
      .ok (opFromConst (wideType type.isSigned) (val.read k)) := by
  have hwide : ∀ j, bitsOf j = 64 → j ≠ .bool → intCast val k j = val.read k := by
    intro j hj hbool
    have hwrite : intCast val k j = val.write j (val.read k) := by
      cases j <;> first | rfl | exact absurd rfl hbool
    rw [hwrite, Scalar.write, Scalar.setLow, hj]
    simp
  unfold wideType
  rw [castTo_int hk]
  cases hs : type.isSigned with
  | true => exact congrArg (fun imm => Except.ok (opFromConst (.integer .s64) imm)) (hwide .s64 rfl (by decide))
  | false => exact congrArg (fun imm => Except.ok (opFromConst (.integer .u64) imm)) (hwide .u64 rfl (by decide))

theorem castTo_narrow (hk : intKind? type = some k) (r : Scalar) :
    castTo M.rels M.conv (opFromConst (wideType type.isSigned) r) type =
      .ok (opFromConst type (intCast r (wideKind k) k)) := by
  unfold castTo
  rw [@castEop_int _ _ _ _ (wideKind k) _ (by rw [isSigned_of_intKind hk]; unfold opFromConst wideType wideKind; rfl) hk]
  rfl

theorem evalBinaryOp_int (hk : intKind? type = some k) :
    evalBinaryOp M op type l r = (evalBinaryOp64bit M.undef op (intKindSigned k) (l.read k)
      (r.read k)).map fun v => opFromConst type (intCast v (wideKind k) k) := by
  unfold evalBinaryOp
  rw [if_pos (isIntegerLike_iff.mpr ⟨k, hk⟩), castTo_wide hk, castTo_wide hk]
  simp only [bind, Except.bind, castTo_narrow hk]
  rw [isSigned_of_intKind hk]
  generalize hv : evalBinaryOp64bit M.undef op (intKindSigned k) (l.read k) (r.read k) = v
  have hv' : evalBinaryOp64bit M.undef op (intKindSigned k)
      (opFromConst (wideType (intKindSigned k)) (l.read k)).imm
      (opFromConst (wideType (intKindSigned k)) (r.read k)).imm = v := hv
  rw [hv']
  cases v <;> rfl

theorem evalUnaryOp_int (hk : intKind? type = some k) :
    evalUnaryOp M op type val = (evalUnaryOp64bit op (val.read k)).map fun v =>
      opFromConst type (intCast v (wideKind k) k) := by
  unfold evalUnaryOp
  rw [if_pos (isIntegerLike_iff.mpr ⟨k, hk⟩), castTo_wide hk]
  simp only [bind, Except.bind, castTo_narrow hk]
  generalize hv : evalUnaryOp64bit op (val.read k) = v
  have hv' : evalUnaryOp64bit op (opFromConst (wideType type.isSigned) (val.read k)).imm = v := hv
  rw [hv']
  cases v <;> rfl

theorem map_eq_ok {ε α β : Type} {x : Except ε α} {f : α → β} {b : β} :
    x.map f = .ok b ↔ ∃ a, x = .ok a ∧ f a = b := by
  cases x <;> simp [Except.map]

theorem bind_eq_ok {ε α β : Type} {x : Except ε α} {f : α → Except ε β} {b : β} :
    x >>= f = .ok b ↔ ∃ a, x = .ok a ∧ f a = .ok b := by
  cases x <;> simp [bind, Except.bind]

/-- The cast back leaves the bits that were computed, and is normal if they fit. -/
theorem normal_intCast_wide (v : Scalar) (k : IntegerKind) :
    (intCast v (wideKind k) k).Normal k ↔ v.Normal k := by
  have h := Scalar.normal_wideKind v k
  exact h.intCast_iff.trans h.iff_fitsIn.symm

/-- A binary operator leaves a normal constant exactly if its number fits. -/
theorem evalBinaryOp_normal (hk : intKind? type = some k) (hop : isNumeric op = true)
    (h : evalBinaryOp M op type l r = .ok dst) : Scalar.Normal dst.imm k ↔
      FitsIn k (binaryNumber M.undef (intKindSigned k) op (l.value k) (r.value k)) := by
  rw [evalBinaryOp_int hk] at h
  obtain ⟨v, hv, rfl⟩ := map_eq_ok.mp h
  have hnumber := evalBinaryOp64bit_number hop hv
  rw [view_read, view_read] at hnumber
  rw [← Scalar.normal_ofInt, ← hnumber]
  exact normal_intCast_wide v k

theorem evalBinaryOp_bitwise (hk : intKind? type = some k) (hop : isNumeric op = false)
    (h : evalBinaryOp M op type l r = .ok dst) : Scalar.Normal dst.imm k := by
  rw [evalBinaryOp_int hk] at h
  obtain ⟨v, hv, rfl⟩ := map_eq_ok.mp h
  exact (normal_intCast_wide v k).mpr
    (evalBinaryOp64bit_bitwise hop hv (normal_read l k) (normal_read r k))

theorem evalUnaryOp_normal (hk : intKind? type = some k) (hop : op ≠ .not)
    (h : evalUnaryOp M op type val = .ok dst) :
    Scalar.Normal dst.imm k ↔ FitsIn k (unaryNumber op (val.value k)) := by
  rw [evalUnaryOp_int hk] at h
  obtain ⟨v, hv, rfl⟩ := map_eq_ok.mp h
  have hnumber := evalUnaryOp64bit_number hv hop (intKindSigned k)
  rw [view_read] at hnumber
  rw [← Scalar.normal_ofInt, ← hnumber]
  exact normal_intCast_wide v k

/-! ## The operands that evaluation leaves -/

theorem evalBinaryOp_const (h : evalBinaryOp M op type l r = .ok dst) :
    ∃ imm, dst = opFromConst type imm := by
  cases hk : intKind? type with
  | some k =>
    rw [evalBinaryOp_int hk] at h
    obtain ⟨v, -, rfl⟩ := map_eq_ok.mp h
    exact ⟨_, rfl⟩
  | none =>
    have hlike : ¬ type.isIntegerLike = true := by
      rw [isIntegerLike_iff, hk]
      simp
    unfold evalBinaryOp at h
    rw [if_neg hlike] at h
    split at h
    · obtain ⟨v, -, hdst⟩ := bind_eq_ok.mp h
      exact ⟨_, (Except.ok.inj hdst).symm⟩
    · cases h

theorem evalUnaryOp_const (h : evalUnaryOp M op type val = .ok dst) :
    ∃ imm, dst = opFromConst type imm := by
  cases hk : intKind? type with
  | some k =>
    rw [evalUnaryOp_int hk] at h
    obtain ⟨v, -, rfl⟩ := map_eq_ok.mp h
    exact ⟨_, rfl⟩
  | none =>
    have hlike : ¬ type.isIntegerLike = true := by
      rw [isIntegerLike_iff, hk]
      simp
    unfold evalUnaryOp at h
    rw [if_neg hlike] at h
    split at h
    · obtain ⟨v, -, hdst⟩ := bind_eq_ok.mp h
      exact ⟨_, (Except.ok.inj hdst).symm⟩
    · cases h

theorem evalBinaryLogical_const (h : evalBinaryLogical M op type l r = .ok dst) :
    ∃ b, dst = boolConst b := by
  unfold evalBinaryLogical at h
  split at h
  · obtain ⟨leftEop, -, hl⟩ := bind_eq_ok.mp h
    obtain ⟨rightEop, -, hr⟩ := bind_eq_ok.mp hl
    obtain ⟨b, -, hdst⟩ := bind_eq_ok.mp hr
    exact ⟨b, (Except.ok.inj hdst).symm⟩
  · split at h
    · obtain ⟨b, -, h⟩ := bind_eq_ok.mp h
      exact ⟨b, (Except.ok.inj h).symm⟩
    · cases h

theorem evalUnaryNot_const (h : evalUnaryNot M type val = .ok dst) : ∃ b, dst = boolConst b := by
  unfold evalUnaryNot at h
  split at h
  · obtain ⟨valEop, -, hdst⟩ := bind_eq_ok.mp h
    exact ⟨_, (Except.ok.inj hdst).symm⟩
  · split at h
    · exact ⟨_, (Except.ok.inj h).symm⟩
    · cases h

end

end Nibble.Resolve
