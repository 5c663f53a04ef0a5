import Nibble.Resolve.Numbers

/-!
# What operators leave

For each operator, all that its result can be: a constant that is computed, a truth
value, an address, or an operand that is not known. The invariants of operands
follow from these cases.
-/

namespace Nibble.Resolve

open Nibble.Lib Nibble.Lib.Fallible
open Nibble.Front (TokenKind)

/-- An operand whose value is taken from it, in every case. -/
structure Settled (eop : Eop) : Prop where
  /-- A constant is of a scalar type. -/
  scalar : eop.isConst = true → eop.type.isScalar = true
  /-- What is no constant has a cleared scalar. -/
  cleared : eop.isConst = false → eop.imm = 0

/-- The kind that the 64-bit view of a constant stands for. -/
def viewKind? : Ty → Option IntegerKind
  | .integer k | .enum _ k => some k
  | .ptr _ => some .u64
  | _ => none

/-- The 64-bit view of a constant is the number that its member holds. -/
def Normalised (eop : Eop) : Prop :=
  eop.isConst = true → ∀ k, viewKind? eop.type = some k → Scalar.Normal eop.imm k

theorem viewKind_of_intKind {t : Ty} {k : IntegerKind} (hk : intKind? t = some k) :
    viewKind? t = some k := by
  rcases eq_of_intKind hk with rfl | ⟨id, rfl⟩ <;> rfl

theorem isScalar_of_arithmetic {t : Ty} (h : t.isArithmetic = true) : t.isScalar = true := by
  unfold Ty.isScalar
  rw [h]
  rfl

/-- An operand that is no computed number. -/
inductive Plain : Eop → Prop where
  | truth (b : Bool) : Plain (boolConst b)
  | address (base : Ty) (imm : Scalar) : Plain (opFromConst (.ptr base) imm)
  | difference (imm : Scalar) : Plain (opFromConst (.integer .s64) imm)
  | unknown (type : Ty) (isConstexpr isLvalue : Bool) :
    Plain ⟨type, isConstexpr, isLvalue, false, 0⟩

theorem settled_opFromConst {type : Ty} (h : type.isScalar = true) (imm : Scalar) :
    Settled (opFromConst type imm) where
  scalar _ := h
  cleared hc := nomatch hc

theorem Plain.settled {eop : Eop} (h : Plain eop) : Settled eop := by
  cases h with
  | truth b => exact settled_opFromConst rfl _
  | address base imm => exact settled_opFromConst rfl _
  | difference imm => exact settled_opFromConst rfl _
  | unknown type isConstexpr isLvalue =>
    refine ⟨fun hc => ?_, fun _ => rfl⟩
    cases isConstexpr <;> cases hc

theorem Plain.normalised {eop : Eop} (h : Plain eop) : Normalised eop := by
  intro hc k hk
  cases h with
  | truth b =>
    cases hk
    cases b <;> decide
  | address base imm =>
    cases hk
    exact Scalar.normal_of_bits rfl imm
  | difference imm =>
    cases hk
    exact Scalar.normal_of_bits rfl imm
  | unknown type isConstexpr isLvalue => cases isConstexpr <;> cases hc

variable {M : Machine} {op : TokenKind} {left right src dst left' right' : Eop}

/-! ## Binary operators -/

def isShift : TokenKind → Bool
  | .lshift | .rshift => true
  | _ => false

/-- An operator is folded to a number. -/
structure Folds (op : TokenKind) (left right : Eop) : Prop where
  numeric : isNumeric op = true
  left : left.isConst = true ∧ left.type.isIntegerLike = true
  right : right.isConst = true ∧ right.type.isIntegerLike = true

/-- What a binary operator leaves. -/
inductive BinaryCase (M : Machine) (op : TokenKind) (left right dst : Eop) : Prop where
  | arith (type : Ty) (left' right' : Eop) (hop : isShift op = false)
    (hl : left.isConst = true ∧ left.type.isArithmetic = true)
    (hr : right.isConst = true ∧ right.type.isArithmetic = true)
    (hconv : convertArithEops M.rels M.conv left right = .ok (type, left', right'))
    (heval : evalBinaryOp M op type left'.imm right'.imm = .ok dst)
  | shift (k : IntegerKind) (hop : isShift op = true)
    (hl : left.isConst = true ∧ left.type = .integer k)
    (hr : right.isConst = true ∧ right.type.isIntegerLike = true)
    (heval : evalBinaryOp M op left.type left.imm right.imm = .ok dst)
  | plain (hplain : Plain dst) (hfold : ¬ Folds op left right)

theorem plain_notConst (type : Ty) : Plain (notConst type) := .unknown type false false

/-- Two arithmetic operands are folded if both are constants, and unknown if one is no constant
expression. -/
theorem foldConstexprs_ok {eval : Ty → Scalar → Scalar → Except Fault Eop} {unknown : Ty → Ty}
    (hl : left.type.isArithmetic = true) (hr : right.type.isArithmetic = true)
    (h : foldConstexprs M eval unknown left right = .ok (dst, left', right')) :
    ∃ type, convertArithEops M.rels M.conv left right = .ok (type, left', right') ∧
      ((left.isConst = true ∧ right.isConst = true ∧ eval type left'.imm right'.imm = .ok dst) ∨
        (¬ (left.isConst = true ∧ right.isConst = true) ∧ dst = notConst (unknown type))) := by
  obtain ⟨type, l, r, hconv, hl', hr', -⟩ :=
    convertArithEops_flags (R := M.rels) (F := M.conv) hl hr
  have hlc := hl'.2.isConst
  have hrc := hr'.2.isConst
  unfold foldConstexprs at h
  rw [hconv] at h
  obtain ⟨x, hx, h⟩ := bind_eq_ok.mp h
  cases hx
  dsimp only at h
  simp only [Ast.ExprOperand.isConst] at hlc hrc ⊢
  split at h
  · rename_i hexpr
    rw [Bool.and_eq_true] at hexpr
    split at h
    · rename_i himm
      rw [Bool.and_eq_true] at himm
      obtain ⟨dst', heval, h⟩ := bind_eq_ok.mp h
      cases h
      refine ⟨type, hconv, .inl ⟨?_, ?_, heval⟩⟩
      · rw [← hlc, hexpr.1, himm.1]
        rfl
      · rw [← hrc, hexpr.2, himm.2]
        rfl
    · cases h
  · rename_i hexpr
    cases h
    refine ⟨type, hconv, .inr ⟨?_, rfl⟩⟩
    rw [← hlc, ← hrc]
    simp only [Bool.and_eq_true] at hexpr ⊢
    tauto

theorem resolveBinaryEop_case (hop : isShift op = false) (hl : left.type.isArithmetic = true)
    (hr : right.type.isArithmetic = true)
    (h : resolveBinaryEop M op left right = .ok (dst, left', right')) :
    BinaryCase M op left right dst := by
  obtain ⟨type, hconv, ⟨hlc, hrc, heval⟩ | ⟨hconst, rfl⟩⟩ := foldConstexprs_ok hl hr h
  · exact .arith type left' right' hop ⟨hlc, hl⟩ ⟨hrc, hr⟩ hconv heval
  · exact .plain (plain_notConst _) fun hf => hconst ⟨hf.left.1, hf.right.1⟩

theorem resolvePtrInt_plain {base : Ty} {ptr intEop : Eop}
    (h : (resolvePtrInt M base ptr intEop).Gives (dst, left', right')) : Plain dst := by
  unfold resolvePtrInt at h
  split at h
  · have hsome : Ast.resolvePtrIntArith ptr intEop = some (dst, left', right') := Except.ok.inj h
    unfold Ast.resolvePtrIntArith at hsome
    split at hsome
    · split at hsome
      · cases hsome
      · cases hsome
        split
        · exact .address _ _
        · exact .unknown _ _ _
    · cases hsome
  · cases h

theorem resolvePtrPtr_plain {leftBase rightBase : Ty}
    (h : (resolvePtrPtr M leftBase rightBase left right).Gives (dst, left', right')) :
    Plain dst := by
  unfold resolvePtrPtr at h
  split at h
  · cases h
  · simp only at h
    split at h
    · cases h
    · split at h
      · split at h
        · cases h
        · cases h
          exact .difference _
      · cases h
        exact .unknown _ _ _

theorem resolveComparison_plain
    (h : (resolveComparison M op left right).Gives (dst, left', right')) : Plain dst := by
  unfold resolveComparison at h
  split at h
  · rename_i harith
    rw [Bool.and_eq_true] at harith
    obtain ⟨type, -, ⟨-, -, heval⟩ | ⟨-, rfl⟩⟩ :=
      foldConstexprs_ok harith.1 harith.2 (gives_lift.mp h)
    · obtain ⟨b, rfl⟩ := evalBinaryLogical_const heval
      exact .truth b
    · exact plain_notConst _
  · split at h
    · split at h
      · cases h
      · split at h
        · obtain ⟨b, -, h⟩ := gives_bind.mp h
          cases h
          exact .truth b
        · cases h
          exact plain_notConst _
    · cases h

theorem resolveLogical_plain
    (h : (resolveLogical M op left right).Gives (dst, left', right')) : Plain dst := by
  obtain ⟨l, -, h⟩ := gives_bind.mp h
  obtain ⟨r, -, h⟩ := gives_bind.mp h
  split at h
  · obtain ⟨b, -, h⟩ := gives_bind.mp h
    cases h
    exact .truth b
  · split at h
    · cases h
      exact .truth true
    · cases h
      exact plain_notConst _

theorem resolveShift_case (hop : isShift op = true)
    (h : (resolveShift M op left right).Gives (dst, left', right')) :
    BinaryCase M op left right dst := by
  unfold resolveShift at h
  split at h
  · rename_i k j hl hr
    split at h
    · rename_i hexpr
      rw [Bool.and_eq_true] at hexpr
      split at h
      · rename_i himm
        rw [Bool.and_eq_true] at himm
        obtain ⟨dst', heval, h⟩ := gives_bind.mp h
        cases h
        refine .shift k hop ⟨?_, hl⟩ ⟨?_, hr ▸ rfl⟩ (gives_lift.mp heval)
        · unfold Ast.ExprOperand.isConst
          rw [hexpr.1, himm.1]
          rfl
        · unfold Ast.ExprOperand.isConst
          rw [hexpr.2, himm.2]
          rfl
      · cases h
    · rename_i hexpr
      cases h
      refine .plain (plain_notConst _) fun hf => hexpr ?_
      have hl := hf.left.1
      have hr := hf.right.1
      unfold Ast.ExprOperand.isConst at hl hr
      rw [Bool.and_eq_true] at hl hr ⊢
      exact ⟨hl.1, hr.1⟩
  · cases h

theorem resolveDivmod_plain (h : (resolveDivmod M left right).Gives (dst, left', right')) :
    Plain dst := by
  unfold resolveDivmod at h
  split at h
  · cases h
  · obtain ⟨x, -, h⟩ := gives_bind.mp h
    cases h
    exact .unknown _ _ _

theorem not_folds_of_ptr {base : Ty} (h : left.type = .ptr base ∨ right.type = .ptr base) :
    ¬ Folds op left right := by
  intro hf
  have hl := hf.left.2
  have hr := hf.right.2
  rcases h with h | h
  · rw [h] at hl
    cases hl
  · rw [h] at hr
    cases hr

theorem not_folds_of_not_numeric (h : isNumeric op = false) : ¬ Folds op left right := by
  intro hf
  rw [hf.numeric] at h
  cases h

theorem isArithmetic_of_integerLike {t : Ty} (h : t.isIntegerLike = true) :
    t.isArithmetic = true := by
  obtain ⟨k, hk⟩ := isIntegerLike_iff.mp h
  exact isArithmetic_of_intKind hk

/-- An operator whose operands are checked before they are folded. -/
theorem checked_case {check : Ty → Bool} (hcheck : ∀ t, check t = true → t.isArithmetic = true)
    (hop : isShift op = false)
    (h : Gives (if !(check left.type && check right.type) then failure
      else liftM (resolveBinaryEop M op left right) : Eval Operands) (dst, left', right')) :
    BinaryCase M op left right dst := by
  split at h
  · cases h
  · rename_i hcond
    rw [Bool.not_eq_true, Bool.not_eq_false', Bool.and_eq_true] at hcond
    exact resolveBinaryEop_case hop (hcheck _ hcond.1) (hcheck _ hcond.2) (gives_lift.mp h)

/-- `+` and `-` of arithmetic operands. -/
theorem sum_case {other : Eval Operands} (hop : isShift op = false)
    (h : Gives (if left.type.isArithmetic && right.type.isArithmetic then
      liftM (resolveBinaryEop M op left right) else other) (dst, left', right'))
    (hother : other.Gives (dst, left', right') → BinaryCase M op left right dst) :
    BinaryCase M op left right dst := by
  split at h
  · rename_i harith
    rw [Bool.and_eq_true] at harith
    exact resolveBinaryEop_case hop harith.1 harith.2 (gives_lift.mp h)
  · exact hother h

/-- All that a binary operator can leave. -/
theorem resolveBinary_case (h : (resolveBinary M op left right).Gives (dst, left', right')) :
    BinaryCase M op left right dst := by
  unfold resolveBinary at h
  split at h
  case h_1 =>
    refine sum_case rfl h fun h => ?_
    split at h
    · rename_i base hl
      split at h
      · exact .plain (resolvePtrInt_plain h) (not_folds_of_ptr (.inl hl))
      · cases h
    · rename_i base hr _
      split at h
      · obtain ⟨x, hx, h⟩ := gives_bind.mp h
        cases h
        exact .plain (resolvePtrInt_plain hx) (not_folds_of_ptr (.inr hr))
      · cases h
    · cases h
  case h_2 =>
    refine sum_case rfl h fun h => ?_
    split at h
    · rename_i hl _
      exact .plain (resolvePtrPtr_plain h) (not_folds_of_ptr (.inl hl))
    · rename_i hl _
      split at h
      · exact .plain (resolvePtrInt_plain h) (not_folds_of_ptr (.inl hl))
      · cases h
    · cases h
  case h_3 | h_4 => exact checked_case (fun _ h => h) rfl h
  case h_5 | h_6 | h_7 | h_8 => exact checked_case (fun _ => isArithmetic_of_integerLike) rfl h
  case h_9 => exact .plain (resolveDivmod_plain h) (not_folds_of_not_numeric rfl)
  case h_10 | h_11 => exact resolveShift_case rfl h
  case h_12 | h_13 | h_14 | h_15 | h_16 | h_17 =>
    exact .plain (resolveComparison_plain h) (not_folds_of_not_numeric rfl)
  case h_18 | h_19 => exact .plain (resolveLogical_plain h) (not_folds_of_not_numeric rfl)
  case h_20 => cases h

theorem BinaryCase.settled (h : BinaryCase M op left right dst) : Settled dst := by
  cases h with
  | arith type l r _ hl hr hconv heval =>
    obtain ⟨imm, rfl⟩ := evalBinaryOp_const heval
    obtain ⟨type', l', r', hconv', -, -, harith⟩ :=
      convertArithEops_flags (R := M.rels) (F := M.conv) hl.2 hr.2
    cases hconv.symm.trans hconv'
    exact settled_opFromConst (isScalar_of_arithmetic harith) imm
  | shift k _ hl _ heval =>
    obtain ⟨imm, rfl⟩ := evalBinaryOp_const heval
    exact settled_opFromConst (hl.2 ▸ rfl) imm
  | plain hplain => exact hplain.settled

theorem toCommon_value {eop : Eop} {k c : IntegerKind} (hk : intKind? eop.type = some k)
    (hc : c ≠ .bool) (hconst : eop.isConst = true) :
    Scalar.value (toCommon eop k c).imm c = wrap c (Scalar.value eop.imm k) := by
  rcases (toCommon_converts hk hc).value with h | h
  · exact h
  · rw [hconst] at h
    cases h

/-! ## Unary operators -/

def isUnaryNumeric : TokenKind → Bool
  | .plus | .minus | .neg => true
  | _ => false

/-- What a unary operator leaves. -/
inductive UnaryCase (M : Machine) (op : TokenKind) (src dst : Eop) : Prop where
  | arith (src' : Eop) (hop : isUnaryNumeric op = true)
    (hsrc : src.isConst = true ∧ src.type.isArithmetic = true)
    (hpromote : promoteIntEops M.rels M.conv src = .ok src')
    (heval : evalUnaryOp M op src'.type src'.imm = .ok dst)
  | plain (hplain : Plain dst) (hfold : ¬ (isUnaryNumeric op = true ∧ src.isConst = true))

theorem promoteIntEops_flags (h : src.type.isArithmetic = true) :
    ∃ src', promoteIntEops M.rels M.conv src = .ok src' ∧ SameFlags src src' ∧
      src'.type.isArithmetic = true := by
  cases hk : intKind? src.type with
  | some k =>
    refine ⟨_, promoteIntEops_int hk, promoteInt_flags src k, ?_⟩
    unfold promoteInt
    split
    · rfl
    · exact h
  | none =>
    cases ht : src.type with
    | float k =>
      refine ⟨src, ?_, .refl, h⟩
      unfold promoteIntEops
      rw [ht]
    | integer k | enum id k =>
      rw [ht] at hk
      cases hk
    | _ =>
      rw [ht] at h
      cases h

theorem resolveUnaryEop_case (hop : isUnaryNumeric op = true) (harith : src.type.isArithmetic = true)
    (h : resolveUnaryEop M op src = .ok (dst, left')) : UnaryCase M op src dst := by
  obtain ⟨src', hpromote, hflags, -⟩ := promoteIntEops_flags (M := M) harith
  unfold resolveUnaryEop at h
  rw [hpromote] at h
  obtain ⟨x, hx, h⟩ := bind_eq_ok.mp h
  cases hx
  rw [hflags.isConst] at h
  split at h
  · rename_i hconst
    obtain ⟨y, heval, h⟩ := bind_eq_ok.mp h
    cases h
    exact .arith _ hop ⟨hconst, harith⟩ hpromote heval
  · rename_i hconst
    cases h
    exact .plain (plain_notConst _) fun hf => hconst hf.2

theorem resolveUnary_case (h : (resolveUnary M op src).Gives (dst, left')) :
    UnaryCase M op src dst := by
  unfold resolveUnary at h
  split at h
  case h_1 | h_2 =>
    split at h
    · rename_i harith
      exact resolveUnaryEop_case rfl harith (gives_lift.mp h)
    · cases h
  case h_3 =>
    split at h
    · rename_i hlike
      exact resolveUnaryEop_case rfl (isArithmetic_of_integerLike hlike) (gives_lift.mp h)
    · cases h
  case h_4 =>
    refine .plain ?_ fun hf => nomatch hf.1
    split at h
    · cases h
    · split at h
      · obtain ⟨y, heval, h⟩ := gives_bind.mp h
        cases h
        obtain ⟨b, rfl⟩ := evalUnaryNot_const (gives_lift.mp heval)
        exact .truth b
      · cases h
        exact .unknown _ _ _
  case h_5 =>
    refine .plain ?_ fun hf => nomatch hf.1
    split at h
    · cases h
      exact .unknown _ _ _
    · cases h
  case h_6 => cases h

theorem UnaryCase.settled (h : UnaryCase M op src dst) : Settled dst := by
  cases h with
  | arith src' _ hsrc hpromote heval =>
    obtain ⟨imm, rfl⟩ := evalUnaryOp_const heval
    obtain ⟨src'', hpromote', -, harith⟩ := promoteIntEops_flags (M := M) hsrc.2
    cases hpromote.symm.trans hpromote'
    exact settled_opFromConst (isScalar_of_arithmetic harith) imm
  | plain hplain => exact hplain.settled

/-! ## Conversions -/

/-- A constant is converted, and other operands change their type only. -/
structure Converted (M : Machine) (eop : Eop) (type : Ty) (eop' : Eop) : Prop where
  hasType : eop'.type = type
  flags : SameFlags eop eop'
  isLvalue : eop'.isLvalue = false
  const : eop.isConst = true → castImm M.conv eop.type type eop.imm = .ok eop'.imm
  other : eop.isConst = false → eop'.imm = eop.imm

theorem castEop_ok {type : Ty} {forbid : Bool} {r : CastResult} {eop' : Eop}
    (h : castEop M.rels M.conv src type forbid = .ok (r, eop')) :
    r = canCastEop M.rels src type forbid ∧ (r.success = true → Converted M src type eop') := by
  unfold castEop at h
  simp only at h
  split at h
  · rename_i hfail
    cases h
    refine ⟨rfl, fun hsucc => ?_⟩
    rw [hsucc] at hfail
    cases hfail
  · cases hconst : src.isConst with
    | true =>
      rw [hconst] at h
      obtain ⟨imm, himm, h⟩ := bind_eq_ok.mp h
      cases h
      exact ⟨rfl, fun _ => ⟨rfl, ⟨rfl, rfl⟩, rfl, fun _ => himm,
        fun hother => nomatch hconst.symm.trans hother⟩⟩
    | false =>
      rw [hconst] at h
      cases h
      exact ⟨rfl, fun _ => ⟨rfl, ⟨rfl, rfl⟩, rfl,
        fun hother => (nomatch hconst.symm.trans hother), fun _ => rfl⟩⟩

theorem canCastEop_of_canConvert {type : Ty} {forbid : Bool}
    (h : (canConvertEop M.rels src type forbid).success = true) :
    canCastEop M.rels src type forbid = canConvertEop M.rels src type forbid := by
  unfold canCastEop
  simp only [h, Bool.true_or, if_true]

theorem convertOrReport_gives {type : Ty} {forbid : Bool} {eop' : Eop}
    (h : (convertOrReport M src type forbid).Gives eop') :
    (canConvertEop M.rels src type forbid).success = true ∧ Converted M src type eop' := by
  obtain ⟨⟨r, eop⟩, hconv, h⟩ := gives_bind.mp h
  have hconv := gives_lift.mp hconv
  dsimp only at h
  split at h
  · rename_i hsucc
    cases h
    unfold convertEop at hconv
    simp only at hconv
    split at hconv
    · rename_i hfail
      cases hconv
      rw [hsucc] at hfail
      cases hfail
    · obtain ⟨⟨r', eop'⟩, hcast, hconv⟩ := bind_eq_ok.mp hconv
      cases hconv
      obtain ⟨hr', hconverted⟩ := castEop_ok hcast
      have hc := hconverted (by rw [hr', canCastEop_of_canConvert hsucc]; exact hsucc)
      exact ⟨hsucc, hc.hasType, ⟨hc.flags.isConstexpr, hc.flags.isImm⟩, rfl, hc.const, hc.other⟩
  · cases h

/-- Scalars are cast to scalars only. -/
theorem isScalar_of_canCast {type : Ty} {forbid : Bool} (hsrc : src.type.isScalar = true)
    (h : (canCastEop M.rels src type forbid).success = true) : type.isScalar = true := by
  revert h
  unfold canCastEop canConvertEop
  cases type <;> cases ht : src.type <;> rw [ht] at hsrc <;>
    simp_all [Ty.isScalar, Ty.isArithmetic, Ty.isPtrLike, Ty.isBool]

theorem Converted.settled {type : Ty} {eop' : Eop} (h : Converted M src type eop')
    (hsrc : Settled src) (htype : src.isConst = true → type.isScalar = true) : Settled eop' where
  scalar hc := h.hasType ▸ htype (h.flags.isConst ▸ hc)
  cleared hc := by
    have hconst := h.flags.isConst.symm.trans hc
    rw [h.other hconst, hsrc.cleared hconst]

/-! ## Expressions -/

theorem tryWrapCast_imm {eop expr expr' : Eop} (h : tryWrapCast eop expr = .ok expr') :
    expr'.imm = if expr.type = eop.type then expr.imm else if expr.isConst then eop.imm else 0 := by
  unfold tryWrapCast at h
  by_cases htype : expr.type = eop.type
  · rw [if_neg (not_not.mpr htype)] at h
    cases h
    rw [if_pos htype]
  · rw [if_pos htype] at h
    rw [if_neg htype]
    split at h
    · rename_i hconst
      split at h
      · cases h
        rw [if_pos hconst]
      · cases h
    · rename_i hconst
      cases h
      rw [if_neg hconst]

theorem commonPtrType_mem {t u common : Ty} (h : commonPtrType M t u = some common) :
    common = t ∨ common = u := by
  unfold commonPtrType at h
  split at h
  · exact .inl (Option.some.inj h).symm
  · split at h
    · exact .inl (Option.some.inj h).symm
    · split at h
      · exact .inr (Option.some.inj h).symm
      · split at h
        · exact .inr (Option.some.inj h).symm
        · split at h
          · exact .inl (Option.some.inj h).symm
          · cases h

/-- The branches of a conditional: arithmetic operands are converted, and others stay. -/
inductive BranchCase (M : Machine) (thenExpr elseExpr : Eop) (type : Ty) (thenOp elseOp : Eop) :
    Prop where
  | arith (ht : thenExpr.type.isArithmetic = true) (he : elseExpr.type.isArithmetic = true)
    (hconv : convertArithEops M.rels M.conv thenExpr elseExpr = .ok (type, thenOp, elseOp))
  | other (hnot : ¬ (thenExpr.type.isIntegerLike = true ∧ elseExpr.type.isIntegerLike = true))
    (hkind : ∀ k, viewKind? type = some k → bitsOf k = 64)
    (hscalar : thenExpr.type.isScalar = true → type.isScalar = true)

theorem convertBranches_gives {thenExpr elseExpr thenOp elseOp : Eop} {type : Ty}
    (h : (convertBranches M thenExpr elseExpr).Gives (type, thenOp, elseOp)) :
    BranchCase M thenExpr elseExpr type thenOp elseOp ∧ SameFlags thenExpr thenOp ∧
      SameFlags elseExpr elseOp := by
  unfold convertBranches at h
  split at h
  · rename_i harith
    rw [Bool.and_eq_true] at harith
    have hconv := gives_lift.mp h
    obtain ⟨t, l, r, hconv', hl, hr, -⟩ :=
      convertArithEops_flags (R := M.rels) (F := M.conv) harith.1 harith.2
    cases hconv.symm.trans hconv'
    exact ⟨.arith harith.1 harith.2 hconv, hl.2, hr.2⟩
  · rename_i harith
    have hnot : ¬ (thenExpr.type.isIntegerLike = true ∧ elseExpr.type.isIntegerLike = true) := by
      rintro ⟨hl, hr⟩
      rw [isArithmetic_of_integerLike hl, isArithmetic_of_integerLike hr] at harith
      exact harith rfl
    split at h
    · rename_i base base' ht he
      split at h
      · cases h
      · rename_i common hcommon
        cases h
        rw [ht, he] at hcommon
        obtain ⟨b, rfl⟩ : ∃ b, type = .ptr b := by
          rcases commonPtrType_mem hcommon with rfl | rfl
          · exact ⟨_, rfl⟩
          · exact ⟨_, rfl⟩
        refine ⟨.other hnot (fun k hk => ?_) fun _ => rfl, ⟨rfl, rfl⟩, ⟨rfl, rfl⟩⟩
        cases hk
        rfl
    · rename_i hptr
      split at h
      · rename_i htype
        cases h
        refine ⟨.other hnot (fun k hk => ?_) id, .refl, .refl⟩
        cases ht : thenExpr.type with
        | integer j | enum id j =>
          rw [← htype, ht] at harith
          exact absurd rfl harith
        | ptr base => exact absurd (htype ▸ ht) (hptr base base ht)
        | _ =>
          rw [ht] at hk
          cases hk
      · cases h

/-- A conditional is a constant if all its parts are. -/
theorem resolveExprTernary_gives {cond condOp thenExpr elseExpr cond' : Eop}
    (h : (resolveExprTernary M cond condOp thenExpr elseExpr).Gives (dst, cond')) :
    ∃ type thenOp elseOp, BranchCase M thenExpr elseExpr type thenOp elseOp ∧
      (condOp.isConstexpr = true ∧ thenExpr.isConst = true ∧ elseExpr.isConst = true ∧
          dst = opFromConst type
            (if !condOp.isImm || decide (Scalar.read condOp.imm .bool ≠ 0) then thenOp.imm
              else elseOp.imm) ∨
        ¬ (condOp.isConstexpr = true ∧ thenExpr.isConst = true ∧ elseExpr.isConst = true) ∧
          ∃ isConstexpr, dst = ⟨type, isConstexpr, false, false, 0⟩) := by
  obtain ⟨⟨type, thenOp, elseOp⟩, hconv, h⟩ := gives_bind.mp h
  obtain ⟨c', -, h⟩ := gives_bind.mp h
  obtain ⟨t', -, h⟩ := gives_bind.mp h
  obtain ⟨e', -, h⟩ := gives_bind.mp h
  obtain ⟨hcase, ht, he⟩ := convertBranches_gives hconv
  refine ⟨type, thenOp, elseOp, hcase, ?_⟩
  dsimp only at h
  rw [ht.isConst, he.isConst] at h
  split at h
  · rename_i hconst
    rw [Bool.and_eq_true, Bool.and_eq_true] at hconst
    cases h
    exact .inl ⟨hconst.1, hconst.2.1, hconst.2.2, rfl⟩
  · rename_i hconst
    rw [Bool.and_eq_true, Bool.and_eq_true] at hconst
    cases h
    exact .inr ⟨hconst, _, rfl⟩

theorem resolveExprBinary_case
    (h : (resolveExprBinary M op left right).Gives (dst, left', right')) :
    BinaryCase M op left right dst := by
  obtain ⟨x, hx, h⟩ := gives_bind.mp h
  obtain ⟨l, -, h⟩ := gives_bind.mp h
  obtain ⟨r, -, h⟩ := gives_bind.mp h
  cases h
  exact resolveBinary_case hx

theorem resolveExprUnary_case (h : (resolveExprUnary M op src).Gives dst) :
    UnaryCase M op src dst := by
  obtain ⟨x, hx, h⟩ := gives_bind.mp h
  obtain ⟨e, -, h⟩ := gives_bind.mp h
  cases h
  exact resolveUnary_case hx

theorem resolveExprCast_gives {type : Ty} (h : (resolveExprCast M type src).Gives dst) :
    (canCastEop M.rels src type false).success = true ∧ Converted M src type dst := by
  obtain ⟨⟨r, eop⟩, hcast, h⟩ := gives_bind.mp h
  obtain ⟨hr, hconverted⟩ := castEop_ok (gives_lift.mp hcast)
  dsimp only at h
  split at h
  · cases h
  · rename_i hsucc
    rw [Bool.not_eq_true, Bool.not_eq_false'] at hsucc
    split at h
    · cases h
      exact ⟨hr ▸ hsucc, hconverted hsucc⟩
    · cases h

theorem resolveExprBitCast_gives {type : Ty} (h : (resolveExprBitCast type src).Gives dst) :
    dst = { src with type := type } ∧ src.type.size = type.size ∧
      (src.isImm = true → type.isObjLike = false) := by
  unfold resolveExprBitCast at h
  split at h
  · cases h
  · rename_i hsize
    split at h
    · cases h
    · rename_i hobj
      cases h
      rw [Bool.or_eq_true, not_or, decide_eq_true_eq, not_not] at hsize
      refine ⟨rfl, hsize.1, fun himm => ?_⟩
      rw [himm, Bool.true_and, Bool.not_eq_true] at hobj
      exact hobj

theorem isScalar_of_bitCast {t u : Ty} (ht : t.isScalar = true) (hsize : t.size = u.size)
    (hobj : u.isObjLike = false) : u.isScalar = true := by
  have hpos : t.size ≠ 0 := by
    cases t with
    | integer k | enum id k => cases k <;> exact Nat.succ_ne_zero _
    | float k => cases k <;> exact Nat.succ_ne_zero _
    | ptr base | proc id => exact Nat.succ_ne_zero _
    | _ => cases ht
  cases u with
  | void | incomplete id => exact absurd hsize hpos
  | array base len | struct id n a | slice elem | union id n a => cases hobj
  | _ => rfl

/-- A constant of a declaration: what its initializer is, or is converted to. -/
theorem resolveDeclConst_gives {typespec : Option Ty} (h : (resolveDeclConst M typespec src).Gives dst) :
    (typespec = none ∧ src.type.isScalar = true ∧ dst = opFromConst src.type src.imm) ∨
      ∃ type eop imm, typespec = some type ∧ type.isScalar = true ∧ Converted M src type eop ∧
        dst = opFromConst type imm ∧
        imm = if src.type = type then src.imm else if src.isConst then eop.imm else 0 := by
  unfold resolveDeclConst at h
  split at h
  · cases h
  · split at h
    · cases h
    · rename_i hscalar
      rw [Bool.not_eq_true, Bool.not_eq_false'] at hscalar
      split at h
      · cases h
        exact .inl ⟨rfl, hscalar, rfl⟩
      · rename_i type
        obtain ⟨eop, hconv, h⟩ := gives_bind.mp h
        obtain ⟨init, hwrap, h⟩ := gives_bind.mp h
        cases h
        obtain ⟨hsucc, hconverted⟩ := convertOrReport_gives hconv
        have himm := tryWrapCast_imm (gives_lift.mp hwrap)
        rw [hconverted.hasType] at himm
        refine .inr ⟨type, eop, init.imm, rfl, ?_, hconverted, rfl, himm⟩
        exact isScalar_of_canCast hscalar (canCastEop_of_canConvert hsucc ▸ hsucc)

theorem resolveEnumValue_gives {id : Nat} {base : IntegerKind}
    (h : (resolveEnumValue M id base src).Gives dst) :
    src.type.isIntegerLike = true ∧ valueInIntRange src.imm base = true ∧
      ∃ eop, Converted M src (.enum id base) eop ∧ dst = opFromConst (.enum id base) eop.imm := by
  unfold resolveEnumValue at h
  split at h
  · cases h
  · split at h
    · cases h
    · rename_i hlike
      rw [Bool.not_eq_true, Bool.not_eq_false'] at hlike
      split at h
      · cases h
      · rename_i hrange
        rw [Bool.not_eq_true, Bool.not_eq_false'] at hrange
        obtain ⟨eop, hconv, h⟩ := gives_bind.mp h
        obtain ⟨e, -, h⟩ := gives_bind.mp h
        cases h
        exact ⟨hlike, hrange, eop, (convertOrReport_gives hconv).2, rfl⟩

theorem resolveEnumNext_gives (h : (resolveEnumNext M src).Gives dst) :
    ∃ id base, src.type = .enum id base ∧ evalBinaryOp M .plus src.type src.imm 1 = .ok dst := by
  unfold resolveEnumNext at h
  split at h
  · rename_i id base htype
    split at h
    · cases h
    · exact ⟨id, base, htype, gives_lift.mp h⟩
  · cases h

theorem resolveLiteral_settled {lit : Literal} (h : (resolveLiteral lit).Gives dst) :
    Settled dst := by
  unfold resolveLiteral at h
  split at h
  · split at h
    · cases h
      exact settled_opFromConst rfl _
    · split at h
      · cases h
      · cases h
        exact settled_opFromConst rfl _
  case h_7 =>
    cases h
    exact (Plain.unknown ..).settled
  all_goals
    cases h
    exact settled_opFromConst rfl _

/-- Whatever a step leaves for settled operands is settled. -/
theorem Step.exec_settled {s : Step} (hin : s.Inputs Settled) (h : (s.exec M).Gives dst) :
    Settled dst := by
  cases s with
  | literal lit => exact resolveLiteral_settled h
  | const typespec init =>
    obtain ⟨-, hscalar, rfl⟩ | ⟨type, eop, imm, -, hscalar, -, rfl, -⟩ := resolveDeclConst_gives h
    · exact settled_opFromConst hscalar _
    · exact settled_opFromConst hscalar _
  | enumValue id base value =>
    obtain ⟨-, -, eop, -, rfl⟩ := resolveEnumValue_gives h
    exact settled_opFromConst rfl _
  | enumNext prev =>
    obtain ⟨id, base, htype, heval⟩ := resolveEnumNext_gives h
    obtain ⟨imm, rfl⟩ := evalBinaryOp_const heval
    exact settled_opFromConst (htype ▸ rfl) _
  | unary op src => exact (resolveExprUnary_case h).settled
  | addressOf isGlobal src =>
    have h : (resolveAddressOf isGlobal src).Gives dst := h
    unfold resolveAddressOf at h
    split at h
    · cases h
      exact (Plain.unknown ..).settled
    · cases h
  | binary op left right =>
    obtain ⟨x, hx, h⟩ := gives_bind.mp h
    cases h
    exact (resolveExprBinary_case hx).settled
  | condition cond =>
    exact (convertOrReport_gives h).2.settled hin fun _ => rfl
  | ternary cond condOp thenExpr elseExpr =>
    obtain ⟨x, hx, h⟩ := gives_bind.mp h
    cases h
    obtain ⟨type, thenOp, elseOp, hcase, ⟨-, hthen, -, heq⟩ | ⟨-, isConstexpr, heq⟩⟩ :=
      resolveExprTernary_gives hx
    · rw [heq]
      refine settled_opFromConst ?_ _
      cases hcase with
      | arith ht he hconv =>
        obtain ⟨t, l, r, hconv', -, -, harith⟩ :=
          convertArithEops_flags (R := M.rels) (F := M.conv) ht he
        cases hconv.symm.trans hconv'
        exact isScalar_of_arithmetic harith
      | other _ _ hscalar => exact hscalar (hin.2.1.scalar hthen)
    · rw [heq]
      exact (Plain.unknown type isConstexpr false).settled
  | cast type src =>
    obtain ⟨hsucc, hconverted⟩ := resolveExprCast_gives h
    exact hconverted.settled hin fun hconst => isScalar_of_canCast (hin.scalar hconst) hsucc
  | bitCast type src =>
    obtain ⟨rfl, hsize, hobj⟩ := resolveExprBitCast_gives h
    refine ⟨fun hconst => ?_, hin.cleared⟩
    have himm : src.isImm = true := (Bool.and_eq_true _ _ ▸ hconst :).2
    exact isScalar_of_bitCast (hin.scalar hconst) hsize (hobj himm)

end Nibble.Resolve
