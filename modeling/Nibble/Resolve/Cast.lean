import Nibble.Ast.PtrFold
import Nibble.Resolve.Scalar

/-!
# Conversions of operands

`can_convert_eop`, `can_cast_eop`, `cast_eop` and `convert_eop` of
`resolver/exprs.c`. A constant is converted through the member of the scalar that
belongs to its type; the other bits of the scalar stay.
-/

namespace Nibble.Resolve

/-- The questions about two types that depend on the bodies of procedures and structs:
`types_are_compatible`, and `ptr_types_are_derived` with the base first. -/
structure TypeRels where
  compatible : Ty → Ty → Bool
  derived : Ty → Ty → Bool

/-- The conversions between floats and integers, as the processor does them. -/
structure FloatConv where
  widen : BitVec 32 → BitVec 64
  narrow : BitVec 64 → BitVec 32
  isZero : FloatKind → Scalar → Bool
  toInt : FloatKind → Scalar → IntegerKind → BitVec 64
  ofInt : FloatKind → BitVec 64 → IntegerKind → BitVec 64

/-- The relations where there are integers and floats only. -/
def TypeRels.plain : TypeRels := ⟨fun t u => decide (t = u), fun _ _ => false⟩

/-- Conversions for operands that are no floats. -/
def FloatConv.unused : FloatConv :=
  ⟨fun _ => 0, fun _ => 0, fun _ _ => true, fun _ _ _ => 0, fun _ _ _ => 0⟩

/-- `CastResult`. -/
structure CastResult where
  success : Bool
  badLvalue : Bool
  deriving DecidableEq, Repr

section

variable (R : TypeRels) (F : FloatConv)

/-- `can_convert_eop`. -/
def canConvertEop (operand : Ast.ExprOperand) (dstType : Ty) (forbidRvalueDecay : Bool) :
    CastResult :=
  let srcType := operand.type
  let rvalue := !operand.isLvalue && forbidRvalueDecay
  let (convertible, badLvalue) :=
    if dstType = srcType then (true, false)
    else if dstType.isArithmetic && srcType.isArithmetic then (true, false)
    else if dstType.isBool then (srcType.isPtrLike, false)
    else
      match dstType, srcType with
      | .ptr ptrBase, .array arrBase _ =>
        (decide (ptrBase = .void) || R.compatible ptrBase arrBase, rvalue)
      | .ptr ptrBase, .slice elem =>
        (decide (ptrBase = .void) || R.compatible (.ptr elem) (.ptr ptrBase), rvalue)
      | .slice elem, .array arrBase _ => (decide (elem = arrBase), rvalue)
      | .ptr dstBase, .ptr srcBase =>
        (R.derived dstType srcType || decide (dstBase = .void) || decide (srcBase = .void)
          || R.compatible dstBase srcBase, false)
      | _, _ => (false, false)
  ⟨convertible && !badLvalue, badLvalue⟩

/-- `can_cast_eop`. -/
def canCastEop (eop : Ast.ExprOperand) (dstType : Ty) (forbidRvalueDecay : Bool) : CastResult :=
  let r := canConvertEop R eop dstType forbidRvalueDecay
  if r.success || r.badLvalue then r
  else
    match dstType, eop.type with
    | .integer _, srcType => { r with success := srcType.isPtrLike }
    | dstType, .integer _ => { r with success := dstType.isPtrLike }
    | dstType, srcType => if dstType.isPtrLike && srcType.isPtrLike then { r with success := true } else r

/-- A float constant of another kind. The bits above an `f32` stay. -/
def floatCast (imm : Scalar) : FloatKind → FloatKind → Scalar
  | .f32, .f64 => F.widen (imm.setWidth 32)
  | .f64, .f32 => imm.setLow 32 ((F.narrow imm).setWidth 64)
  | _, _ => imm

/-- `CASE_FLOAT_INT_CAST`. -/
def floatIntCast (imm : Scalar) (src : FloatKind) (dst : IntegerKind) : Scalar :=
  match dst with
  | .bool => imm.write .bool (if F.isZero src imm then 0 else 1)
  | dst => imm.write dst (F.toInt src imm dst)

/-- `CASE_INT_FLOAT_CAST`. -/
def intFloatCast (imm : Scalar) (src : IntegerKind) (dst : FloatKind) : Scalar :=
  imm.setLow (8 * floatKindSize dst) (F.ofInt dst (imm.read src) src)

/-- The kind through which a constant that is no float is converted. -/
def castIntKind : Ty → Except Fault IntegerKind
  | .enum _ base => .ok base
  | .ptr _ => .ok .u64
  | .integer k => .ok k
  | _ => .error .assertion

/-- The immediate that `cast_eop` leaves. -/
def castImm (srcType dstType : Ty) (imm : Scalar) : Except Fault Scalar :=
  match srcType, dstType with
  | .float src, .float dst => .ok (floatCast F imm src dst)
  | .float src, .integer dst | .float src, .enum _ dst => .ok (floatIntCast F imm src dst)
  | .integer src, .float dst | .enum _ src, .float dst => .ok (intFloatCast F imm src dst)
  | srcType, dstType => do
    let src ← castIntKind srcType
    let dst ← castIntKind dstType
    return intCast imm src dst

/-- `cast_eop`: the result, and the operand. -/
def castEop (eop : Ast.ExprOperand) (dstType : Ty) (forbidRvalueDecay : Bool) :
    Except Fault (CastResult × Ast.ExprOperand) :=
  let r := canCastEop R eop dstType forbidRvalueDecay
  if !r.success then .ok (r, eop)
  else do
    let imm ← if eop.isConst then castImm F eop.type dstType eop.imm else .ok eop.imm
    return (r, { eop with type := dstType, isLvalue := false, imm })

/-- `convert_eop`. -/
def convertEop (eop : Ast.ExprOperand) (dstType : Ty) (forbidRvalueDecay : Bool) :
    Except Fault (CastResult × Ast.ExprOperand) :=
  let r := canConvertEop R eop dstType forbidRvalueDecay
  if !r.success then .ok (r, eop)
  else do
    let (_, eop) ← castEop R F eop dstType forbidRvalueDecay
    return (r, { eop with isLvalue := false })

/-! ## Casts of arithmetic operands -/

/-- The kind of an integer, or that of the base of an enum. -/
def intKind? : Ty → Option IntegerKind
  | .integer k | .enum _ k => some k
  | _ => none

theorem isIntegerLike_iff {t : Ty} : t.isIntegerLike = true ↔ ∃ k, intKind? t = some k := by
  cases t <;> simp [Ty.isIntegerLike, intKind?]

theorem eq_of_intKind {t : Ty} {k : IntegerKind} (h : intKind? t = some k) :
    t = .integer k ∨ ∃ id, t = .enum id k := by
  unfold intKind? at h
  split at h
  · exact .inl (congrArg Ty.integer (Option.some.inj h))
  · exact .inr ⟨_, congrArg (Ty.enum _) (Option.some.inj h)⟩
  · cases h

theorem isArithmetic_of_intKind {t : Ty} {k : IntegerKind} (h : intKind? t = some k) :
    t.isArithmetic = true := by
  rcases eq_of_intKind h with rfl | ⟨id, rfl⟩ <;> rfl

theorem castImm_int {srcType dstType : Ty} {src dst : IntegerKind}
    (hsrc : intKind? srcType = some src) (hdst : intKind? dstType = some dst) (imm : Scalar) :
    castImm F srcType dstType imm = .ok (intCast imm src dst) := by
  rcases eq_of_intKind hsrc with rfl | ⟨id, rfl⟩ <;>
    rcases eq_of_intKind hdst with rfl | ⟨id, rfl⟩ <;> rfl

section

variable {R F} {eop : Ast.ExprOperand} {dst : Ty}

theorem canConvertEop_arith (hsrc : eop.type.isArithmetic = true) (hdst : dst.isArithmetic = true)
    (forbid : Bool) : canConvertEop R eop dst forbid = ⟨true, false⟩ := by
  by_cases heq : dst = eop.type
  · simp [canConvertEop, heq]
  · simp [canConvertEop, heq, hsrc, hdst]

theorem canCastEop_arith (hsrc : eop.type.isArithmetic = true) (hdst : dst.isArithmetic = true)
    (forbid : Bool) : canCastEop R eop dst forbid = ⟨true, false⟩ := by
  simp [canCastEop, canConvertEop_arith hsrc hdst]

/-- An integer is cast through the members of the two kinds. -/
theorem castEop_int {src dstKind : IntegerKind} (hsrc : intKind? eop.type = some src)
    (hdst : intKind? dst = some dstKind) (forbid : Bool) :
    castEop R F eop dst forbid = .ok (⟨true, false⟩, { eop with
      type := dst, isLvalue := false
      imm := if eop.isConst then intCast eop.imm src dstKind else eop.imm }) := by
  unfold castEop
  rw [canCastEop_arith (isArithmetic_of_intKind hsrc) (isArithmetic_of_intKind hdst)]
  cases hconst : eop.isConst with
  | false => rfl
  | true =>
    simp only [castImm_int F hsrc hdst]
    rfl

theorem convertEop_int {src dstKind : IntegerKind} (hsrc : intKind? eop.type = some src)
    (hdst : intKind? dst = some dstKind) (forbid : Bool) :
    convertEop R F eop dst forbid = .ok (⟨true, false⟩, { eop with
      type := dst, isLvalue := false
      imm := if eop.isConst then intCast eop.imm src dstKind else eop.imm }) := by
  unfold convertEop
  rw [canConvertEop_arith (isArithmetic_of_intKind hsrc) (isArithmetic_of_intKind hdst),
    castEop_int hsrc hdst]
  rfl

/-- A cast between arithmetic types succeeds. -/
theorem castEop_arith (hsrc : eop.type.isArithmetic = true) (hdst : dst.isArithmetic = true)
    (forbid : Bool) : ∃ imm, castEop R F eop dst forbid =
      .ok (⟨true, false⟩, { eop with type := dst, isLvalue := false, imm }) := by
  have himm : ∃ imm, castImm F eop.type dst eop.imm = .ok imm := by
    revert hsrc hdst
    cases eop.type <;> cases dst <;>
      simp [Ty.isArithmetic, castImm, castIntKind, bind, Except.bind, pure, Except.pure]
  obtain ⟨imm, himm⟩ := himm
  unfold castEop
  rw [canCastEop_arith hsrc hdst]
  cases hconst : eop.isConst with
  | false => exact ⟨eop.imm, rfl⟩
  | true =>
    simp only [himm]
    exact ⟨imm, rfl⟩

end

end

end Nibble.Resolve
