import Nibble.Lib.Script
import Nibble.Resolve.Arith

/-!
# Folding of operators

The operators of `resolver/exprs.c`: what each leaves for operands that are
constants, and where it stops. An operand that is a constant expression need not be
an immediate: the address of a global has no value before the program is linked.
Failure is an error that the resolver reports.
-/

namespace Nibble.Resolve

open Nibble.Lib (Fallible)
open Nibble.Front (TokenKind)

abbrev Eop := Ast.ExprOperand

/-- A computation of the resolver. -/
abbrev Eval := Fallible Fault

/-- The operations on floats, on the bits of their operands. -/
structure FloatOps where
  unary : FloatKind → TokenKind → BitVec 64 → BitVec 64
  binary : FloatKind → TokenKind → BitVec 64 → BitVec 64 → BitVec 64
  logical : FloatKind → TokenKind → BitVec 64 → BitVec 64 → Bool

/-- What the evaluation takes from the processor, and from the declarations of the program:
`completes` is `try_complete_aggregate_type`. -/
structure Machine where
  rels : TypeRels
  conv : FloatConv
  undef : Undefined
  floats : FloatOps
  completes : Ty → Bool

/-- A machine for integers, on which every type is complete. -/
def Machine.plain : Machine :=
  ⟨.plain, .unused, ⟨fun _ _ => 0, fun _ _ _ => 0⟩,
    ⟨fun _ _ _ => 0, fun _ _ _ _ => 0, fun _ _ _ _ => true⟩, fun _ => true⟩

/-- `OP_FROM_CONST`. -/
def opFromConst (type : Ty) (imm : Scalar) : Eop := ⟨type, true, false, true, imm⟩

/-- The operand of a value that is not known. -/
def notConst (type : Ty) : Eop := ⟨type, false, false, false, 0⟩

/-- The operand of a truth value: `_bool` of a cleared scalar. -/
def boolConst (b : Bool) : Eop :=
  opFromConst (.integer .bool) (Scalar.write 0 .bool (if b then 1 else 0))

/-- `s64` or `u64`, in which a constant is computed. -/
def wideType (isSigned : Bool) : Ty := .integer (if isSigned then .s64 else .u64)

/-- `_f64` or `_f32`. -/
def floatBits (k : FloatKind) (s : Scalar) : BitVec 64 :=
  (s.setWidth (8 * floatKindSize k)).setWidth 64

/-- A cleared scalar with `_f64` or `_f32` set. -/
def floatScalar (k : FloatKind) (v : BitVec 64) : Scalar := Scalar.setLow 0 (8 * floatKindSize k) v

variable (M : Machine)

/-! ## Evaluation -/

/-- `eval_unary_op_f64` and `eval_unary_op_f32`. -/
def evalUnaryOpFloat (k : FloatKind) (op : TokenKind) (val : BitVec 64) :
    Except Fault (BitVec 64) :=
  match op with
  | .plus | .minus => .ok (M.floats.unary k op val)
  | _ => .error .fatalExit

/-- `eval_binary_op_f64` and `eval_binary_op_f32`. -/
def evalBinaryOpFloat (k : FloatKind) (op : TokenKind) (left right : BitVec 64) :
    Except Fault (BitVec 64) :=
  match op with
  | .plus | .minus | .asterisk | .div => .ok (M.floats.binary k op left right)
  | _ => .error .fatalExit

/-- `eval_binary_logical_op_f64` and `eval_binary_logical_op_f32`. -/
def evalBinaryLogicalOpFloat (k : FloatKind) (op : TokenKind) (left right : BitVec 64) :
    Except Fault Bool :=
  match op with
  | .logicAnd | .logicOr | .eq | .noteq | .gt | .gteq | .lt | .lteq =>
    .ok (M.floats.logical k op left right)
  | _ => .error .fatalExit

/-- `eval_binary_op`. -/
def evalBinaryOp (op : TokenKind) (type : Ty) (left right : Scalar) : Except Fault Eop :=
  if type.isIntegerLike then do
    let leftEop ← castTo M.rels M.conv (opFromConst type left) (wideType type.isSigned)
    let rightEop ← castTo M.rels M.conv (opFromConst type right) (wideType type.isSigned)
    let r ← evalBinaryOp64bit M.undef op type.isSigned leftEop.imm rightEop.imm
    castTo M.rels M.conv (opFromConst (wideType type.isSigned) r) type
  else
    match type with
    | .float k => do
      let r ← evalBinaryOpFloat M k op (floatBits k left) (floatBits k right)
      return opFromConst type (floatScalar k r)
    | _ => .error .assertion

/-- `eval_binary_logical_op`. -/
def evalBinaryLogical (op : TokenKind) (type : Ty) (left right : Scalar) : Except Fault Eop :=
  if type.isIntegerLike then do
    let leftEop ← castTo M.rels M.conv (opFromConst type left) (wideType type.isSigned)
    let rightEop ← castTo M.rels M.conv (opFromConst type right) (wideType type.isSigned)
    let result ← evalBinaryLogicalOp64bit op type.isSigned leftEop.imm rightEop.imm
    return boolConst result
  else
    match type with
    | .float k => do
      let result ← evalBinaryLogicalOpFloat M k op (floatBits k left) (floatBits k right)
      return boolConst result
    | _ => .error .assertion

/-- `eval_unary_op`. -/
def evalUnaryOp (op : TokenKind) (type : Ty) (val : Scalar) : Except Fault Eop :=
  if type.isIntegerLike then do
    let valEop ← castTo M.rels M.conv (opFromConst type val) (wideType type.isSigned)
    let r ← evalUnaryOp64bit op valEop.imm
    castTo M.rels M.conv (opFromConst (wideType type.isSigned) r) type
  else
    match type with
    | .float k => do
      let r ← evalUnaryOpFloat M k op (floatBits k val)
      return opFromConst type (floatScalar k r)
    | _ => .error .assertion

/-- `eval_unary_not`. -/
def evalUnaryNot (type : Ty) (val : Scalar) : Except Fault Eop :=
  if type.isIntegerLike then do
    let valEop ← castTo M.rels M.conv (opFromConst type val) (wideType type.isSigned)
    return boolConst (valEop.imm = 0)
  else
    match type with
    | .float k => .ok (boolConst (M.conv.isZero k val))
    | _ => .error .assertion

/-! ## Binary operators -/

/-- What the resolver leaves of a binary expression: the result, and the operands after their
conversions. -/
abbrev Operands := Eop × Eop × Eop

/-- The common course of `resolve_binary_eop` and `resolve_binary_logical_eop`. -/
def foldConstexprs (eval : Ty → Scalar → Scalar → Except Fault Eop) (unknown : Ty → Ty)
    (left right : Eop) : Except Fault Operands := do
  let (type, left, right) ← convertArithEops M.rels M.conv left right
  if left.isConstexpr && right.isConstexpr then
    if left.isImm && right.isImm then
      let dst ← eval type left.imm right.imm
      return (dst, left, right)
    else .error .assertion
  else return (notConst (unknown type), left, right)

/-- `resolve_binary_eop`. -/
def resolveBinaryEop (op : TokenKind) : Eop → Eop → Except Fault Operands :=
  foldConstexprs M (evalBinaryOp M op) id

/-- `resolve_binary_logical_eop`. -/
def resolveBinaryLogicalEop (op : TokenKind) : Eop → Eop → Except Fault Operands :=
  foldConstexprs M (evalBinaryLogical M op) fun _ => .integer .bool

/-- A pointer and an integer: `resolve_ptr_int_arith` with the base type completed. -/
def resolvePtrInt (base : Ty) (ptr intEop : Eop) : Eval Operands :=
  if M.completes base then OptionT.mk (.ok (Ast.resolvePtrIntArith ptr intEop)) else failure

/-- The case `ptr - ptr`. -/
def resolvePtrPtr (leftBase rightBase : Ty) (left right : Eop) : Eval Operands :=
  if !(M.completes leftBase && M.completes rightBase) then failure
  else
    let (l, r) := Ast.diffBases leftBase rightBase
    if l ≠ r then failure
    else
      let left' : Eop := { left with type := .ptr l }
      let right' : Eop := { right with type := .ptr r }
      if left.isConst && right.isConst then
        match Ast.clp2 (BitVec.ofNat 64 leftBase.size) with
        | none => liftM (Except.error (α := Operands) Fault.endless)
        | some baseSizeLog2 =>
          pure (opFromConst (.integer .s64) ((left.imm - right.imm) >>> baseSizeLog2), left', right')
      else
        pure (⟨.integer .s64, left.isConstexpr && right.isConstexpr, false, false, 0⟩, left', right')

/-- `common_ptr_type`. -/
def commonPtrType (t u : Ty) : Option Ty :=
  if M.rels.compatible t u then some t
  else if M.rels.derived t u then some t
  else if M.rels.derived u t then some u
  else if t = .ptr .void then some u
  else if u = .ptr .void then some t
  else none

/-- The comparisons. -/
def resolveComparison (op : TokenKind) (left right : Eop) : Eval Operands :=
  if left.type.isArithmetic && right.type.isArithmetic then
    liftM (resolveBinaryLogicalEop M op left right)
  else
    match left.type, right.type with
    | .ptr _, .ptr _ =>
      match commonPtrType M left.type right.type with
      | none => failure
      | some commonType => do
        let left' : Eop := { left with type := commonType }
        let right' : Eop := { right with type := commonType }
        if left.isConst && right.isConst then
          let result ← liftM (evalBinaryLogicalOpU64 op left.imm right.imm)
          return (boolConst result, left', right')
        else return (notConst (.integer .bool), left', right')
    | _, _ => failure

/-- `convert_eop`, where a conversion that is not possible is reported. -/
def convertOrReport (eop : Eop) (dstType : Ty) (forbidRvalueDecay : Bool) : Eval Eop := do
  let (r, eop) ← liftM (convertEop M.rels M.conv eop dstType forbidRvalueDecay)
  if r.success then return eop else failure

def isPtr : Ty → Bool
  | .ptr _ => true
  | _ => false

/-- `&&` and `||`. -/
def resolveLogical (op : TokenKind) (left right : Eop) : Eval Operands := do
  let left ← convertOrReport M left (.integer .bool) false
  let right ← convertOrReport M right (.integer .bool) false
  if left.isConst && right.isConst then
    let result ← liftM (evalBinaryLogicalOpU64 op (Scalar.read left.imm .bool)
      (Scalar.read right.imm .bool))
    return (boolConst result, left, right)
  else if left.isConstexpr && isPtr left.type && (right.isConstexpr && isPtr right.type) then
    return (boolConst true, left, right)
  else return (notConst (.integer .bool), left, right)

/-- `<<` and `>>`. The count is folded as a number of the type of the left operand. -/
def resolveShift (op : TokenKind) (left right : Eop) : Eval Operands :=
  match left.type, right.type with
  | .integer _, .integer _ =>
    if left.isConstexpr && right.isConstexpr then
      if left.isImm && right.isImm then do
        let dst ← liftM (evalBinaryOp M op left.type left.imm right.imm)
        return (dst, left, right)
      else liftM (Except.error (α := Operands) Fault.assertion)
    else return (notConst left.type, left, right)
  | _, _ => failure

/-- `/%`, whose result is an array of the quotient and the remainder. -/
def resolveDivmod (left right : Eop) : Eval Operands :=
  if !(left.type.isIntegerLike && right.type.isIntegerLike) then failure
  else do
    let (type, left, right) ← liftM (convertArithEops M.rels M.conv left right)
    return (⟨.array type 2, left.isConstexpr && right.isConstexpr, false, false, 0⟩, left, right)

/-- The `switch` of `resolve_expr_binary`. -/
def resolveBinary (op : TokenKind) (left right : Eop) : Eval Operands :=
  match op with
  | .plus =>
    if left.type.isArithmetic && right.type.isArithmetic then
      liftM (resolveBinaryEop M .plus left right)
    else
      match left.type, right.type with
      | .ptr base, _ =>
        if right.type.isIntegerLike then resolvePtrInt M base left right else failure
      | _, .ptr base =>
        if left.type.isIntegerLike then do
          let (dst, right, left) ← resolvePtrInt M base right left
          return (dst, left, right)
        else failure
      | _, _ => failure
  | .minus =>
    if left.type.isArithmetic && right.type.isArithmetic then
      liftM (resolveBinaryEop M .minus left right)
    else
      match left.type, right.type with
      | .ptr leftBase, .ptr rightBase => resolvePtrPtr M leftBase rightBase left right
      | .ptr base, _ =>
        if right.type.isIntegerLike then resolvePtrInt M base left right else failure
      | _, _ => failure
  | .div | .asterisk =>
    if !(left.type.isArithmetic && right.type.isArithmetic) then failure
    else liftM (resolveBinaryEop M op left right)
  | .mod | .and | .or | .caret =>
    if !(left.type.isIntegerLike && right.type.isIntegerLike) then failure
    else liftM (resolveBinaryEop M op left right)
  | .divmod => resolveDivmod M left right
  | .rshift | .lshift => resolveShift M op left right
  | .eq | .noteq | .gt | .gteq | .lt | .lteq => resolveComparison M op left right
  | .logicAnd | .logicOr => resolveLogical M op left right
  | _ => failure

/-- `try_wrap_cast_expr`: the type, the flags and the immediate of the expression that it leaves. -/
def tryWrapCast (eop expr : Eop) : Except Fault Eop :=
  if expr.type ≠ eop.type then
    if expr.isConst then
      if expr.type.isScalar && eop.isConstexpr then .ok eop else .error .assertion
    else .ok { eop with imm := 0 }
  else .ok { eop with imm := expr.imm }

/-- `resolve_expr_binary` on operands that are resolved: the result, and the operands as the
expression keeps them. -/
def resolveExprBinary (op : TokenKind) (left right : Eop) : Eval Operands := do
  let (dst, left', right') ← resolveBinary M op left right
  let left' ← liftM (tryWrapCast left' left)
  let right' ← liftM (tryWrapCast right' right)
  return (dst, left', right')

/-! ## Unary operators, conditionals and casts -/

/-- `resolve_unary_eop`. -/
def resolveUnaryEop (op : TokenKind) (src : Eop) : Except Fault (Eop × Eop) := do
  let src ← promoteIntEops M.rels M.conv src
  if src.isConst then
    let dst ← evalUnaryOp M op src.type src.imm
    return (dst, src)
  else return (notConst src.type, src)

/-- `eop_array_decay` and `eop_array_slice_decay`. -/
def decay (eop : Eop) : Eop :=
  match eop.type with
  | .array base _ | .slice base => { eop with type := .ptr base, isLvalue := false }
  | _ => eop

/-- The `switch` of `resolve_expr_unary`, without the address operator. -/
def resolveUnary (op : TokenKind) (src : Eop) : Eval (Eop × Eop) :=
  match op with
  | .plus | .minus =>
    if src.type.isArithmetic then liftM (resolveUnaryEop M op src) else failure
  | .neg => if src.type.isIntegerLike then liftM (resolveUnaryEop M op src) else failure
  | .not =>
    if !src.type.isScalar then failure
    else if src.isConst then do
      let dst ← liftM (evalUnaryNot M src.type src.imm)
      return (dst, src)
    else return (⟨.integer .bool, src.isConstexpr, false, false, 0⟩, src)
  | .asterisk =>
    match (decay src).type with
    | .ptr base => return (⟨base, false, true, false, 0⟩, decay src)
    | _ => failure
  | _ => failure

/-- `resolve_expr_unary` on an operand that is resolved. -/
def resolveExprUnary (op : TokenKind) (src : Eop) : Eval Eop := do
  let (dst, src') ← resolveUnary M op src
  let _ ← liftM (tryWrapCast src' src)
  return dst

/-- The address operator. `isGlobal` tells that the operand names a symbol that is not local. -/
def resolveAddressOf (isGlobal : Bool) (src : Eop) : Eval Eop :=
  if src.isLvalue then return ⟨.ptr src.type, isGlobal, false, false, 0⟩ else failure

/-- The operands of a conditional, taken to one type. -/
def convertBranches (thenOp elseOp : Eop) : Eval (Ty × Eop × Eop) :=
  if thenOp.type.isArithmetic && elseOp.type.isArithmetic then
    liftM (convertArithEops M.rels M.conv thenOp elseOp)
  else
    match thenOp.type, elseOp.type with
    | .ptr _, .ptr _ =>
      match commonPtrType M thenOp.type elseOp.type with
      | none => failure
      | some commonType =>
        return (commonType, { thenOp with type := commonType }, { elseOp with type := commonType })
    | _, _ => if thenOp.type = elseOp.type then return (thenOp.type, thenOp, elseOp) else failure

/-- `resolve_expr_ternary` behind the conversion of the condition, from `cond` to `condOp`: the
result, and the condition as the expression keeps it. -/
def resolveExprTernary (cond condOp thenExpr elseExpr : Eop) : Eval (Eop × Eop) := do
  let (type, thenOp, elseOp) ← convertBranches M thenExpr elseExpr
  let cond' ← liftM (tryWrapCast condOp cond)
  let _ ← liftM (tryWrapCast thenOp thenExpr)
  let _ ← liftM (tryWrapCast elseOp elseExpr)
  if condOp.isConstexpr && (thenOp.isConst && elseOp.isConst) then
    let taken := !condOp.isImm || decide (Scalar.read condOp.imm .bool ≠ 0)
    return (opFromConst type (if taken then thenOp.imm else elseOp.imm), cond')
  else
    let isConstexpr := condOp.isConstexpr && (thenOp.isConstexpr && elseOp.isConstexpr)
    return (⟨type, isConstexpr, false, false, 0⟩, cond')

/-- `resolve_expr_cast` on an operand that is resolved. -/
def resolveExprCast (castType : Ty) (src : Eop) : Eval Eop := do
  let (r, src) ← liftM (castEop M.rels M.conv src castType false)
  if !r.success then failure
  else if castType = src.type && !src.isLvalue then return src
  else liftM (Except.error (α := Eop) Fault.assertion)

/-- `resolve_expr_bit_cast` on an operand that is resolved. -/
def resolveExprBitCast (castType : Ty) (src : Eop) : Eval Eop :=
  if src.type.size ≠ castType.size || (src.isLvalue && decide (src.type.align ≠ castType.align)) then
    failure
  else if src.isImm && castType.isObjLike then failure
  else return { src with type := castType }

end Nibble.Resolve
