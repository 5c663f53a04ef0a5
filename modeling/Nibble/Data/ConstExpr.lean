import Nibble.X64.Reloc
import Nibble.Ast.Aggregate

/-!
# Initial values of global variables

`IR_build_vars` turns the resolved initializer of a global variable into a
`ConstExpr`: immediates, addresses of global entities with a displacement, and
literals of arrays, structs and unions. The displacement is kept in 32 bits;
its width `w` is a parameter, so that it can be compared with the 64 bits it is
computed in.
-/

namespace Nibble.Data

open Nibble.IR (SymId)
open Nibble.X64 (ConstAddr SymKind)
open Nibble.Ast (TypeAggregateField)

/-- `Type` as far as global data needs it. Enums are integers here, and a pointer is known by the
size of what it points to. -/
inductive DataType where
  | int (size : Nat)
  | float (kind : FloatKind)
  | ptr (baseSize : Nat)
  | proc
  | array (base : DataType) (len : Nat)
  | struct (fields : List (TypeAggregateField DataType)) (size align : Nat)
  | union (fields : List (TypeAggregateField DataType)) (size align : Nat)

namespace DataType

/-- `type->size`. -/
def size : DataType → Nat
  | int n => n
  | float k => floatKindSize k
  | ptr _ | proc => ptrSize
  | array b n => b.size * n
  | struct _ n _ | union _ n _ => n

/-- `type->align`. -/
def align : DataType → Nat
  | int n => n
  | float k => floatKindSize k
  | ptr _ | proc => ptrSize
  | array b _ => b.align
  | struct _ _ n | union _ _ n => n

def isPtr : DataType → Bool
  | ptr _ => true
  | _ => false

def isArray : DataType → Bool
  | array _ _ => true
  | _ => false

end DataType

/-- `ConstAddr`, with `w` bits for its displacement. -/
structure DataAddr (w : Nat) where
  entity : ConstAddr
  disp : BitVec w
  deriving DecidableEq, Repr

/-- `ConstExpr`. The initializers of an array are listed with their indices, those of a struct with
the indices of their fields, and so is the one that a union may have. -/
inductive ConstExpr (w : Nat) where
  | none (type : DataType)
  | imm (type : DataType) (imm : BitVec 64)
  | memAddr (type : DataType) (addr : DataAddr w)
  | derefAddr (type : DataType) (addr : DataAddr w)
  | arrayInit (type : DataType) (initzers : List (Nat × ConstExpr w))
  | structInit (type : DataType) (fieldExprs : List (Nat × ConstExpr w))
  | unionInit (type : DataType) (fieldExpr : List (Nat × ConstExpr w))
  | var (type : DataType) (sym : SymId)
  | proc (type : DataType) (sym : SymId)
  | strLit (type : DataType) (id : Nat) (str : List UInt8)
  | floatLit (type : DataType) (kind : FloatKind) (value : BitVec 64)

def ConstExpr.type {w : Nat} : ConstExpr w → DataType
  | none t | imm t _ | memAddr t _ | derefAddr t _ | arrayInit t _ | structInit t _ | unionInit t _
  | var t _ | proc t _ | strLit t _ _ | floatLit t _ _ => t

/-! ## Resolved initializers -/

/-- `Designator`, its index being a constant expression. -/
inductive Designator where
  | none
  | index (type : DataType) (imm : BitVec 64)
  | name (name : Nat)

/-- A resolved `Expr`, as far as initializers may contain it. An expression with a value known to
the compiler is `imm`, whatever its kind is. -/
inductive GlobalExpr where
  | imm (type : DataType) (imm : BitVec 64)
  | ident (type : DataType) (sym : SymId)
  | cast (type : DataType) (expr : GlobalExpr)
  | addrOf (type : DataType) (expr : GlobalExpr)
  | ternary (cond : Option (BitVec 64)) (thenExpr elseExpr : GlobalExpr)
  | plus (left right : GlobalExpr)
  | minus (left right : GlobalExpr)
  | arrayLit (type : DataType) (typespec : Bool) (initzers : List (Designator × GlobalExpr))
  | structLit (type : DataType) (typespec : Bool) (initzers : List (Designator × GlobalExpr))
  | unionLit (type : DataType) (typespec : Bool) (initzers : List (Designator × GlobalExpr))
  | str (type : DataType) (id : Nat) (str : List UInt8)
  | other (kind : Nat)

section

variable {w : Nat} (symKind : SymId → SymKind)

/-- `IR_const_expr_from_sym`. -/
def constExprFromSym (type : DataType) (sym : SymId) : ConstExpr w :=
  match symKind sym with
  | .var => .var type sym
  | .proc | .foreignProc => .proc type sym

/-- The result of `IR_emit_global_expr_cast`, from an array to a pointer. -/
def emitGlobalExprCast (type : DataType) (src : ConstExpr w) : Option (ConstExpr w) :=
  if src.type.isArray && type.isPtr then
    match src with
    | .var _ s => some (.memAddr type ⟨.sym s, 0⟩)
    | .derefAddr _ a => some (.memAddr type a)
    | .strLit _ id _ => some (.memAddr type ⟨.strLit id, 0⟩)
    | _ => none
  else none

/-- The result of `IR_emit_global_expr_unary`, for the operator `^`. -/
def emitGlobalExprUnary (type : DataType) : ConstExpr w → Option (ConstExpr w)
  | .derefAddr _ a => some (.memAddr type a)
  | .var _ s => some (.memAddr type ⟨.sym s, 0⟩)
  | _ => none

/-- `IR_emit_global_ptr_int_add`. The displacement is computed in 64 bits and stored in `w`. -/
def emitGlobalPtrIntAdd (add : Bool) : ConstExpr w → ConstExpr w → Option (ConstExpr w)
  | .memAddr (.ptr baseSize) a, .imm _ i =>
    let step := BitVec.ofNat 64 baseSize * i
    let disp := a.disp.setWidth 64
    some (.memAddr (.ptr baseSize)
      { a with disp := (if add then disp + step else disp - step).setWidth w })
  | _, _ => none

/-- `get_type_struct_field` and `get_type_union_field`. -/
def getTypeField (fields : List (TypeAggregateField DataType)) (name : Nat) :
    Option (TypeAggregateField DataType) :=
  fields.find? fun f => f.name == some name

/-- The field that an initializer of a struct sets, and the index of the next one. -/
def structField (fields : List (TypeAggregateField DataType)) (fieldIndex : Nat) :
    Designator → Option (Nat × Nat)
  | .name n => (getTypeField fields n).map fun f => (f.index, f.index + 1)
  | .none => (fields[fieldIndex]?).map fun f => (f.index, fieldIndex + 1)
  | .index _ _ => none

/-- The element that an initializer of an array sets. -/
def arrayElem (elemIndex : BitVec 64) : Designator → Option (BitVec 64)
  | .index (.float _) _ | .name _ => none
  | .index _ i => some i
  | .none => some elemIndex

/-- The field that the initializer of a union sets. -/
def unionField (fields : List (TypeAggregateField DataType)) : Designator → Option Nat
  | .name n => (getTypeField fields n).map (·.index)
  | .none => some 0
  | .index _ _ => none

variable (w) in
mutual

/-- `IR_emit_global_expr`. `none` is a failed assertion or a fatal error. -/
def emitGlobalExpr : GlobalExpr → Option (ConstExpr w)
  | .imm (.float k) v => some (.floatLit (.float k) k v)
  | .imm t v => some (.imm t v)
  | .ident t s => some (constExprFromSym symKind t s)
  | .cast t e => do emitGlobalExprCast t (← emitGlobalExpr e)
  | .addrOf t e => do emitGlobalExprUnary t (← emitGlobalExpr e)
  | .ternary cond e₁ e₂ =>
    match cond with
    | none => emitGlobalExpr e₁
    | some c => if c.setWidth 8 ≠ 0 then emitGlobalExpr e₁ else emitGlobalExpr e₂
  | .plus l r => do
    let l ← emitGlobalExpr l
    let r ← emitGlobalExpr r
    if l.type.isPtr then emitGlobalPtrIntAdd true l r else emitGlobalPtrIntAdd true r l
  | .minus l r => do
    let l ← emitGlobalExpr l
    let r ← emitGlobalExpr r
    emitGlobalPtrIntAdd false l r
  | .arrayLit t typespec initzers =>
    if t.isArray && !typespec then (emitArrayInitzers initzers 0).map (.arrayInit t) else none
  | .structLit t typespec initzers =>
    match t with
    | .struct fields _ _ =>
      if typespec then none else (emitStructInitzers fields initzers 0).map (.structInit t)
    | _ => none
  | .unionLit t typespec initzers =>
    match t with
    | .union fields _ _ =>
      if typespec then none else (emitUnionInitzer fields initzers).map (.unionInit t)
    | _ => none
  | .str t id s => some (.strLit t id s)
  | .other _ => none

/-- The loop of `IR_emit_global_expr_array_lit`. -/
def emitArrayInitzers : List (Designator × GlobalExpr) → BitVec 64 →
    Option (List (Nat × ConstExpr w))
  | [], _ => some []
  | (d, e) :: rest, elemIndex => do
    let i ← arrayElem elemIndex d
    let e' ← emitGlobalExpr e
    let rest' ← emitArrayInitzers rest (i + 1)
    return (i.toNat, e') :: rest'

/-- The loop of `IR_emit_global_expr_struct_lit`. -/
def emitStructInitzers (fields : List (TypeAggregateField DataType)) :
    List (Designator × GlobalExpr) → Nat → Option (List (Nat × ConstExpr w))
  | [], _ => some []
  | (d, e) :: rest, fieldIndex => do
    let (i, next) ← structField fields fieldIndex d
    let e' ← emitGlobalExpr e
    let rest' ← emitStructInitzers fields rest next
    return (i, e') :: rest'

/-- The initializer of `IR_emit_global_expr_union_lit`, the first one. -/
def emitUnionInitzer (fields : List (TypeAggregateField DataType)) :
    List (Designator × GlobalExpr) → Option (List (Nat × ConstExpr w))
  | [] => some []
  | (d, e) :: _ => do
    let i ← unionField fields d
    let e' ← emitGlobalExpr e
    return [(i, e')]

end

end

/-- A global variable: its symbol, type and initializer. -/
structure GlobalVar where
  sym : SymId
  type : DataType
  init : Option GlobalExpr

/-- `IR_build_var`. -/
def buildVar (w : Nat) (symKind : SymId → SymKind) (v : GlobalVar) : Option (ConstExpr w) :=
  match v.init with
  | none => some (.none v.type)
  | some e => emitGlobalExpr w symKind e

end Nibble.Data
