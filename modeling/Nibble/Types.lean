import Mathlib.Logic.Basic
import Mathlib.Algebra.Group.Nat.Defs

/-!
# Types of the language

`Type` of `ast/module.h`. The compiler interns types, so two `Type*` are equal
exactly when the types are; here a type is a value and equality is `=`.
Enums, procedures, structs and unions are named by an identity number
(`Type.id`) and carry the size and alignment that their `Type` records.
-/

namespace Nibble

inductive IntegerKind where
  | bool | u8 | s8 | u16 | s16 | u32 | s32 | u64 | s64
  deriving DecidableEq, Repr

inductive FloatKind where
  | f64 | f32
  deriving DecidableEq, Repr

/-- `int_kind_sizes`. -/
def intKindSize : IntegerKind → Nat
  | .bool | .u8 | .s8 => 1
  | .u16 | .s16 => 2
  | .u32 | .s32 => 4
  | .u64 | .s64 => 8

/-- `int_kind_signed`. -/
def intKindSigned : IntegerKind → Bool
  | .s8 | .s16 | .s32 | .s64 => true
  | _ => false

/-- `float_kind_sizes`. -/
def floatKindSize : FloatKind → Nat
  | .f64 => 8
  | .f32 => 4

/-- `PTR_SIZE`. -/
def ptrSize : Nat := 8

inductive Ty where
  | void
  | integer (kind : IntegerKind)
  | float (kind : FloatKind)
  | enum (id : Nat) (base : IntegerKind)
  | ptr (base : Ty)
  | proc (id : Nat)
  | array (base : Ty) (len : Nat)
  | struct (id size align : Nat)
  /-- A struct with `TYPE_STRUCT_IS_SLICE_WRAPPER`, by its element type. -/
  | slice (elem : Ty)
  | union (id size align : Nat)
  | incomplete (id : Nat)
  deriving DecidableEq, Repr

namespace Ty

/-- `type_is_integer_like`. -/
def isIntegerLike : Ty → Bool
  | integer _ | enum _ _ => true
  | _ => false

/-- `type_is_bool`. -/
def isBool : Ty → Bool
  | integer .bool => true
  | _ => false

/-- `type_is_signed`; pointers count as `INTEGER_U64`. -/
def isSigned : Ty → Bool
  | integer k | enum _ k => intKindSigned k
  | _ => false

/-- `type_is_arithmetic`. -/
def isArithmetic : Ty → Bool
  | integer _ | float _ | enum _ _ => true
  | _ => false

/-- `type_is_ptr_like`. -/
def isPtrLike : Ty → Bool
  | ptr _ | proc _ => true
  | _ => false

/-- `type_is_scalar`. -/
def isScalar (t : Ty) : Bool := t.isArithmetic || t.isPtrLike

/-- `type_is_int_scalar`. -/
def isIntScalar (t : Ty) : Bool := t.isIntegerLike || t.isPtrLike

/-- `type_is_aggregate`. -/
def isAggregate : Ty → Bool
  | struct .. | slice _ | union .. => true
  | _ => false

/-- `type_is_slice`. -/
def isSlice : Ty → Bool
  | slice _ => true
  | _ => false

/-- `type_is_obj_like`. -/
def isObjLike : Ty → Bool
  | array _ _ => true
  | t => t.isAggregate

/-- `TYPE_FLOAT`, with its kind. -/
def floatKind? : Ty → Option FloatKind
  | float k => some k
  | _ => none

/-- `type->size`. The size of an array is computed in 64 bits. -/
def size : Ty → Nat
  | integer k | enum _ k => intKindSize k
  | float k => floatKindSize k
  | ptr _ | proc _ => ptrSize
  | array t n => t.size * n % 2 ^ 64
  | struct _ n _ | union _ n _ => n
  | slice _ => 2 * ptrSize
  | void | incomplete _ => 0

/-- `type->align`. -/
def align : Ty → Nat
  | integer k | enum _ k => intKindSize k
  | float k => floatKindSize k
  | ptr _ | proc _ => ptrSize
  | array t _ => t.align
  | struct _ _ n | union _ _ n => n
  | slice _ => ptrSize
  | void | incomplete _ => 0

theorem isScalar_of_isIntScalar {t : Ty} (h : t.isIntScalar = true) : t.isScalar = true := by
  cases t <;> simp_all [isIntScalar, isScalar, isIntegerLike, isArithmetic, isPtrLike]

theorem isIntScalar_of_isBool {t : Ty} (h : t.isBool = true) : t.isIntScalar = true := by
  cases t <;> simp_all [isBool, isIntScalar, isIntegerLike]

theorem eq_of_isBool {t : Ty} (h : t.isBool = true) : t = .integer .bool := by
  unfold isBool at h
  split at h
  · rfl
  · cases h

end Ty

end Nibble
