import Nibble.Ast.Aggregate
import Nibble.Resolve.Fold

/-!
# Types that are written

`resolve_typespec` of `resolver/typespecs.c` for arrays, structs and unions, with `type_array` of
`ast/module.c` and the array types that expressions have. Sizes and lengths are a `size_t`. The
length of an array is given by what `resolve_expr` leaves for it.
-/

namespace Nibble.Resolve

open Nibble.Ast (AggregateKind TypeAggregateField tySizes completeStructType completeUnionType)

/-- A type that is no array, and no struct or union other than a slice. -/
def isPlain : Ty → Bool
  | .void | .integer _ | .float _ | .enum _ _ | .ptr _ | .proc _ | .slice _ => true
  | .array _ _ | .struct .. | .union .. | .incomplete _ => false

/-- What stands between the brackets of an array: nothing, `infer_len`, or a length. -/
inductive ArrayLen where
  | slice
  | infer
  | len (expr : Eop)

mutual

inductive TypeSpec where
  | plain (type : {t : Ty // isPlain t = true})
  | array (base : TypeSpec) (len : ArrayLen)
  /-- `#typeof` of a string of so many characters. -/
  | strLit (len : Nat)
  /-- `#typeof` of another expression that has an array type, such as an initializer. -/
  | inferred (base : TypeSpec) (len : BitVec 64)
  | aggregate (kind : AggregateKind) (id : Nat) (fields : FieldSpecs)

inductive FieldSpecs where
  | nil
  | cons (name : Option Nat) (typespec : TypeSpec) (rest : FieldSpecs)

end

/-- `type_array` -/
def typeArray (base : Ty) (len : BitVec 64) : Ty := .array base len.toNat

/-- `type_has_incomplete_array` -/
def typeHasIncompleteArray : Ty → Bool
  | .array base len => decide (len = 0) || typeHasIncompleteArray base
  | .ptr base => typeHasIncompleteArray base
  | _ => false

/-- `complete_struct_type` or `complete_union_type`, of a type with the number `id`. -/
def completeAggregateType (kind : AggregateKind) (id : Nat)
    (fields : List (TypeAggregateField Ty)) : Ty :=
  match kind with
  | .struct =>
    let t := completeStructType tySizes fields
    .struct id t.size.toNat t.align.toNat
  | .union =>
    let t := completeUnionType tySizes fields
    .union id t.size.toNat t.align.toNat

/-- `resolve_typespec` of an array, behind its element type. -/
def resolveArray (base : Ty) (len : ArrayLen) : Option Ty :=
  if base.size = 0 then none
  else
    match len with
    | .slice => some (.slice base)
    | .infer => some (typeArray base 0)
    | .len expr =>
      if !(expr.isConstexpr && expr.isImm) then none
      else
        match expr.type with
        | .integer _ => if expr.imm = 0 then none else some (typeArray base expr.imm)
        | _ => none

mutual

/-- `resolve_typespec`; `none` is an error that is reported, or the assertion that the type of a
field could be resolved. -/
def resolveTypespec : TypeSpec → Option Ty
  | .plain type => some type
  | .array base len => do
    let base ← resolveTypespec base
    resolveArray base len
  | .strLit len => some (typeArray (.integer .s8) (BitVec.ofNat 64 (len + 1)))
  | .inferred base len => do
    let base ← resolveTypespec base
    some (typeArray base len)
  | .aggregate kind id fields => do
    let fields ← resolveAggregateFields [] fields
    some (completeAggregateType kind id fields)

/-- `resolve_aggregate_fields`, behind fields with the names `seen`. -/
def resolveAggregateFields (seen : List Nat) :
    FieldSpecs → Option (List (TypeAggregateField Ty))
  | .nil => some []
  | .cons name typespec rest =>
    if name.any (· ∈ seen) then none
    else do
      let type ← resolveTypespec typespec
      if typeHasIncompleteArray type || decide (type.size = 0) then none
      else
        let rest ← resolveAggregateFields (name.toList ++ seen) rest
        some (⟨type, name, 0, 0⟩ :: rest)

end

end Nibble.Resolve
