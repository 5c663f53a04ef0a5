import Nibble.Lib.Quicksort
import Nibble.Resolve.ConstExpr

/-!
# Enum declarations

`resolve_decl_enum` of `resolver/decls.c`: the values of the items one after another, the items
sorted by value, and the search for a value that is repeated. The value of an item is given by
what `resolve_expr` leaves for it.
-/

namespace Nibble.Resolve

open Nibble.Lib (Fallible)

/-- The symbol of an item, by the position of its declaration. -/
structure EnumSym where
  index : Nat
  imm : Scalar
  deriving DecidableEq, Repr

/-- `cmp_lteq_enum_syms`; the symbols have one type. -/
def cmpLteqEnumSyms (isSigned : Bool) (a b : EnumSym) : Bool :=
  decide (a.imm.view isSigned ≤ b.imm.view isSigned)

/-- `qsort_enum_syms`, which is called no deeper than the fuel says. -/
def qsortEnumSyms (isSigned : Bool) : Nat → Array EnumSym → Int → Int → Option (Array EnumSym) :=
  Lib.Quicksort.quicksort (cmpLteqEnumSyms isSigned)

/-- The loop that looks for neighbours with one value. -/
def repeatedEnumValue : List EnumSym → Bool
  | a :: b :: rest => decide (a.imm = b.imm) || repeatedEnumValue (b :: rest)
  | _ => false

variable (M : Machine)

/-- An item of `resolve_decl_enum` behind the item `prev`. -/
def resolveEnumItem (id : Nat) (base : IntegerKind) (prev : Option Eop) (value : Option Eop) :
    Eval Eop :=
  match value, prev with
  | some value, _ => resolveEnumValue M id base value
  | none, some prev => resolveEnumNext M prev
  | none, none => resolveLiteral (.enumFirst id base)

/-- The loop over the items. -/
def resolveEnumItems (id : Nat) (base : IntegerKind) : Option Eop → List (Option Eop) →
    Eval (List Eop)
  | _, [] => return []
  | prev, value :: values => do
    let item ← resolveEnumItem M id base prev value
    let items ← resolveEnumItems id base (some item) values
    return item :: items

/-- The items sorted, unless a value is repeated. -/
def sortEnumItems (base : IntegerKind) (items : List Eop) : Eval (Array EnumSym) :=
  let syms := (items.zipIdx.map fun (item, index) => EnumSym.mk index item.imm).toArray
  match qsortEnumSyms (intKindSigned base) syms.size syms 0 (syms.size - 1) with
  | none => liftM (Except.error Fault.outOfBounds : Except Fault (Array EnumSym))
  | some sorted => if repeatedEnumValue sorted.toList then failure else return sorted

/-- `resolve_decl_enum`, of a declaration with the type `typespec` if it has one: `items`. -/
def resolveDeclEnum (id : Nat) (typespec : Option Ty) (values : List (Option Eop)) :
    Eval (Array EnumSym) :=
  match typespec.getD (.integer .s32) with
  | .integer base => do
    let items ← resolveEnumItems M id base none values
    sortEnumItems base items
  | _ => failure

end Nibble.Resolve
