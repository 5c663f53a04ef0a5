import Nibble.Data.ConstExpr

/-!
# The data sections

`X64_data_serialize` appends an initial value to the section's bytes and
records where addresses have to be filled in. `X64_init_data_section` places
all variables, `X64_init_rodata_section` the floating-point and string
literals.
-/

namespace Nibble.Data

open Nibble.IR (SymId)
open Nibble.X64 (ConstAddr)
open Nibble.Ast (TypeAggregateField)
open Nibble.Lib

variable {w : Nat}

/-- `X64_DataReloc`. -/
structure DataReloc (w : Nat) where
  refAddr : DataAddr w
  usageOff : BitVec 32
  deriving DecidableEq, Repr

/-- The bytes of a section and its relocations. -/
structure DataBuf (w : Nat) where
  bytes : List UInt8
  relocs : List (DataReloc w)

namespace DataBuf

variable (b : DataBuf w)

def len : Nat := b.bytes.length

/-- `X64_data_fill_zeros`. -/
def fillZeros (n : Nat) : DataBuf w := { b with bytes := b.bytes ++ List.replicate n 0 }

/-- `X64_data_serialize_int`. -/
def serializeInt (v : BitVec 64) (size : Nat) : DataBuf w :=
  { b with bytes := b.bytes ++ leBytes size v.toNat }

/-- `X64_add_reloc_use`, for an address at the end of the bytes. -/
def addRelocUse (a : DataAddr w) : DataBuf w :=
  { b with relocs := b.relocs ++ [⟨a, BitVec.ofNat 32 b.len⟩] }

end DataBuf

/-- What appends an initial value. -/
abbrev Writer (w : Nat) := DataBuf w → Option (DataBuf w)

/-- The array `init_vals`: what is set last at an index counts. -/
def initVals {α : Type} (initzers : List (Nat × α)) : Nat → Option α :=
  initzers.foldl (fun vals p i => if i = p.1 then some p.2 else vals i) fun _ => none

/-- The loop of `X64_data_serialize_array_init`, for `n` elements from index `i` on. -/
def serializeElems (elemSize : Nat) (vals : Nat → Option (Writer w)) : Nat → Nat → Writer w
  | 0, _, b => some b
  | n + 1, i, b => do
    let b ← match vals i with
      | some f => f b
      | none => some (b.fillZeros elemSize)
    serializeElems elemSize vals n (i + 1) b

/-- The loop of `X64_data_serialize_struct_init`, for the fields from index `i` on. -/
def serializeFields (vals : Nat → Option (Writer w)) :
    List (TypeAggregateField DataType) → Nat → Nat → DataBuf w → Option (Nat × DataBuf w)
  | [], _, offset, b => some (offset, b)
  | f :: fs, i, offset, b => do
    let padding := f.offset.toNat - offset
    let b := b.fillZeros padding
    let b ← match vals i with
      | some g => g b
      | none => some (b.fillZeros f.type.size)
    serializeFields vals fs (i + 1) (offset + padding + f.type.size) b

mutual

/-- `X64_data_serialize`. An element that does not exist would be written behind `init_vals`. -/
def dataSerialize : ConstExpr w → Writer w
  | .none t, b => some (b.fillZeros t.size)
  | .imm t v, b => some (b.serializeInt v t.size)
  | .memAddr t a, b => some ((b.addRelocUse a).fillZeros t.size)
  | .strLit _ _ s, b => some { b with bytes := b.bytes ++ s ++ [0] }
  | .floatLit _ k v, b => some (b.serializeInt v (floatKindSize k))
  | .proc t s, b => some ((b.addRelocUse ⟨.sym s, 0⟩).fillZeros t.size)
  | .arrayInit t initzers, b =>
    match t with
    | .array elem n =>
      if initzers.all fun p => p.1 < n then
        serializeElems elem.size (initVals (writers initzers)) n 0 b
      else none
    | _ => none
  | .structInit t fieldExprs, b =>
    match t with
    | .struct fields size _ => do
      let (offset, b) ← serializeFields (initVals (writers fieldExprs)) fields 0 0 b
      return b.fillZeros (size - offset)
    | _ => none
  | .unionInit t fieldExpr, b =>
    match t with
    | .union fields size _ =>
      match writers fieldExpr with
      | [] => some (b.fillZeros size)
      | (i, g) :: _ => do
        let f ← fields[i]?
        let b ← g b
        return b.fillZeros (size - f.type.size)
    | _ => none
  | .var _ _, _ | .derefAddr _ _, _ => none

def writers : List (Nat × ConstExpr w) → List (Nat × Writer w)
  | [] => []
  | (i, e) :: rest => (i, dataSerialize e) :: writers rest

end

/-- `X64_add_data_item`, with the offset of the item. The bytes fit the memory of the compiler, so
the rounding does not wrap. -/
def addDataItem (e : ConstExpr w) (b : DataBuf w) : Option (Nat × DataBuf w) := do
  let offset := b.len
  let alignPad := alignUp offset e.type.align - offset
  let b ← dataSerialize e (b.fillZeros alignPad)
  return (offset + alignPad, b)

/-- The loop of `X64_init_data_section`, with the offsets in the order of the variables. -/
def addDataItems : List (ConstExpr w) → DataBuf w → Option (List Nat × DataBuf w)
  | [], b => some ([], b)
  | e :: es, b => do
    let (o, b) ← addDataItem e b
    let (os, b) ← addDataItems es b
    return (o :: os, b)

/-- `X64_DataSection`. -/
structure DataSection (w : Nat) where
  buf : List UInt8
  align : Nat
  varOffs : List Nat
  relocs : List (DataReloc w)

/-- `X64_init_data_section`. The alignment of the section is that of the first variable. -/
def initDataSection : List (ConstExpr w) → Option (DataSection w)
  | [] => some ⟨[], 0, [], []⟩
  | e :: es => do
    let (os, b) ← addDataItems (e :: es) ⟨[], []⟩
    return ⟨b.bytes, e.type.align, os, b.relocs⟩

/-- `X64_RODataSection`. -/
structure RODataSection where
  buf : List UInt8
  align : Nat
  floatOffs : List Nat
  strOffs : List Nat

/-- The loop over the string literals. -/
def addStrs : List (List UInt8) → List UInt8 → List Nat × List UInt8
  | [], bytes => ([], bytes)
  | s :: ss, bytes =>
    let (os, bytes') := addStrs ss (bytes ++ s ++ [0])
    (bytes.length :: os, bytes')

/-- The constant of a floating-point literal. -/
def floatItem (f : FloatKind × BitVec 64) : ConstExpr 32 := .floatLit (.float f.1) f.1 f.2

/-- `X64_init_rodata_section`. -/
def initRodataSection (floats : List (FloatKind × BitVec 64)) (strs : List (List UInt8)) :
    Option RODataSection := do
  let (floatOffs, b) ← addDataItems (floats.map floatItem) ⟨[], []⟩
  let (strOffs, bytes) := addStrs strs b.bytes
  return ⟨bytes, 0x10, floatOffs, strOffs⟩

end Nibble.Data
