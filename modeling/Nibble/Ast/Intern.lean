import Nibble.Ast.Aggregate
import Nibble.Lib.Interning

/-!
# Interned types

`type_ptr`, `type_array`, `type_slice`, `type_proc` and `type_anon_aggregate`
of `ast/module.c`. A `Type*` is the place of a record among the allocated ones.
The caches of arrays, procedures and anonymous aggregates are keyed by a hash,
and chain the types of one key; any functions can be the hash functions.
-/

namespace Nibble.Ast

open Nibble.Lib

/-- `Type*`. -/
abbrev TypePtr := Nat

/-- `Identifier*`. -/
abbrev IdentPtr := Nat

abbrev Field := TypeAggregateField TypePtr

/-- The part of `Type` that depends on its kind. `other` is any kind that is not interned. -/
inductive TypeBody where
  | other (kind : Nat)
  | incomplete
  | ptr (base : TypePtr)
  | array (base : TypePtr) (len : BitVec 64)
  | proc (params : List TypePtr) (ret : TypePtr) (isVariadic : Bool)
  | aggregate (kind : AggregateKind) (isSliceWrapper : Bool) (fields : List Field)
  deriving DecidableEq, Repr

/-- `Type`. -/
structure TypeRec where
  body : TypeBody
  size : BitVec 64
  align : BitVec 64
  deriving DecidableEq, Repr

/-- A hash map from keys to values. The latest entry of a key counts. -/
structure HMap (κ V : Type) where
  entries : List (κ × V)

namespace HMap

variable {κ V : Type} [DecidableEq κ]

def empty : HMap κ V := ⟨[]⟩

def get (m : HMap κ V) (k : κ) : Option V := (m.entries.find? fun e => e.1 = k).map (·.2)

def put (m : HMap κ V) (k : κ) (v : V) : HMap κ V := ⟨(k, v) :: m.entries⟩

@[simp] theorem get_empty (k : κ) : (empty : HMap κ V).get k = none := rfl

@[simp] theorem get_put_self (m : HMap κ V) (k : κ) (v : V) : (m.put k v).get k = some v := by
  simp [get, put]

theorem get_put (m : HMap κ V) (k j : κ) (v : V) :
    (m.put k v).get j = if k = j then some v else m.get j := by
  by_cases h : k = j <;> simp [get, put, h]

end HMap

/-- The chain of cached types of each key, the latest first. -/
abbrev Chains := HMap (BitVec 64) (List TypePtr)

/-- `TypeCache`. A type's address is its own key. -/
structure TypeCache where
  ptrs : HMap TypePtr TypePtr
  arrays : Chains
  procs : Chains
  slices : HMap TypePtr TypePtr
  structs : Chains
  unions : Chains

structure TypeState where
  types : List TypeRec
  cache : TypeCache

/-- `hash_ptr`, `hash_mix_uint64`, and `hash_bytes` on pointers to types and to an identifier. -/
structure HashFns where
  ptr : TypePtr → BitVec 64
  mix : BitVec 64 → BitVec 64 → BitVec 64
  types : List TypePtr → BitVec 64 → BitVec 64
  ident : Option IdentPtr → BitVec 64 → BitVec 64

/-- `builtin_types[BUILTIN_TYPE_USIZE]` and the names of the fields of a slice. -/
structure Builtins where
  usize : TypePtr
  length : IdentPtr
  data : IdentPtr

/-- `FNV_INIT`. -/
def fnvInit : BitVec 64 := 0xcbf29ce484222325

namespace TypeState

variable (s : TypeState)

def body (p : TypePtr) : Option TypeBody := (s.types[p]?).map (·.body)

/-- The sizes of the allocated types. -/
def sizes : TypeSizes TypePtr :=
  ⟨fun p => ((s.types[p]?).map (·.size)).getD 0, fun p => ((s.types[p]?).map (·.align)).getD 0⟩

/-- `type_alloc`, with the fields that are filled in. -/
def alloc (t : TypeRec) : TypePtr × TypeState :=
  (s.types.length, { s with types := s.types ++ [t] })

/-- The chain of a key. -/
def chain (m : Chains) (key : BitVec 64) : List TypePtr := (m.get key).getD []

/-! ## Requests -/

/-- `type_ptr`. -/
def typePtr (base : TypePtr) : TypePtr × TypeState :=
  match s.cache.ptrs.get base with
  | some t => (t, s)
  | none =>
    let (t, s) := s.alloc ⟨.ptr base, BitVec.ofNat 64 ptrSize, BitVec.ofNat 64 ptrSize⟩
    (t, { s with cache := { s.cache with ptrs := s.cache.ptrs.put base t } })

/-- The comparison of `type_array`. -/
def isArray (base : TypePtr) (len : BitVec 64) (p : TypePtr) : Bool :=
  match s.body p with
  | some (.array b l) => l = len && b = base
  | _ => false

/-- `type_array`. Key zero fails an assertion of the map. -/
def typeArray (H : HashFns) (base : TypePtr) (len : BitVec 64) : Option (TypePtr × TypeState) :=
  let key := H.mix (H.ptr base) len
  let cached := chain s.cache.arrays key
  if key = 0 then none
  else
    match cached.find? (s.isArray base len) with
    | some t => some (t, s)
    | none => do
      let baseRec ← s.types[base]?
      let (t, s) := s.alloc ⟨.array base len, baseRec.size * len, baseRec.align⟩
      return (t, { s with cache :=
        { s.cache with arrays := s.cache.arrays.put key (t :: cached) } })

/-- The comparison of `type_proc`. -/
def isProc (params : List TypePtr) (ret : TypePtr) (isVariadic : Bool) (p : TypePtr) : Bool :=
  match s.body p with
  | some (.proc ps r v) => v = isVariadic && ps.length = params.length && r = ret && ps = params
  | _ => false

/-- The key of `type_proc`. -/
def procKey (H : HashFns) (params : List TypePtr) (ret : TypePtr) (isVariadic : Bool) : BitVec 64 :=
  H.mix (H.mix (H.types params fnvInit) (H.ptr ret)) (if isVariadic then 1 else 0)

/-- `type_proc`. -/
def typeProc (H : HashFns) (params : List TypePtr) (ret : TypePtr) (isVariadic : Bool) :
    Option (TypePtr × TypeState) :=
  let key := procKey H params ret isVariadic
  let cached := chain s.cache.procs key
  if key = 0 then none
  else
    match cached.find? (s.isProc params ret isVariadic) with
    | some t => some (t, s)
    | none =>
      let (t, s) := s.alloc ⟨.proc params ret isVariadic, BitVec.ofNat 64 ptrSize,
        BitVec.ofNat 64 ptrSize⟩
      some (t, { s with cache := { s.cache with procs := s.cache.procs.put key (t :: cached) } })

/-- The types and names of fields. -/
def sigs (fields : List Field) : List (TypePtr × Option IdentPtr) :=
  fields.map fun f => (f.type, f.name)

/-- The comparison of `type_anon_aggregate`, which looks at the fields only. -/
def isAnon (fields : List Field) (p : TypePtr) : Bool :=
  match s.body p with
  | some (.aggregate _ _ fs) => fs.length = fields.length && sigs fs = sigs fields
  | _ => false

/-- `hash_aggregate_fields`. -/
def hashAggregateFields (H : HashFns) (fields : List Field) : BitVec 64 :=
  fields.foldl (fun h f => H.ident f.name (H.types [f.type] h)) fnvInit

/-- Completion of an allocated type. -/
def complete (p : TypePtr) (isSliceWrapper : Bool) (t : Aggregate TypePtr) : TypeState :=
  { s with types := s.types.set p ⟨.aggregate t.kind isSliceWrapper t.fields, t.size, t.align⟩ }

/-- The cache for anonymous structs, and the one for anonymous unions. -/
def anonCache : AggregateKind → Chains
  | .struct => s.cache.structs
  | .union => s.cache.unions

def setAnonCache (m : Chains) : AggregateKind → TypeState
  | .struct => { s with cache := { s.cache with structs := m } }
  | .union => { s with cache := { s.cache with unions := m } }

def completeType (M : TypeSizes TypePtr) (fields : List Field) :
    AggregateKind → Aggregate TypePtr
  | .struct => completeStructType M fields
  | .union => completeUnionType M fields

/-- `type_anon_aggregate` with the cache of the kind. The parser accepts no empty aggregate, whose
hash would read behind the fields. -/
def typeAnonAggregate (H : HashFns) (kind : AggregateKind) (fields : List Field) :
    Option (TypePtr × TypeState) :=
  let key := hashAggregateFields H fields
  let cached := chain (s.anonCache kind) key
  if fields = [] ∨ key = 0 then none
  else
    match cached.find? (s.isAnon fields) with
    | some t => some (t, s)
    | none =>
      if fields.all fun f => f.type < s.types.length then
        let (t, s) := s.alloc ⟨.incomplete, 0, 0⟩
        let s := s.complete t false (completeType s.sizes fields kind)
        some (t, s.setAnonCache ((s.anonCache kind).put key (t :: cached)) kind)
      else none

/-- `type_slice`. -/
def typeSlice (B : Builtins) (elem : TypePtr) : Option (TypePtr × TypeState) :=
  match s.cache.slices.get elem with
  | some t => some (t, s)
  | none =>
    let (t, s) := s.alloc ⟨.incomplete, 0, 0⟩
    let (data, s) := s.typePtr elem
    let fields : List Field := [⟨B.usize, some B.length, 0, 0⟩, ⟨data, some B.data, 0, 0⟩]
    if B.usize < t then
      let s := s.complete t true (completeStructType s.sizes fields)
      some (t, { s with cache := { s.cache with slices := s.cache.slices.put elem t } })
    else none

end TypeState

/-- A request for a type. The fields of an aggregate are their types and names. -/
inductive TypeRequest where
  | ptr (base : TypePtr)
  | array (base : TypePtr) (len : BitVec 64)
  | slice (elem : TypePtr)
  | proc (params : List TypePtr) (ret : TypePtr) (isVariadic : Bool)
  | anon (kind : AggregateKind) (fields : List (TypePtr × Option IdentPtr))
  deriving DecidableEq, Repr

/-- `TypeAggregateField` as the resolver passes it. -/
def toFields (sigs : List (TypePtr × Option IdentPtr)) : List Field :=
  sigs.map fun (t, n) => ⟨t, n, 0, 0⟩

/-- The function that a request calls. -/
def TypeRequest.request (H : HashFns) (B : Builtins) (r : TypeRequest) (s : TypeState) :
    Option (TypePtr × TypeState) :=
  match r with
  | ptr base => some (s.typePtr base)
  | array base len => s.typeArray H base len
  | slice elem => s.typeSlice B elem
  | proc params ret isVariadic => s.typeProc H params ret isVariadic
  | anon kind fields => s.typeAnonAggregate H kind (toFields fields)

end Nibble.Ast
