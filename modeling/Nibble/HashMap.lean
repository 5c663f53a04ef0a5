import Nibble.Lib.Probing
import Nibble.Types

/-!
# Hash maps

The map of `hash_map.c` from integers to integers: a table of a power of two entries with linear
probing, where the key zero marks an empty entry. Before a put that would fill 60% of the table,
its entries are put into one twice as large. The loops and the calls between `hmap_put` and
`hmap_expand` take fuel; `none` is fuel that ran out or a failed assertion.
-/

namespace Nibble

/-- `HMapEntry`. -/
structure HMapEntry where
  key : BitVec 64
  value : BitVec 64
  deriving DecidableEq, Repr

/-- `HMap`. The field `cap` is the number of entries, and `mask` follows from it. -/
structure HMap where
  entries : List HMapEntry
  len : Nat
  deriving DecidableEq, Repr

namespace HMap

def cap (m : HMap) : Nat := m.entries.length

def mask (m : HMap) : BitVec 64 := BitVec.ofNat 64 (m.cap - 1)

/-- A table without entries, as a cleared `HMap` and as `alloc_array` returns them. -/
def zeroed (cap : Nat) : HMap := ⟨List.replicate cap ⟨0, 0⟩, 0⟩

end HMap

/-- `hash_uint64`. -/
def hashUint64 (h : BitVec 64) : BitVec 64 :=
  let h := h ^^^ (h >>> 27)
  let h := h * 0x3C79AC492BA7B653
  let h := h ^^^ (h >>> 33)
  let h := h * 0x1C69B3F74AC4AE35
  h ^^^ (h >>> 27)

/-- The loop of `hmap_put`. -/
def putLoop (key value : BitVec 64) : Nat → BitVec 64 → HMap → Option HMap
  | 0, _, _ => none
  | fuel + 1, i, m =>
    let i := i &&& m.mask
    match m.entries[i.toNat]? with
    | none => none
    | some e =>
      if e.key = 0 then some ⟨m.entries.set i.toNat ⟨key, value⟩, m.len + 1⟩
      else if e.key = key then some ⟨m.entries.set i.toNat ⟨key, value⟩, m.len⟩
      else putLoop key value fuel (i + 1) m

mutual

/-- `hmap_put`; `false` is the null pointer that it returns if there is no memory. `alloc` says
which tables the allocator can provide. -/
def hmapPut (alloc : Nat → Bool) : Nat → HMap → BitVec 64 → BitVec 64 → Option (HMap × Bool)
  | 0, _, _, _ => none
  | fuel + 1, m, key, value =>
    if key = 0 then none
    else do
      let (m, ok) ←
        if 6 * m.cap ≤ 10 * (m.len + 1) then hmapExpand alloc fuel m (m.cap * 2)
        else some (m, true)
      if ok then
        let m ← putLoop key value fuel (hashUint64 key) m
        some (m, true)
      else some (m, false)
termination_by structural fuel => fuel

/-- `hmap_expand`. -/
def hmapExpand (alloc : Nat → Bool) : Nat → HMap → Nat → Option (HMap × Bool)
  | 0, _, _ => none
  | fuel + 1, m, cap =>
    if cap ≤ m.cap then some (m, true)
    else if alloc cap then do
      let m ← m.entries.foldlM
        (fun m e => if e.key = 0 then some m else (hmapPut alloc fuel m e.key e.value).map Prod.fst)
        (HMap.zeroed cap)
      some (m, true)
    else some (m, false)
termination_by structural fuel => fuel

end

/-- `hmap`. The shift is one of an `int`, which is undefined from 31 on. -/
def hmap (alloc : Nat → Bool) (fuel capLog2 : Nat) : Option HMap :=
  if capLog2 < 31 then (hmapExpand alloc fuel (HMap.zeroed 0) (2 ^ capLog2)).map Prod.fst else none

/-- The loop of `hmap_get`. -/
def getLoop (m : HMap) (key : BitVec 64) : Nat → BitVec 64 → Option (Option (BitVec 64))
  | 0, _ => none
  | fuel + 1, i =>
    let i := (i + 1) &&& m.mask
    match m.entries[i.toNat]? with
    | none => none
    | some e =>
      if e.key = key then some (some e.value)
      else if e.key = 0 then some none
      else getLoop m key fuel i

/-- `hmap_get`, with the value its result points to. -/
def hmapGet (fuel : Nat) (m : HMap) (key : BitVec 64) : Option (Option (BitVec 64)) :=
  if key = 0 then none
  else if m.entries = [] then some none
  else
    let i := hashUint64 key &&& m.mask
    match m.entries[i.toNat]? with
    | none => none
    | some e =>
      if e.key = key then some (some e.value)
      else if e.key = 0 then some none
      else getLoop m key fuel i

/-! ## Sequences of operations -/

inductive HMapOp where
  | put (key value : BitVec 64)
  | get (key : BitVec 64)
  deriving DecidableEq, Repr

inductive HMapReply where
  | put (ok : Bool)
  | get (value : Option (BitVec 64))
  deriving DecidableEq, Repr

def HMapOp.key : HMapOp → BitVec 64
  | put key _ => key
  | get key => key

def HMap.exec (alloc : Nat → Bool) (fuel : Nat) (m : HMap) : HMapOp → Option (HMapReply × HMap)
  | .put key value => (hmapPut alloc fuel m key value).map fun (m, ok) => (.put ok, m)
  | .get key => (hmapGet fuel m key).map fun v => (.get v, m)

def HMap.run (alloc : Nat → Bool) (fuel : Nat) :
    List HMapOp → HMap → Option (List HMapReply × HMap)
  | [], m => some ([], m)
  | op :: ops, m => do
    let (r, m) ← m.exec alloc fuel op
    let (rs, m) ← run alloc fuel ops m
    return (r :: rs, m)

end Nibble
