import Nibble.Types
import Nibble.Lib.Layout

/-!
# Layout of structs and unions

`complete_struct_type` and `complete_union_type` of `ast/module.c`. Sizes and
offsets are `size_t`, so they are computed modulo `2 ^ 64`: the layout is the
serial placement of the fields exactly if that ends within 64 bits.
-/

namespace Nibble.Ast

open Nibble.Lib

/-- `type->size` and `type->align` of the types, however these are given. -/
structure TypeSizes (τ : Type) where
  size : τ → BitVec 64
  align : τ → BitVec 64

/-- Types as values. -/
def tySizes : TypeSizes Ty := ⟨fun t => BitVec.ofNat 64 t.size, fun t => BitVec.ofNat 64 t.align⟩

/-- `TypeAggregateField`. The name is an interned identifier, none for an anonymous field. -/
structure TypeAggregateField (τ : Type) where
  type : τ
  name : Option Nat
  offset : BitVec 64
  index : Nat
  deriving DecidableEq, Repr

inductive AggregateKind where
  | struct | union
  deriving DecidableEq, Repr

/-- What completion fills in: `kind`, `size`, `align` and the body. -/
structure Aggregate (τ : Type) where
  kind : AggregateKind
  size : BitVec 64
  align : BitVec 64
  fields : List (TypeAggregateField τ)
  deriving DecidableEq, Repr

section

variable {τ : Type} (M : TypeSizes τ)

/-- The loop of `complete_struct_type` over the fields from index `i` on. -/
def placeFields : List (TypeAggregateField τ) → Nat → BitVec 64 → BitVec 64 →
    List (TypeAggregateField τ) × BitVec 64 × BitVec 64
  | [], _, size, align => ([], size, align)
  | f :: fs, i, size, align =>
    let offset := alignUpMask size (M.align f.type)
    let (fs', size', align') := placeFields fs (i + 1) (offset + M.size f.type)
      (if align < M.align f.type then M.align f.type else align)
    ({ f with offset := offset, index := i } :: fs', size', align')

def completeStructType (fields : List (TypeAggregateField τ)) : Aggregate τ :=
  let (fields, size, align) := placeFields M fields 0 0 0
  ⟨.struct, alignUpMask size align, align, fields⟩

/-- The loop of `complete_union_type`. -/
def overlayFields : List (TypeAggregateField τ) → Nat → BitVec 64 → BitVec 64 →
    List (TypeAggregateField τ) × BitVec 64 × BitVec 64
  | [], _, size, align => ([], size, align)
  | f :: fs, i, size, align =>
    let (fs', size', align') := overlayFields fs (i + 1)
      (if size < M.size f.type then M.size f.type else size)
      (if align < M.align f.type then M.align f.type else align)
    ({ f with offset := 0, index := i } :: fs', size', align')

def completeUnionType (fields : List (TypeAggregateField τ)) : Aggregate τ :=
  let (fields, size, align) := overlayFields M fields 0 0 0
  ⟨.union, alignUpMask size align, align, fields⟩

/-! ## The laws -/

/-- A field as something to place. -/
def TypeAggregateField.item (f : TypeAggregateField τ) : Item :=
  ⟨(M.size f.type).toNat, (M.align f.type).toNat⟩

def items (fields : List (TypeAggregateField τ)) : List Item :=
  fields.map (TypeAggregateField.item M)

def maxAlign (is : List Item) : Nat := (is.map Item.align).foldr max 0
def maxSize (is : List Item) : Nat := (is.map Item.size).foldr max 0

/-- The field `f` was given the place `g`. -/
def TypeAggregateField.SameField (f g : TypeAggregateField τ) : Prop :=
  g.type = f.type ∧ g.name = f.name

/-- Offsets in declaration order, each aligned, with disjoint ranges within `size`, and a size that
is a multiple of the alignment. -/
structure FieldsLaid (is : List Item) (offsets : List Nat) (size align : Nat) : Prop where
  length_eq : offsets.length = is.length
  aligned : ∀ (k : Nat) (i : Item) (o : Nat), is[k]? = some i → offsets[k]? = some o → i.align ∣ o
  inside : ∀ (k : Nat) (i : Item) (o : Nat), is[k]? = some i → offsets[k]? = some o →
    o + i.size ≤ size
  ordered : ∀ (j k : Nat) (i : Item) (oj ok : Nat), j < k → is[j]? = some i → offsets[j]? = some oj →
    offsets[k]? = some ok → oj + i.size ≤ ok
  dvd_size : align ∣ size

/-- The offsets that a completed aggregate records. -/
def Aggregate.offsets (t : Aggregate τ) : List Nat := t.fields.map (·.offset.toNat)

/-- The fields are those declared, numbered in order. -/
def Aggregate.Declares (t : Aggregate τ) (fields : List (TypeAggregateField τ)) : Prop :=
  List.Forall₂ TypeAggregateField.SameField fields t.fields ∧
    t.fields.map (·.index) = List.range fields.length

structure StructLaws (fields : List (TypeAggregateField τ)) (t : Aggregate τ) : Prop where
  declares : t.Declares fields
  laid : FieldsLaid (items M fields) t.offsets t.size.toNat t.align.toNat
  align_eq : t.align.toNat = maxAlign (items M fields)
  least : ∀ offsets size, FieldsLaid (items M fields) offsets size t.align.toNat →
    t.size.toNat ≤ size

structure UnionLaws (fields : List (TypeAggregateField τ)) (t : Aggregate τ) : Prop where
  declares : t.Declares fields
  offsets_zero : ∀ f ∈ t.fields, f.offset = 0
  align_eq : t.align.toNat = maxAlign (items M fields)
  size_eq : t.size.toNat = alignUp (maxSize (items M fields)) (maxAlign (items M fields))

end

/-! ## Within 64 bits -/

/-- A power of two, as the alignments of all types are. -/
def PowerOfTwo (n : Nat) : Prop := ∃ k, n = 2 ^ k

theorem PowerOfTwo.pos {n : Nat} (h : PowerOfTwo n) : 0 < n := by
  obtain ⟨k, rfl⟩ := h
  exact Nat.two_pow_pos k

theorem PowerOfTwo.max {m n : Nat} (hm : PowerOfTwo m) (hn : PowerOfTwo n) :
    PowerOfTwo (Max.max m n) := by
  rcases Nat.le_total m n with h | h
  · rwa [Nat.max_eq_right h]
  · rwa [Nat.max_eq_left h]

section

variable {τ : Type} {M : TypeSizes τ} {fields : List (TypeAggregateField τ)}

variable (M) in
def AlignsOk (fields : List (TypeAggregateField τ)) : Prop :=
  ∀ f ∈ fields, PowerOfTwo (M.align f.type).toNat

theorem AlignsOk.items_pos (h : AlignsOk M fields) :
    ∀ i ∈ items M fields, 0 < i.align := by
  intro i hi
  obtain ⟨f, hf, rfl⟩ := List.mem_map.mp hi
  exact (h f hf).pos

/-- The largest alignment of fields is one too. -/
theorem AlignsOk.maxAlign (h : AlignsOk M fields)
    (hne : fields ≠ []) : PowerOfTwo (maxAlign (items M fields)) := by
  induction fields with
  | nil => exact absurd rfl hne
  | cons f fs ih =>
    have hf := h f List.mem_cons_self
    cases fs with
    | nil => simpa [Ast.maxAlign, items, TypeAggregateField.item] using hf
    | cons g gs =>
      exact hf.max (ih (fun f' hf' => h f' (List.mem_cons_of_mem f hf')) (by simp))

theorem toNat_max {w : Nat} (a b : BitVec w) :
    (if a < b then b else a).toNat = max a.toNat b.toNat := by
  have hlt : a < b ↔ a.toNat < b.toNat := BitVec.lt_def
  by_cases h : a < b
  · rw [if_pos h, Nat.max_eq_right (Nat.le_of_lt (hlt.mp h))]
  · rw [if_neg h, Nat.max_eq_left (Nat.le_of_not_lt fun h' => h (hlt.mpr h'))]

/-- Where the serial placement fits, the loop computes it. -/
theorem placeFields_spec (hal : AlignsOk M fields) (i : Nat)
    (size align : BitVec 64) (hfit : placeEnd (items M fields) size.toNat < 2 ^ 64) :
    (placeFields M fields i size align).1.map (·.offset.toNat) = place (items M fields) size.toNat ∧
      (placeFields M fields i size align).2.1.toNat = placeEnd (items M fields) size.toNat := by
  induction fields generalizing i size align with
  | nil => exact ⟨rfl, rfl⟩
  | cons f fs ih =>
    obtain ⟨k, hk⟩ := hal f List.mem_cons_self
    have hfs : AlignsOk M fs := fun g hg => hal g (List.mem_cons_of_mem f hg)
    have hend : alignUp size.toNat (2 ^ k) + (M.size f.type).toNat ≤
        placeEnd (items M (f :: fs)) size.toNat := by
      rw [← hk]
      exact (placed_place (alignUp size.toNat (M.align f.type).toNat + (M.size f.type).toNat)
        hfs.items_pos).le
    have hoff : (alignUpMask size (M.align f.type)).toNat = alignUp size.toNat (2 ^ k) :=
      toNat_alignUpMask hk (by omega)
    have hnext : (alignUpMask size (M.align f.type) + M.size f.type).toNat =
        alignUp size.toNat (M.align f.type).toNat + (M.size f.type).toNat := by
      rw [BitVec.toNat_add, hoff, Nat.mod_eq_of_lt (by omega), hk]
    have hrest := ih hfs (i + 1) (alignUpMask size (M.align f.type) + M.size f.type)
      (if align < M.align f.type then M.align f.type else align) (by rw [hnext]; exact hfit)
    rw [hnext] at hrest
    refine ⟨?_, hrest.2⟩
    simp only [placeFields, List.map_cons, hrest.1, hoff, ← hk]
    rfl

variable (M) in
theorem placeFields_align (fields : List (TypeAggregateField τ)) (i : Nat)
    (size align : BitVec 64) :
    (placeFields M fields i size align).2.2.toNat =
      max align.toNat (maxAlign (items M fields)) := by
  induction fields generalizing i size align with
  | nil => simp [placeFields, maxAlign, items]
  | cons f fs ih =>
    simp only [placeFields, ih, toNat_max]
    rw [Nat.max_assoc]
    rfl

variable (M) in
theorem placeFields_declares (fields : List (TypeAggregateField τ)) (i : Nat)
    (size align : BitVec 64) :
    List.Forall₂ TypeAggregateField.SameField fields (placeFields M fields i size align).1 ∧
      (placeFields M fields i size align).1.map (·.index) = List.range' i fields.length := by
  induction fields generalizing i size align with
  | nil => exact ⟨.nil, rfl⟩
  | cons f fs ih =>
    obtain ⟨h1, h2⟩ := ih (i + 1) (alignUpMask size (M.align f.type) + M.size f.type)
      (if align < M.align f.type then M.align f.type else align)
    refine ⟨.cons ⟨rfl, rfl⟩ h1, ?_⟩
    simp only [placeFields, List.map_cons, h2, List.length_cons, List.range'_succ]

variable (M) in
theorem overlayFields_spec (fields : List (TypeAggregateField τ)) (i : Nat)
    (size align : BitVec 64) :
    (overlayFields M fields i size align).2.1.toNat =
        max size.toNat (maxSize (items M fields)) ∧
      (overlayFields M fields i size align).2.2.toNat =
        max align.toNat (maxAlign (items M fields)) ∧
      ∀ f ∈ (overlayFields M fields i size align).1, f.offset = 0 := by
  induction fields generalizing i size align with
  | nil => simp [overlayFields, maxSize, maxAlign, items]
  | cons f fs ih =>
    obtain ⟨h1, h2, h3⟩ := ih (i + 1) (if size < M.size f.type then M.size f.type else size)
      (if align < M.align f.type then M.align f.type else align)
    rw [toNat_max, Nat.max_assoc] at h1 h2
    refine ⟨h1, h2, ?_⟩
    intro g hg
    rcases List.mem_cons.mp hg with rfl | hg
    · rfl
    · exact h3 g hg

variable (M) in
theorem overlayFields_declares (fields : List (TypeAggregateField τ)) (i : Nat)
    (size align : BitVec 64) :
    List.Forall₂ TypeAggregateField.SameField fields (overlayFields M fields i size align).1 ∧
      (overlayFields M fields i size align).1.map (·.index) = List.range' i fields.length := by
  induction fields generalizing i size align with
  | nil => exact ⟨.nil, rfl⟩
  | cons f fs ih =>
    obtain ⟨h1, h2⟩ := ih (i + 1) (if size < M.size f.type then M.size f.type else size)
      (if align < M.align f.type then M.align f.type else align)
    refine ⟨.cons ⟨rfl, rfl⟩ h1, ?_⟩
    simp only [overlayFields, List.map_cons, h2, List.length_cons, List.range'_succ]

/-! ## Both completions -/

theorem FieldsLaid.placed {is : List Item} {offsets : List Nat} {size align : Nat}
    (h : FieldsLaid is offsets size align) : Placed is offsets 0 size :=
  .of_get h.length_eq
    (fun k o i hi ho => ⟨h.aligned k i o hi ho, Nat.zero_le o, h.inside k i o hi ho⟩)
    (fun j k oj ok i hjk hi hj hk => h.ordered j k i oj ok hjk hi hj hk) (Nat.zero_le size)

theorem FieldsLaid.of_placed {is : List Item} {offsets : List Nat} {size align : Nat}
    (h : Placed is offsets 0 size) (hd : align ∣ size) : FieldsLaid is offsets size align where
  length_eq := h.length_eq
  aligned _ _ _ hi ho := (h.get hi ho).1
  inside _ _ _ hi ho := (h.get hi ho).2.2
  ordered _ _ _ _ _ hjk hi hj hk := h.ordered hjk hi hj hk
  dvd_size := hd

/-- The size of the serial placement of the fields. -/
def structSize (is : List Item) : Nat := alignUp (placeEnd is 0) (maxAlign is)

def unionSize (is : List Item) : Nat := alignUp (maxSize is) (maxAlign is)

/-- An aggregate without fields. -/
theorem toNat_alignUpMask_zero : (alignUpMask (0 : BitVec 64) 0).toNat = alignUp 0 0 := by decide

theorem toNat_structSize (hal : AlignsOk M fields) (hfit : structSize (items M fields) < 2 ^ 64) :
    (completeStructType M fields).size.toNat = structSize (items M fields) := by
  by_cases hne : fields = []
  · subst hne
    exact toNat_alignUpMask_zero
  obtain ⟨k, hk⟩ := hal.maxAlign hne
  have hpos : 0 < maxAlign (items M fields) := (hal.maxAlign hne).pos
  have hend : placeEnd (items M fields) 0 < 2 ^ 64 :=
    Nat.lt_of_le_of_lt (le_alignUp _ hpos) hfit
  have hsize := (placeFields_spec hal 0 0 0 hend).2
  have halign := placeFields_align M fields 0 0 0
  rw [show (0 : BitVec 64).toNat = 0 from rfl, Nat.zero_max] at halign
  rw [show (0 : BitVec 64).toNat = 0 from rfl] at hsize
  have hsz : (completeStructType M fields).size =
      alignUpMask (placeFields M fields 0 0 0).2.1 (placeFields M fields 0 0 0).2.2 := rfl
  unfold structSize at hfit ⊢
  rw [hsz, toNat_alignUpMask (halign.trans hk) (by rw [hsize, ← hk]; exact hfit), hsize, hk]

variable (M) in
theorem align_completeStructType (fields : List (TypeAggregateField τ)) :
    (completeStructType M fields).align.toNat = maxAlign (items M fields) := by
  have halign := placeFields_align M fields 0 0 0
  rwa [show (0 : BitVec 64).toNat = 0 from rfl, Nat.zero_max] at halign

variable (M) in
theorem completeStructType_declares (fields : List (TypeAggregateField τ)) :
    (completeStructType M fields).Declares fields := by
  have h := placeFields_declares M fields 0 0 0
  rw [← List.range_eq_range'] at h
  exact h

theorem structLaws_iff (hal : AlignsOk M fields) :
    StructLaws M fields (completeStructType M fields) ↔ structSize (items M fields) < 2 ^ 64 := by
  have hpos : fields ≠ [] → 0 < maxAlign (items M fields) := fun hne => (hal.maxAlign hne).pos
  constructor
  · intro h
    have hend : placeEnd (items M fields) 0 ≤ (completeStructType M fields).size.toNat :=
      h.laid.placed.placeEnd_le hal.items_pos (Nat.le_refl 0)
    by_cases hne : fields = []
    · subst hne
      show structSize [] < 2 ^ 64
      decide
    · have hd := h.laid.dvd_size
      rw [h.align_eq] at hd
      exact Nat.lt_of_le_of_lt (alignUp_le (hpos hne) hend hd) (BitVec.isLt _)
  · intro hfit
    have hsize := toNat_structSize hal hfit
    have halign := align_completeStructType M fields
    have hle : placeEnd (items M fields) 0 ≤ structSize (items M fields) := by
      by_cases hne : fields = []
      · subst hne
        exact Nat.zero_le _
      · exact le_alignUp _ (hpos hne)
    have hoffs : (completeStructType M fields).offsets = place (items M fields) 0 :=
      (placeFields_spec hal 0 0 0 (Nat.lt_of_le_of_lt hle hfit)).1
    refine ⟨completeStructType_declares M fields, .of_placed ?_ ?_, halign, ?_⟩
    · rw [hsize, hoffs]
      exact (placed_place 0 hal.items_pos).mono (Nat.le_refl 0) hle
    · rw [hsize, halign]
      exact dvd_alignUp _ _
    · intro offsets size hlaid
      have hend := hlaid.placed.placeEnd_le hal.items_pos (Nat.le_refl 0)
      have hd := hlaid.dvd_size
      rw [halign] at hd
      rw [hsize]
      by_cases hne : fields = []
      · subst hne
        exact Nat.zero_le size
      · exact alignUp_le (hpos hne) hend hd

theorem unionLaws_iff (hal : AlignsOk M fields) :
    UnionLaws M fields (completeUnionType M fields) ↔ unionSize (items M fields) < 2 ^ 64 := by
  obtain ⟨hsize, halign, hzero⟩ := overlayFields_spec M fields 0 0 0
  rw [show (0 : BitVec 64).toNat = 0 from rfl, Nat.zero_max] at hsize halign
  have hdecl : (completeUnionType M fields).Declares fields := by
    have h := overlayFields_declares M fields 0 0 0
    rw [← List.range_eq_range'] at h
    exact h
  constructor
  · intro h
    rw [unionSize, ← h.size_eq]
    exact BitVec.isLt _
  · intro hfit
    refine ⟨hdecl, hzero, halign, ?_⟩
    by_cases hne : fields = []
    · subst hne
      exact toNat_alignUpMask_zero
    obtain ⟨k, hk⟩ := hal.maxAlign hne
    have hsz : (completeUnionType M fields).size =
        alignUpMask (overlayFields M fields 0 0 0).2.1 (overlayFields M fields 0 0 0).2.2 := rfl
    rw [hsz, toNat_alignUpMask (halign.trans hk) (by rw [hsize, ← hk]; exact hfit), hsize, hk]

/-- Structs and unions are laid out by the laws exactly if the layout ends within 64 bits. -/
theorem completeType_laws_iff (M : TypeSizes τ) (fields : List (TypeAggregateField τ))
    (hal : AlignsOk M fields) :
    (StructLaws M fields (completeStructType M fields) ↔ structSize (items M fields) < 2 ^ 64) ∧
      (UnionLaws M fields (completeUnionType M fields) ↔ unionSize (items M fields) < 2 ^ 64) :=
  ⟨structLaws_iff hal, unionLaws_iff hal⟩

end

/-- `struct { u8; u64 }`. -/
def byteAndWord : List (TypeAggregateField Ty) :=
  [⟨.integer .u8, none, 0, 0⟩, ⟨.integer .u64, none, 0, 0⟩]

theorem completeType_laws_byteAndWord :
    (StructLaws tySizes byteAndWord (completeStructType tySizes byteAndWord) ↔
        structSize (items tySizes byteAndWord) < 2 ^ 64) ∧
      (UnionLaws tySizes byteAndWord (completeUnionType tySizes byteAndWord) ↔
        unionSize (items tySizes byteAndWord) < 2 ^ 64) :=
  completeType_laws_iff tySizes byteAndWord (by
    intro f hf
    rcases List.mem_cons.mp hf with rfl | hf
    · exact ⟨0, by decide⟩
    · rw [List.mem_singleton.mp hf]
      exact ⟨3, by decide⟩)

/-- Two arrays of `2 ^ 63` bytes. -/
def twoHalves : List (TypeAggregateField Ty) :=
  [⟨.array (.integer .u8) 9223372036854775808, none, 0, 0⟩,
    ⟨.array (.integer .u8) 9223372036854775808, none, 0, 0⟩]

/-- A struct of `2 ^ 64` bytes has size zero. -/
theorem not_structLaws_twoHalves :
    ¬ StructLaws tySizes twoHalves (completeStructType tySizes twoHalves) := by
  intro h
  have hinside := h.laid.inside 0 ⟨9223372036854775808, 1⟩ 0 (by decide) (by decide)
  exact absurd hinside (by decide)

end Nibble.Ast
