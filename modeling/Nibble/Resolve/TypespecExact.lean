import Nibble.Resolve.Typespec

/-!
# Which sizes are exact

The size of a type as a number: the length of an array times the size of an element, and the
serial placement of the fields of a struct. The size that is recorded is this number exactly if no
part of the type is larger than 64 bits allow and each length is read as the number that it is.
-/

namespace Nibble.Resolve

open Nibble.Ast (AggregateKind TypeAggregateField TypeSizes tySizes completeStructType
  completeUnionType PowerOfTwo AlignsOk)
open Nibble.Lib (Item)

/-- The number that a length is. -/
def lengthNumber (expr : Eop) : Int :=
  match intKind? expr.type with
  | some k => Scalar.value expr.imm k
  | none => 0

mutual

/-- The size and the alignment of a type as numbers. -/
def TypeSpec.item : TypeSpec → Item
  | .plain t => ⟨t.val.size, t.val.align⟩
  | .array _ .slice => ⟨2 * ptrSize, ptrSize⟩
  | .array base .infer => ⟨0, base.item.align⟩
  | .array base (.len expr) =>
    ⟨(lengthNumber expr).toNat * base.item.size, base.item.align⟩
  | .strLit len => ⟨len + 1, 1⟩
  | .inferred base len => ⟨len.toNat * base.item.size, base.item.align⟩
  | .aggregate .struct _ fields => ⟨Ast.structSize fields.items, Ast.maxAlign fields.items⟩
  | .aggregate .union _ fields => ⟨Ast.unionSize fields.items, Ast.maxAlign fields.items⟩

def FieldSpecs.items : FieldSpecs → List Item
  | .nil => []
  | .cons _ typespec rest => typespec.item :: rest.items

end

mutual

/-- `p` holds of a type and of all that it is made of. -/
def TypeSpec.Parts (p : TypeSpec → Prop) : TypeSpec → Prop
  | .plain t => p (.plain t)
  | .array base len => base.Parts p ∧ p (.array base len)
  | .strLit len => p (.strLit len)
  | .inferred base len => base.Parts p ∧ p (.inferred base len)
  | .aggregate kind id fields => fields.Parts p ∧ p (.aggregate kind id fields)

def FieldSpecs.Parts (p : TypeSpec → Prop) : FieldSpecs → Prop
  | .nil => True
  | .cons _ typespec rest => typespec.Parts p ∧ rest.Parts p

end

/-- The type has its size as a number, and an array with a length has the length that is written,
which is positive. -/
def TypeSpec.Right (ts : TypeSpec) : Prop :=
  ∀ t, resolveTypespec ts = some t → t.size = ts.item.size ∧
    ∀ base expr, ts = .array base (.len expr) →
      0 < lengthNumber expr ∧ ∃ elem, t = .array elem (lengthNumber expr).toNat

/-- The size is one of 64 bits, and the 64 bits of a length are those of the number. -/
def TypeSpec.Fits (ts : TypeSpec) : Prop :=
  ts.item.size < 2 ^ 64 ∧
    ∀ base expr, ts = .array base (.len expr) → lengthNumber expr = expr.imm.toNat

/-! ## Sizes and alignments of 64 bits -/

/-- What every type has that was resolved. -/
structure SizeOk (t : Ty) : Prop where
  size_lt : t.size < 2 ^ 64
  align_lt : t.align < 2 ^ 64
  align_pow : t.size ≠ 0 → PowerOfTwo t.align

theorem SizeOk.plain {t : Ty} (h : isPlain t = true) : SizeOk t := by
  have hint : ∀ k, SizeOk (.integer k) := by
    intro k
    refine ⟨by cases k <;> decide, by cases k <;> decide, fun _ => ?_⟩
    cases k with
    | bool | u8 | s8 => exact ⟨0, rfl⟩
    | u16 | s16 => exact ⟨1, rfl⟩
    | u32 | s32 => exact ⟨2, rfl⟩
    | u64 | s64 => exact ⟨3, rfl⟩
  have hword : ∀ t : Ty, t.size < 2 ^ 64 → t.align = 8 → SizeOk t := fun t hsize halign =>
    ⟨hsize, halign ▸ by decide, fun _ => ⟨3, halign⟩⟩
  cases t with
  | void => exact ⟨by decide, by decide, fun h => absurd rfl h⟩
  | integer k => exact hint k
  | enum id k => exact ⟨(hint k).size_lt, (hint k).align_lt, (hint k).align_pow⟩
  | float k =>
    cases k with
    | f32 => exact ⟨by decide, by decide, fun _ => ⟨2, rfl⟩⟩
    | f64 => exact ⟨by decide, by decide, fun _ => ⟨3, rfl⟩⟩
  | ptr base => exact hword _ (show ptrSize < 2 ^ 64 by decide) rfl
  | proc id => exact hword _ (show ptrSize < 2 ^ 64 by decide) rfl
  | slice elem => exact hword _ (show 2 * ptrSize < 2 ^ 64 by decide) rfl
  | array _ _ | struct _ _ _ | union _ _ _ | incomplete _ => cases h

theorem SizeOk.typeArray {base : Ty} (h : SizeOk base) (len : BitVec 64) :
    SizeOk (typeArray base len) where
  size_lt := Nat.mod_lt _ (Nat.two_pow_pos 64)
  align_lt := h.align_lt
  align_pow hne := h.align_pow fun hzero => hne (by
    show base.size * len.toNat % 2 ^ 64 = 0
    rw [hzero, Nat.zero_mul, Nat.zero_mod])

theorem SizeOk.resolveArray {base t : Ty} {len : ArrayLen} (h : SizeOk base)
    (ht : resolveArray base len = some t) : SizeOk t := by
  unfold Resolve.resolveArray at ht
  split at ht
  · cases ht
  cases len with
  | slice =>
    cases ht
    exact .plain rfl
  | infer =>
    cases ht
    exact h.typeArray 0
  | len expr =>
    dsimp only at ht
    split at ht
    · cases ht
    split at ht
    · split at ht
      · cases ht
      · cases ht
        exact h.typeArray expr.imm
    · cases ht

section

variable {fields : List (TypeAggregateField Ty)}

/-- The fields that `resolve_aggregate_fields` leaves. -/
def FieldsOk (fields : List (TypeAggregateField Ty)) : Prop :=
  ∀ f ∈ fields, SizeOk f.type ∧ f.type.size ≠ 0

theorem FieldsOk.alignsOk (h : FieldsOk fields) : AlignsOk tySizes fields := by
  intro f hf
  obtain ⟨hok, hne⟩ := h f hf
  have halign : (tySizes.align f.type).toNat = f.type.align :=
    Nat.mod_eq_of_lt hok.align_lt
  rw [halign]
  exact hok.align_pow hne

theorem SizeOk.aggregate (h : FieldsOk fields) (kind : AggregateKind) (id : Nat) :
    SizeOk (completeAggregateType kind id fields) := by
  have hpow : ∀ {align : BitVec 64} {size : BitVec 64}, (fields = [] → size = 0) →
      align.toNat = Ast.maxAlign (Ast.items tySizes fields) → size.toNat ≠ 0 →
      PowerOfTwo align.toNat := by
    intro align size hempty halign hsize
    rw [halign]
    refine h.alignsOk.maxAlign fun hnil => hsize ?_
    rw [hempty hnil]
    rfl
  cases kind with
  | struct =>
    refine ⟨BitVec.isLt _, BitVec.isLt _, hpow ?_ ?_⟩
    · rintro rfl
      decide
    · exact Ast.align_completeStructType tySizes fields
  | union =>
    refine ⟨BitVec.isLt _, BitVec.isLt _, hpow ?_ ?_⟩
    · rintro rfl
      decide
    · have halign := (Ast.overlayFields_spec tySizes fields 0 0 0).2.1
      rwa [show (0 : BitVec 64).toNat = 0 from rfl, Nat.zero_max] at halign

end

mutual

theorem resolveTypespec_sizeOk : ∀ {ts : TypeSpec} {t : Ty}, resolveTypespec ts = some t → SizeOk t
  | .plain type, t, h => by
    cases h
    exact .plain type.property
  | .array base len, t, h => by
    obtain ⟨elem, helem, h⟩ := Option.bind_eq_some_iff.mp h
    exact (resolveTypespec_sizeOk helem).resolveArray h
  | .strLit len, t, h => by
    cases h
    exact (SizeOk.plain rfl).typeArray _
  | .inferred base len, t, h => by
    obtain ⟨elem, helem, h⟩ := Option.bind_eq_some_iff.mp h
    cases h
    exact (resolveTypespec_sizeOk helem).typeArray len
  | .aggregate kind id fields, t, h => by
    obtain ⟨types, htypes, h⟩ := Option.bind_eq_some_iff.mp h
    cases h
    exact .aggregate (resolveAggregateFields_sizeOk htypes) kind id

theorem resolveAggregateFields_sizeOk : ∀ {fields : FieldSpecs} {seen : List Nat}
    {types : List (TypeAggregateField Ty)},
    resolveAggregateFields seen fields = some types → FieldsOk types
  | .nil, _, _, h => by
    cases h
    exact fun f hf => nomatch hf
  | .cons name typespec rest, seen, types, h => by
    unfold resolveAggregateFields at h
    split at h
    · cases h
    obtain ⟨type, htype, h⟩ := Option.bind_eq_some_iff.mp h
    split at h
    · cases h
    rename_i hcheck
    obtain ⟨others, hothers, h⟩ := Option.bind_eq_some_iff.mp h
    cases h
    have hne : type.size ≠ 0 := by
      intro hzero
      simp [hzero] at hcheck
    exact List.forall_mem_cons.mpr
      ⟨⟨resolveTypespec_sizeOk htype, hne⟩, resolveAggregateFields_sizeOk hothers⟩

end

/-! ## Exact sizes -/

/-- An array of elements of the size that is recorded, with a length that is checked. -/
theorem resolveArray_len {base t : Ty} {expr : Eop} (h : resolveArray base (.len expr) = some t) :
    expr.imm ≠ 0 ∧ t = typeArray base expr.imm := by
  unfold resolveArray at h
  split at h
  · cases h
  dsimp only at h
  split at h
  · cases h
  split at h
  · split at h
    · cases h
    · rename_i hne
      cases h
      exact ⟨hne, rfl⟩
  · cases h

/-- What is exact of a type that was resolved. -/
def TypeSpec.Exact (ts : TypeSpec) (t : Ty) : Prop :=
  t.size = ts.item.size ∧ t.align = ts.item.align

/-- A plain type, and any other without a length, is right if it is exact. -/
theorem TypeSpec.Exact.right {ts : TypeSpec} {t : Ty} (h : ts.Exact t)
    (ht : resolveTypespec ts = some t) (hlen : ∀ base expr, ts ≠ .array base (.len expr)) :
    ts.Right := by
  intro t' ht'
  cases ht.symm.trans ht'
  exact ⟨h.1, fun base expr heq => absurd heq (hlen base expr)⟩

theorem typeArray_exact {base : Ty} {len : BitVec 64} {n : Nat} {item : Item}
    (hbase : base.size = item.size ∧ base.align = item.align) (hn : len.toNat = n)
    (hfit : n * item.size < 2 ^ 64) :
    (typeArray base len).size = n * item.size ∧ (typeArray base len).align = item.align := by
  refine ⟨?_, hbase.2⟩
  show base.size * len.toNat % 2 ^ 64 = n * item.size
  rw [hbase.1, hn, Nat.mul_comm, Nat.mod_eq_of_lt hfit]

/-- The completion records what the fields come to, where that fits. -/
theorem completeAggregateType_exact {fields : List (TypeAggregateField Ty)} {items : List Item}
    (hfields : FieldsOk fields) (hitems : Ast.items tySizes fields = items) (id : Nat) :
    (Ast.structSize items < 2 ^ 64 →
      (completeAggregateType .struct id fields).size = Ast.structSize items ∧
        (completeAggregateType .struct id fields).align = Ast.maxAlign items) ∧
    (Ast.unionSize items < 2 ^ 64 →
      (completeAggregateType .union id fields).size = Ast.unionSize items ∧
        (completeAggregateType .union id fields).align = Ast.maxAlign items) := by
  subst hitems
  refine ⟨fun hfit => ?_, fun hfit => ?_⟩
  · have hlaws := (Ast.structLaws_iff hfields.alignsOk).mpr hfit
    exact ⟨Ast.toNat_structSize hfields.alignsOk hfit, hlaws.align_eq⟩
  · have hlaws := (Ast.unionLaws_iff hfields.alignsOk).mpr hfit
    exact ⟨hlaws.size_eq, hlaws.align_eq⟩

mutual

/-- Where everything fits, the sizes are exact from the parts up. -/
theorem resolveTypespec_exact : ∀ {ts : TypeSpec} {t : Ty}, resolveTypespec ts = some t →
    ts.Parts TypeSpec.Fits → ts.Exact t ∧ ts.Parts TypeSpec.Right
  | .plain type, t, h, hfits => by
    have hexact : (TypeSpec.plain type).Exact t := by
      cases h
      exact ⟨rfl, rfl⟩
    exact ⟨hexact, hexact.right h nofun⟩
  | .array base len, t, h, ⟨hbase, hfits⟩ => by
    obtain ⟨elem, helem, harray⟩ := Option.bind_eq_some_iff.mp h
    obtain ⟨hexact, hright⟩ := resolveTypespec_exact helem hbase
    cases len with
    | slice =>
      have hexact : (TypeSpec.array base .slice).Exact t := by
        unfold resolveArray at harray
        split at harray
        · cases harray
        · cases harray
          exact ⟨rfl, rfl⟩
      exact ⟨hexact, hright, hexact.right h nofun⟩
    | infer =>
      have hexact' : (TypeSpec.array base .infer).Exact t := by
        unfold resolveArray at harray
        split at harray
        · cases harray
        · cases harray
          exact ⟨by simp [typeArray, Ty.size, TypeSpec.item], hexact.2⟩
      exact ⟨hexact', hright, hexact'.right h nofun⟩
    | len expr =>
      obtain ⟨hne, rfl⟩ := resolveArray_len harray
      have hnumber := hfits.2 base expr rfl
      have hlen : (lengthNumber expr).toNat = expr.imm.toNat := by
        rw [hnumber, Int.toNat_natCast]
      have hexact' : (TypeSpec.array base (.len expr)).Exact (typeArray elem expr.imm) :=
        typeArray_exact hexact hlen.symm hfits.1
      refine ⟨hexact', hright, fun t' ht' => ?_⟩
      cases h.symm.trans ht'
      refine ⟨hexact'.1, fun base' expr' heq => ?_⟩
      cases heq
      refine ⟨?_, elem, congrArg (Ty.array elem) hlen.symm⟩
      have hpos : expr.imm.toNat ≠ 0 := fun hzero => hne (BitVec.eq_of_toNat_eq hzero)
      omega
  | .strLit len, t, h, hfits => by
    have hexact : (TypeSpec.strLit len).Exact t := by
      cases h
      have hlen : (BitVec.ofNat 64 (len + 1)).toNat = len + 1 := Nat.mod_eq_of_lt hfits.1
      have hmul := @typeArray_exact (.integer .s8) _ _ ⟨1, 1⟩ ⟨rfl, rfl⟩ hlen
      rw [Nat.mul_one] at hmul
      exact hmul hfits.1
    exact ⟨hexact, hexact.right h nofun⟩
  | .inferred base len, t, h, ⟨hbase, hfits⟩ => by
    obtain ⟨elem, helem, harray⟩ := Option.bind_eq_some_iff.mp h
    obtain ⟨hexact, hright⟩ := resolveTypespec_exact helem hbase
    have hexact' : (TypeSpec.inferred base len).Exact t := by
      cases harray
      exact typeArray_exact hexact rfl hfits.1
    exact ⟨hexact', hright, hexact'.right h nofun⟩
  | .aggregate kind id fields, t, h, ⟨hparts, hfits⟩ => by
    obtain ⟨types, htypes, hcomplete⟩ := Option.bind_eq_some_iff.mp h
    obtain ⟨hitems, hright⟩ := resolveAggregateFields_exact htypes hparts
    have hfields := resolveAggregateFields_sizeOk htypes
    have hboth := completeAggregateType_exact hfields hitems id
    have hexact : (TypeSpec.aggregate kind id fields).Exact t := by
      cases hcomplete
      cases kind with
      | struct => exact hboth.1 hfits.1
      | union => exact hboth.2 hfits.1
    exact ⟨hexact, hright, hexact.right h nofun⟩

theorem resolveAggregateFields_exact : ∀ {fields : FieldSpecs} {seen : List Nat}
    {types : List (TypeAggregateField Ty)}, resolveAggregateFields seen fields = some types →
    fields.Parts TypeSpec.Fits →
    Ast.items tySizes types = fields.items ∧ fields.Parts TypeSpec.Right
  | .nil, _, _, h, _ => by
    cases h
    exact ⟨rfl, trivial⟩
  | .cons name typespec rest, seen, types, h, ⟨htype, hrest⟩ => by
    unfold resolveAggregateFields at h
    split at h
    · cases h
    obtain ⟨type, hresolved, h⟩ := Option.bind_eq_some_iff.mp h
    split at h
    · cases h
    obtain ⟨others, hothers, h⟩ := Option.bind_eq_some_iff.mp h
    cases h
    obtain ⟨hexact, hright⟩ := resolveTypespec_exact hresolved htype
    obtain ⟨hitems, hrights⟩ := resolveAggregateFields_exact hothers hrest
    have hok := resolveTypespec_sizeOk hresolved
    refine ⟨List.cons_eq_cons.mpr ⟨?_, hitems⟩, hright, hrights⟩
    show (⟨type.size % 2 ^ 64, type.align % 2 ^ 64⟩ : Item) = typespec.item
    rw [Nat.mod_eq_of_lt hok.size_lt, Nat.mod_eq_of_lt hok.align_lt, hexact.1, hexact.2]

end

/-- What is right fits. -/
theorem TypeSpec.Right.fits {ts : TypeSpec} {t : Ty} (h : ts.Right)
    (ht : resolveTypespec ts = some t) : ts.Fits := by
  obtain ⟨hsize, hlen⟩ := h t ht
  refine ⟨hsize ▸ (resolveTypespec_sizeOk ht).size_lt, ?_⟩
  rintro base expr rfl
  obtain ⟨hpos, elem, rfl⟩ := hlen base expr rfl
  obtain ⟨elem', -, harray⟩ := Option.bind_eq_some_iff.mp ht
  obtain ⟨-, heq⟩ := resolveArray_len harray
  have hnumber : (lengthNumber expr).toNat = expr.imm.toNat := (Ty.array.inj heq).2
  omega

mutual

theorem TypeSpec.Parts.imp {p q : TypeSpec → Prop}
    (hpq : ∀ s t, resolveTypespec s = some t → p s → q s) :
    ∀ {ts : TypeSpec} {t : Ty}, resolveTypespec ts = some t → ts.Parts p → ts.Parts q
  | .plain type, t, h, hp => hpq _ t h hp
  | .array base len, t, h, ⟨hbase, hp⟩ => by
    obtain ⟨elem, helem, -⟩ := Option.bind_eq_some_iff.mp h
    exact ⟨TypeSpec.Parts.imp hpq helem hbase, hpq _ t h hp⟩
  | .strLit len, t, h, hp => hpq _ t h hp
  | .inferred base len, t, h, ⟨hbase, hp⟩ => by
    obtain ⟨elem, helem, -⟩ := Option.bind_eq_some_iff.mp h
    exact ⟨TypeSpec.Parts.imp hpq helem hbase, hpq _ t h hp⟩
  | .aggregate kind id fields, t, h, ⟨hparts, hp⟩ => by
    obtain ⟨types, htypes, -⟩ := Option.bind_eq_some_iff.mp h
    exact ⟨FieldSpecs.Parts.imp hpq htypes hparts, hpq _ t h hp⟩

theorem FieldSpecs.Parts.imp {p q : TypeSpec → Prop}
    (hpq : ∀ s t, resolveTypespec s = some t → p s → q s) :
    ∀ {fields : FieldSpecs} {seen : List Nat} {types : List (TypeAggregateField Ty)},
    resolveAggregateFields seen fields = some types → fields.Parts p → fields.Parts q
  | .nil, _, _, _, _ => trivial
  | .cons name typespec rest, seen, types, h, ⟨htype, hrest⟩ => by
    unfold resolveAggregateFields at h
    split at h
    · cases h
    obtain ⟨type, hresolved, h⟩ := Option.bind_eq_some_iff.mp h
    split at h
    · cases h
    obtain ⟨others, hothers, -⟩ := Option.bind_eq_some_iff.mp h
    exact ⟨TypeSpec.Parts.imp hpq hresolved htype, FieldSpecs.Parts.imp hpq hothers hrest⟩

end

/-- Every part of a type that is resolved has its exact size, and every length is the number that
is written and positive, exactly if every part fits. -/
theorem typespec_exact {ts : TypeSpec} {t : Ty} (h : resolveTypespec ts = some t) :
    ts.Parts TypeSpec.Right ↔ ts.Parts TypeSpec.Fits :=
  ⟨TypeSpec.Parts.imp (fun _ _ ht hright => hright.fits ht) h,
    fun hfits => (resolveTypespec_exact h hfits).2⟩

/-- `[3]u16` -/
def threeHalves : TypeSpec :=
  .array (.plain ⟨.integer .u16, rfl⟩) (.len (opFromConst (.integer .s32) 3))

theorem typespec_exact_threeHalves :
    threeHalves.Parts TypeSpec.Right ↔ threeHalves.Parts TypeSpec.Fits :=
  @typespec_exact threeHalves _ rfl

/-- `[-1]u8` is resolved. -/
theorem negative_length_is_resolved : ¬ ∀ ts t, resolveTypespec ts = some t →
    ts.Parts TypeSpec.Right := by
  intro h
  have hright := (h (.array (.plain ⟨.integer .u8, rfl⟩)
    (.len (opFromConst (.integer .s32) (-1)))) _ rfl).2
  have hpos := ((hright _ rfl).2 _ _ rfl).1
  exact absurd hpos (by decide)

end Nibble.Resolve
