import Nibble.Data.Serialize

/-!
# What the serializer appends

A constant of a type appends as many bytes as the type has, whatever is there
already, and one relocation for each address it contains, in order.
-/

namespace Nibble.Data

open Nibble.IR (SymId)
open Nibble.X64 (ConstAddr)
open Nibble.Ast (TypeAggregateField PowerOfTwo)
open Nibble.Lib

variable {w : Nat}

/-! ## Types and their constants -/

/-- Fields as items to place. -/
def dataItems (fields : List (TypeAggregateField DataType)) : List Item :=
  fields.map fun f => ⟨f.type.size, f.type.align⟩

/-- Types as the resolver completes them. -/
inductive DataType.Laid : DataType → Prop
  | int {n : Nat} : PowerOfTwo n → Laid (.int n)
  | float {k : FloatKind} : Laid (.float k)
  | ptr {n : Nat} : Laid (.ptr n)
  | proc : Laid .proc
  | array {base : DataType} {n : Nat} : Laid base → Laid (.array base n)
  | struct {fields : List (TypeAggregateField DataType)} {size align : Nat} :
    (∀ f ∈ fields, Laid f.type) → PowerOfTwo align →
      Placed (dataItems fields) (fields.map (·.offset.toNat)) 0 size →
        Laid (.struct fields size align)
  | union {fields : List (TypeAggregateField DataType)} {size align : Nat} :
    (∀ f ∈ fields, Laid f.type) → PowerOfTwo align → (∀ f ∈ fields, f.type.size ≤ size) →
      Laid (.union fields size align)

theorem DataType.Laid.align {t : DataType} (h : t.Laid) : PowerOfTwo t.align := by
  induction h with
  | int h => exact h
  | @float k => cases k <;> [exact ⟨3, rfl⟩; exact ⟨2, rfl⟩]
  | ptr | proc => exact ⟨3, rfl⟩
  | array _ ih => exact ih
  | struct _ h | union _ h => exact h

/-- Constants as the resolver types them: initializers have the type of what they initialize, and
are for elements and fields that exist. -/
inductive ConstExpr.Typed : ConstExpr w → Prop
  | none {t : DataType} : t.Laid → Typed (.none t)
  | int {n : Nat} {v : BitVec 64} : PowerOfTwo n → Typed (.imm (.int n) v)
  | ptr {n : Nat} {v : BitVec 64} : Typed (.imm (.ptr n) v)
  | procImm {v : BitVec 64} : Typed (.imm .proc v)
  | memAddr {n : Nat} {a : DataAddr w} : Typed (.memAddr (.ptr n) a)
  | strLit {id : Nat} {s : List UInt8} : Typed (.strLit (.array (.int 1) (s.length + 1)) id s)
  | floatLit {k : FloatKind} {v : BitVec 64} : Typed (.floatLit (.float k) k v)
  | proc {s : SymId} : Typed (.proc .proc s)
  | arrayInit {elem : DataType} {n : Nat} {initzers : List (Nat × ConstExpr w)} : elem.Laid →
    (∀ p ∈ initzers, p.1 < n ∧ p.2.type = elem) → (∀ p ∈ initzers, Typed p.2) →
      Typed (.arrayInit (.array elem n) initzers)
  | structInit {fields : List (TypeAggregateField DataType)} {size align : Nat}
    {fieldExprs : List (Nat × ConstExpr w)} : (DataType.struct fields size align).Laid →
    (∀ p ∈ fieldExprs, ∃ f, fields[p.1]? = some f ∧ p.2.type = f.type) →
      (∀ p ∈ fieldExprs, Typed p.2) → Typed (.structInit (.struct fields size align) fieldExprs)
  | unionZero {fields : List (TypeAggregateField DataType)} {size align : Nat} :
    (DataType.union fields size align).Laid → Typed (.unionInit (.union fields size align) [])
  | unionInit {fields : List (TypeAggregateField DataType)} {size align i : Nat}
    {f : TypeAggregateField DataType} {e : ConstExpr w} :
    (DataType.union fields size align).Laid → fields[i]? = some f → e.type = f.type → Typed e →
      Typed (.unionInit (.union fields size align) [(i, e)])

theorem ConstExpr.Typed.laid {e : ConstExpr w} (h : e.Typed) : e.type.Laid := by
  induction h with
  | none h | int h => first | exact h | exact .int h
  | ptr | memAddr => exact .ptr
  | procImm | proc => exact .proc
  | strLit => exact .array (.int ⟨0, rfl⟩)
  | floatLit => exact .float
  | arrayInit h => exact .array h
  | structInit h | unionZero h | unionInit h => exact h

/-- The constant has an address in the eight bytes from an offset on. -/
inductive ConstExpr.SlotAt : ConstExpr w → Nat → DataAddr w → Prop
  | memAddr {t : DataType} {a : DataAddr w} : SlotAt (.memAddr t a) 0 a
  | proc {t : DataType} {s : SymId} : SlotAt (.proc t s) 0 ⟨.sym s, 0⟩
  | elem {base : DataType} {n i k : Nat} {initzers : List (Nat × ConstExpr w)} {e : ConstExpr w}
    {a : DataAddr w} : i < n → initVals initzers i = some e → SlotAt e k a →
      SlotAt (.arrayInit (.array base n) initzers) (i * base.size + k) a
  | field {fields : List (TypeAggregateField DataType)} {size align i k : Nat}
    {f : TypeAggregateField DataType} {fieldExprs : List (Nat × ConstExpr w)} {e : ConstExpr w}
    {a : DataAddr w} : fields[i]? = some f → initVals fieldExprs i = some e → SlotAt e k a →
      SlotAt (.structInit (.struct fields size align) fieldExprs) (f.offset.toNat + k) a
  | unionField {t : DataType} {i k : Nat} {e : ConstExpr w} {a : DataAddr w} : SlotAt e k a →
    SlotAt (.unionInit t [(i, e)]) k a

/-! ## Appending -/

/-- The relocation of a slot of what is appended at `base`. -/
def slotReloc (base : Nat) (s : Nat × DataAddr w) : DataReloc w :=
  ⟨s.2, BitVec.ofNat 32 (base + s.1)⟩

/-- Slots of eight bytes, in order and within `n` bytes. -/
structure SlotsIn (ss : List (Nat × DataAddr w)) (n : Nat) : Prop where
  inside : ∀ s ∈ ss, s.1 + 8 ≤ n
  ordered : ss.Pairwise fun s t => s.1 + 8 ≤ t.1

def shiftSlots (n : Nat) (ss : List (Nat × DataAddr w)) : List (Nat × DataAddr w) :=
  ss.map fun s => (n + s.1, s.2)

theorem mem_shiftSlots {n o : Nat} {a : DataAddr w} {ss : List (Nat × DataAddr w)} :
    (o, a) ∈ shiftSlots n ss ↔ ∃ k, o = n + k ∧ (k, a) ∈ ss := by
  constructor
  · intro h
    obtain ⟨⟨k, a'⟩, hmem, heq⟩ := List.mem_map.mp h
    cases heq
    exact ⟨k, rfl, hmem⟩
  · rintro ⟨k, rfl, h⟩
    exact List.mem_map.mpr ⟨(k, a), h, rfl⟩

/-- Slots of what is appended later are relocated from there. -/
theorem map_slotReloc_shiftSlots (base n : Nat) (ss : List (Nat × DataAddr w)) :
    (shiftSlots n ss).map (slotReloc base) = ss.map (slotReloc (base + n)) := by
  rw [shiftSlots, List.map_map]
  exact List.map_congr_left fun s _ => by simp [slotReloc, Nat.add_assoc]

theorem SlotsIn.append {ss ts : List (Nat × DataAddr w)} {m n : Nat} (hs : SlotsIn ss m)
    (ht : SlotsIn ts n) : SlotsIn (ss ++ shiftSlots m ts) (m + n) := by
  constructor
  · intro s hmem
    rcases List.mem_append.mp hmem with h | h
    · have := hs.inside s h
      omega
    · obtain ⟨t, ht', rfl⟩ := List.mem_map.mp h
      have := ht.inside t ht'
      show m + t.1 + 8 ≤ m + n
      omega
  · refine List.pairwise_append.mpr ⟨hs.ordered, ?_, ?_⟩
    · refine List.pairwise_map.mpr (ht.ordered.imp fun h => ?_)
      show m + _ + 8 ≤ m + _
      omega
    · intro s hmem t hmem'
      obtain ⟨t', -, rfl⟩ := List.mem_map.mp hmem'
      have := hs.inside s hmem
      show s.1 + 8 ≤ m + t'.1
      omega

/-- The writer appends `n` bytes, and relocations for the slots `S` among them. -/
def Writes (f : Writer w) (n : Nat) (S : Nat → DataAddr w → Prop) : Prop :=
  ∃ (bs : List UInt8) (ss : List (Nat × DataAddr w)),
    (∀ b, f b = some ⟨b.bytes ++ bs, b.relocs ++ ss.map (slotReloc b.len)⟩) ∧ bs.length = n ∧
      SlotsIn ss n ∧ ∀ o a, (o, a) ∈ ss ↔ S o a

namespace Writes

variable {f g : Writer w} {m n : Nat} {S T : Nat → DataAddr w → Prop}

theorem congr (h : Writes f n S) (hfg : ∀ b, g b = f b) (hST : ∀ o a, S o a ↔ T o a) :
    Writes g n T := by
  obtain ⟨bs, ss, h1, h2, h3, h4⟩ := h
  exact ⟨bs, ss, fun b => (hfg b).trans (h1 b), h2, h3, fun o a => (h4 o a).trans (hST o a)⟩

/-- Bytes without an address. -/
theorem bytes {bs : List UInt8} (hlen : bs.length = n) (hS : ∀ o a, ¬S o a) :
    Writes (fun b => some { b with bytes := b.bytes ++ bs }) n S := by
  refine ⟨bs, [], fun b => by simp, hlen, ⟨by simp, .nil⟩, fun o a => ?_⟩
  simp [hS]

theorem zeros (hS : ∀ o a, ¬S o a) : Writes (fun b => some (b.fillZeros n)) n S :=
  bytes List.length_replicate hS

theorem seq (hf : Writes f m S) (hg : Writes g n T) :
    Writes (fun b => f b >>= g) (m + n) fun o a => S o a ∨ ∃ k, o = m + k ∧ T k a := by
  obtain ⟨bs, ss, h1, h2, h3, h4⟩ := hf
  obtain ⟨bs', ss', h1', h2', h3', h4'⟩ := hg
  refine ⟨bs ++ bs', ss ++ shiftSlots m ss', fun b => ?_, by simp [h2, h2'], h3.append h3', ?_⟩
  · show (f b >>= g) = _
    rw [h1]
    show g _ = _
    rw [h1', List.map_append, map_slotReloc_shiftSlots]
    simp [DataBuf.len, h2]
  · intro o a
    rw [List.mem_append, h4, mem_shiftSlots]
    simp only [h4']

/-- An address. -/
theorem slot (a : DataAddr w) :
    Writes (fun b => some ((b.addRelocUse a).fillZeros 8)) 8 fun o a' => o = 0 ∧ a' = a := by
  refine ⟨List.replicate 8 0, [(0, a)], fun b => rfl, rfl, ⟨?_, by simp⟩, fun o a' => by simp⟩
  intro s hs
  obtain rfl := List.mem_singleton.mp hs
  exact Nat.le_refl 8

end Writes

/-! ## The table of initializers -/

theorem initVals_append {α : Type} (l : List (Nat × α)) (p : Nat × α) (i : Nat) :
    initVals (l ++ [p]) i = if i = p.1 then some p.2 else initVals l i := by
  simp [initVals]

theorem initVals_map {α β : Type} (f : α → β) (l : List (Nat × α)) (i : Nat) :
    initVals (l.map fun p => (p.1, f p.2)) i = (initVals l i).map f := by
  induction l using List.reverseRecOn with
  | nil => rfl
  | append_singleton l p ih =>
    rw [List.map_append, List.map_singleton, initVals_append, initVals_append, ih]
    split <;> rfl

theorem mem_of_initVals {α : Type} {l : List (Nat × α)} {i : Nat} {x : α}
    (h : initVals l i = some x) : (i, x) ∈ l := by
  induction l using List.reverseRecOn with
  | nil => cases h
  | append_singleton l p ih =>
    rw [initVals_append] at h
    split at h
    · rename_i hi
      cases h
      rw [hi]
      exact List.mem_append_right _ (List.mem_singleton.mpr rfl)
    · exact List.mem_append_left _ (ih h)

theorem writers_eq (l : List (Nat × ConstExpr w)) :
    writers l = l.map fun p => (p.1, dataSerialize p.2) := by
  induction l with
  | nil => rfl
  | cons p l ih => simp [writers, ih]

/-! ## Loops -/

section

variable {vals : Nat → Option (Writer w)} {S : Nat → Nat → DataAddr w → Prop}

/-- The writer of one member, or zeros. -/
theorem writes_member {size i : Nat} (hsome : ∀ f, vals i = some f → Writes f size (S i))
    (hnone : vals i = none → ∀ k a, ¬S i k a) :
    Writes (fun b => match vals i with
      | some f => f b
      | none => some (b.fillZeros size)) size (S i) := by
  cases h : vals i with
  | none => exact .zeros (hnone h)
  | some f => exact hsome f h

theorem writes_elems {size : Nat} (n i : Nat)
    (hsome : ∀ j f, vals j = some f → Writes f size (S j))
    (hnone : ∀ j, vals j = none → ∀ k a, ¬S j k a) :
    Writes (serializeElems size vals n i) (n * size) fun o a =>
      ∃ j k, j < n ∧ o = j * size + k ∧ S (i + j) k a := by
  induction n generalizing i with
  | zero =>
    rw [Nat.zero_mul]
    refine (Writes.zeros (n := 0) (S := fun _ _ => False) fun _ _ => id).congr ?_ ?_
    · intro b
      simp [serializeElems, DataBuf.fillZeros]
    · intro o a
      simp
  | succ n ih =>
    have hstep := (writes_member (hsome i) (hnone i)).seq (ih (i + 1))
    have hsize : (n + 1) * size = size + n * size := by rw [Nat.succ_mul, Nat.add_comm]
    rw [hsize]
    have hrec : ∀ b, serializeElems size vals (n + 1) i b = (match vals i with
        | some f => f b
        | none => some (b.fillZeros size)) >>= serializeElems size vals n (i + 1) := by
      intro b
      rw [serializeElems]
      cases vals i <;> rfl
    refine hstep.congr hrec fun o a => ?_
    constructor
    · rintro (h | ⟨k, rfl, j, k', hj, rfl, h⟩)
      · exact ⟨0, o, Nat.succ_pos n, by simp, h⟩
      · refine ⟨j + 1, k', by omega, ?_, by rwa [Nat.add_assoc, Nat.add_comm 1 j] at h⟩
        rw [Nat.succ_mul]
        omega
    · rintro ⟨j, k, hj, rfl, h⟩
      cases j with
      | zero => exact .inl (by simpa using h)
      | succ j =>
        refine .inr ⟨j * size + k, ?_, j, k, by omega, rfl, ?_⟩
        · rw [Nat.succ_mul]
          omega
        · rwa [Nat.add_assoc, Nat.add_comm 1 j]

/-- The fields from index `i` on, after `offset` bytes of the struct. -/
theorem writes_fields {fields : List (TypeAggregateField DataType)} {i offset hi : Nat}
    (hplaced : Placed (dataItems fields) (fields.map (·.offset.toNat)) offset hi)
    (hsome : ∀ j f g, fields[j]? = some f → vals (i + j) = some g →
      Writes g f.type.size (S (i + j)))
    (hnone : ∀ j, vals (i + j) = none → ∀ k a, ¬S (i + j) k a) :
    ∃ (stop : Nat) (g : Writer w),
      (∀ b, serializeFields vals fields i offset b = (g b).map fun b' => (stop, b')) ∧
      offset ≤ stop ∧ stop ≤ hi ∧ Writes g (stop - offset) fun o a =>
        ∃ j f k, fields[j]? = some f ∧ offset + o = f.offset.toNat + k ∧ S (i + j) k a := by
  induction fields generalizing i offset with
  | nil =>
    cases hplaced with
    | nil hle =>
      refine ⟨offset, some, fun b => rfl, Nat.le_refl _, hle, ?_⟩
      rw [Nat.sub_self]
      refine (Writes.zeros (n := 0) (S := fun _ _ => False) fun _ _ => id).congr ?_ ?_
      · intro b
        simp [DataBuf.fillZeros]
      · intro o a
        simp
  | cons f fs ih =>
    obtain ⟨hle, htail⟩ : offset ≤ f.offset.toNat ∧
        Placed (dataItems fs) (fs.map (·.offset.toNat)) (f.offset.toNat + f.type.size) hi := by
      cases hplaced with
      | cons hle _ htail => exact ⟨hle, htail⟩
    have hsucc : ∀ j, i + 1 + j = i + (j + 1) := by omega
    obtain ⟨stop, g, heq, hlo, hhi, hw⟩ := ih (i := i + 1) htail
      (fun j f' g' hf' hg' => by
        rw [hsucc] at hg' ⊢
        exact hsome (j + 1) f' g' hf' hg')
      (fun j hj => by
        rw [hsucc] at hj ⊢
        exact hnone (j + 1) hj)
    have hpad := Writes.zeros (w := w) (n := f.offset.toNat - offset) (S := fun _ _ => False)
      fun _ _ => id
    have hmem := @writes_member w vals S f.type.size i (fun g' hg' => hsome 0 f g' rfl hg') (hnone 0)
    have hpadEnd : offset + (f.offset.toNat - offset) = f.offset.toNat := Nat.add_sub_cancel' hle
    have hlen : f.offset.toNat - offset + f.type.size +
        (stop - (f.offset.toNat + f.type.size)) = stop - offset := by omega
    have hall := (hpad.seq hmem).seq hw
    rw [hlen] at hall
    refine ⟨stop, _, fun b => ?_, by omega, hhi, hall.congr (fun b => rfl) fun o a => ?_⟩
    · rw [serializeFields, hpadEnd]
      cases hv : vals i with
      | none => simp [heq]
      | some g' =>
        cases hb : g' (b.fillZeros (f.offset.toNat - offset)) with
        | none => simp [hb]
        | some b' => simp [hb, heq]
    · constructor
      · rintro ((h | ⟨k, rfl, h⟩) | ⟨k, rfl, j, f', k', hf', hk, h⟩)
        · exact absurd h id
        · exact ⟨0, f, k, rfl, by omega, h⟩
        · refine ⟨j + 1, f', k', hf', by omega, ?_⟩
          rwa [hsucc] at h
      · rintro ⟨j, f', k, hf', hk, h⟩
        cases j with
        | zero =>
          cases hf'
          exact .inl (.inr ⟨k, by omega, h⟩)
        | succ j =>
          have hf'' : fs[j]? = some f' := hf'
          have hin : f.offset.toNat + f.type.size ≤ f'.offset.toNat :=
            (htail.get (i := ⟨f'.type.size, f'.type.align⟩) (k := j)
              (by simp [dataItems, hf'']) (by simp [hf''])).2.1
          refine .inr ⟨o - (f.offset.toNat - offset + f.type.size), by omega, j, f', k, hf'', by omega,
            ?_⟩
          rwa [hsucc]

end

/-! ## Constants -/

/-- The initializers of typed members write what the table holds. -/
theorem writes_initVals {l : List (Nat × ConstExpr w)}
    (h : ∀ p ∈ l, Writes (dataSerialize p.2) p.2.type.size p.2.SlotAt) {i : Nat} {f : Writer w}
    (hf : initVals (writers l) i = some f) : ∃ e, (i, e) ∈ l ∧ initVals l i = some e ∧
      Writes f e.type.size fun k a => ∃ e', initVals l i = some e' ∧ e'.SlotAt k a := by
  rw [writers_eq, initVals_map] at hf
  obtain ⟨e, he, rfl⟩ := Option.map_eq_some_iff.mp hf
  have hmem := mem_of_initVals he
  refine ⟨e, hmem, he, (h _ hmem).congr (fun b => rfl) fun k a => ?_⟩
  simp [he]

theorem initVals_writers_none {l : List (Nat × ConstExpr w)} {i : Nat}
    (h : initVals (writers l) i = none) (k : Nat) (a : DataAddr w) :
    ¬∃ e, initVals l i = some e ∧ e.SlotAt k a := by
  rw [writers_eq, initVals_map, Option.map_eq_none_iff] at h
  simp [h]

/-- A constant of a type appends as many bytes as the type has, and its addresses. -/
theorem ConstExpr.Typed.writes {e : ConstExpr w} (h : e.Typed) :
    Writes (dataSerialize e) e.type.size e.SlotAt := by
  induction h with
  | none => exact Writes.zeros fun o a h => nomatch h
  | int => exact Writes.bytes (length_leBytes _ _) fun o a h => nomatch h
  | ptr => exact Writes.bytes (length_leBytes _ _) fun o a h => nomatch h
  | procImm => exact Writes.bytes (length_leBytes _ _) fun o a h => nomatch h
  | @memAddr n a =>
    refine (Writes.slot a).congr (fun b => rfl) fun o a' => ?_
    constructor
    · rintro ⟨rfl, rfl⟩
      exact .memAddr
    · rintro ⟨⟩
      exact ⟨rfl, rfl⟩
  | @strLit i s =>
    have hsize : (s ++ [0]).length = 1 * (s.length + 1) := by simp
    refine (Writes.bytes hsize (S := fun _ _ => False) fun _ _ => id).congr (fun b => ?_)
      fun o a => ?_
    · simp [dataSerialize]
    · exact ⟨False.elim, fun h => nomatch h⟩
  | floatLit => exact Writes.bytes (length_leBytes _ _) fun o a h => nomatch h
  | @proc s =>
    refine (Writes.slot ⟨.sym s, 0⟩).congr (fun b => rfl) fun o a' => ?_
    constructor
    · rintro ⟨rfl, rfl⟩
      exact .proc
    · rintro ⟨⟩
      exact ⟨rfl, rfl⟩
  | @arrayInit elem n initzers hlaid htype _ ih =>
    have hall : (initzers.all fun p => p.1 < n) = true := by
      simpa using fun i e hp => (htype (i, e) hp).1
    have hw := writes_elems (S := fun i k a => ∃ e, initVals initzers i = some e ∧ e.SlotAt k a) n 0
      (fun j f hf => by
        obtain ⟨e, hmem, -, hw⟩ := writes_initVals ih hf
        exact (htype _ hmem).2 ▸ hw) (fun j hj => initVals_writers_none hj)
    rw [Nat.mul_comm] at hw
    refine hw.congr (fun b => ?_) fun o a => ?_
    · rw [dataSerialize, if_pos hall]
    · constructor
      · rintro ⟨j, k, hj, rfl, e, he, h⟩
        exact .elem hj (by simpa using he) h
      · rintro ⟨⟩
        rename_i i k e hi he h
        exact ⟨i, k, hi, rfl, e, by simpa using he, h⟩
  | @structInit fields size align fieldExprs hlaid htype _ ih =>
    have hplaced : Placed (dataItems fields) (fields.map (·.offset.toNat)) 0 size := by
      cases hlaid with
      | struct _ _ h => exact h
    obtain ⟨stop, g, heq, -, hstop, hw⟩ := writes_fields (i := 0)
      (S := fun i k a => ∃ e, initVals fieldExprs i = some e ∧ e.SlotAt k a) hplaced
      (fun j f g hf hg => by
        obtain ⟨e, hmem, -, hw⟩ := writes_initVals ih hg
        obtain ⟨f', hf', ht⟩ := htype _ hmem
        rw [Nat.zero_add, hf] at hf'
        cases hf'
        exact ht ▸ hw) (fun j hj => initVals_writers_none hj)
    have hrest := hw.seq (Writes.zeros (w := w) (n := size - stop) (S := fun _ _ => False)
      fun _ _ => id)
    have hlen : stop - 0 + (size - stop) = size := by omega
    rw [hlen] at hrest
    refine hrest.congr (fun b => ?_) fun o a => ?_
    · rw [dataSerialize, heq]
      cases g b <;> rfl
    · constructor
      · rintro (⟨j, f, k, hf, ho, e, he, h⟩ | ⟨k, -, h⟩)
        · rw [Nat.zero_add] at ho he
          subst ho
          exact .field hf he h
        · exact absurd h id
      · rintro ⟨⟩
        rename_i i k f e hf he h
        exact .inl ⟨i, f, k, hf, by rw [Nat.zero_add], e, by rwa [Nat.zero_add], h⟩
  | unionZero =>
    refine (Writes.zeros (S := fun _ _ => False) fun _ _ => id).congr (fun b => ?_) fun o a => ?_
    · rfl
    · exact ⟨False.elim, fun h => nomatch h⟩
  | @unionInit fields size align i f e hlaid hf ht _ ih =>
    have hsize : f.type.size ≤ size := by
      cases hlaid with
      | union _ _ h => exact h f (List.mem_of_getElem? hf)
    have hrest := ih.seq (Writes.zeros (w := w) (n := size - f.type.size) (S := fun _ _ => False)
      fun _ _ => id)
    have hlen : e.type.size + (size - f.type.size) = size := by
      rw [ht]
      omega
    rw [hlen] at hrest
    refine hrest.congr (fun b => ?_) fun o a => ?_
    · simp [dataSerialize, writers, hf]
    · constructor
      · rintro (h | ⟨k, -, h⟩)
        · exact .unionField h
        · exact absurd h id
      · rintro ⟨⟩
        rename_i h
        exact .inl h

end Nibble.Data
