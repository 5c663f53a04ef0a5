import Nibble.Data.Image

/-!
# Where global data is placed

The variables of the data section and the literals of the read-only section are
placed one after another, each at the next offset that its alignment divides.
The data section is itself aligned for its first variable only, so the other
variables are aligned exactly if their alignments divide the first one's.
-/

namespace Nibble.Data

open Nibble.Ast (PowerOfTwo)
open Nibble.Lib

variable {w : Nat}

/-- Constants as items to place. -/
def constItems (es : List (ConstExpr w)) : List Item :=
  es.map fun e => ⟨e.type.size, e.type.align⟩

/-- An address of one of the constants, at offset `o` of the section. -/
def SectionSlot (es : List (ConstExpr w)) (offs : List Nat) (o : Nat) (a : DataAddr w) : Prop :=
  ∃ (k : Nat) (e : ConstExpr w) (off j : Nat),
    es[k]? = some e ∧ offs[k]? = some off ∧ o = off + j ∧ e.SlotAt j a

theorem constItems_pos {es : List (ConstExpr w)} (h : ∀ e ∈ es, e.Typed) :
    ∀ i ∈ constItems es, 0 < i.align := by
  intro i hi
  obtain ⟨e, he, rfl⟩ := List.mem_map.mp hi
  exact (h e he).laid.align.pos

theorem addDataItem_spec {e : ConstExpr w} (he : e.Typed) (b : DataBuf w) :
    ∃ bs ss, addDataItem e b = some (alignUp b.len e.type.align,
        ⟨b.bytes ++ bs, b.relocs ++ ss.map (slotReloc b.len)⟩) ∧
      b.len + bs.length = alignUp b.len e.type.align + e.type.size ∧ SlotsIn ss bs.length ∧
      ∀ o a, (o, a) ∈ ss ↔ ∃ j, b.len + o = alignUp b.len e.type.align + j ∧ e.SlotAt j a := by
  have hle := le_alignUp b.len he.laid.align.pos
  have hpad := Writes.zeros (w := w) (n := alignUp b.len e.type.align - b.len)
    (S := fun _ _ => False) fun _ _ => id
  obtain ⟨bs, ss, heq, hlen, hin, hmem⟩ := hpad.seq he.writes
  refine ⟨bs, ss, ?_, by omega, hlen ▸ hin, fun o a => ?_⟩
  · have hb := heq b
    simp only [Option.bind_eq_bind, Option.bind_some] at hb
    rw [addDataItem]
    simp only [hb, Nat.add_sub_cancel' hle, Option.bind_eq_bind, Option.bind_some]
    rfl
  · rw [hmem]
    constructor
    · rintro (h | ⟨j, rfl, h⟩)
      · exact absurd h id
      · exact ⟨j, by omega, h⟩
    · rintro ⟨j, ho, h⟩
      exact .inr ⟨j, by omega, h⟩

/-- The constants are placed one after another. -/
theorem addDataItems_spec {es : List (ConstExpr w)} (hes : ∀ e ∈ es, e.Typed) (b : DataBuf w) :
    ∃ bs ss, addDataItems es b = some (place (constItems es) b.len,
        ⟨b.bytes ++ bs, b.relocs ++ ss.map (slotReloc b.len)⟩) ∧
      b.len + bs.length = placeEnd (constItems es) b.len ∧ SlotsIn ss bs.length ∧
      ∀ o a, (o, a) ∈ ss ↔ SectionSlot es (place (constItems es) b.len) (b.len + o) a := by
  induction es generalizing b with
  | nil =>
    refine ⟨[], [], by simp [addDataItems, constItems, place], rfl, ⟨by simp, .nil⟩, fun o a => ?_⟩
    simp [SectionSlot]
  | cons e es ih =>
    obtain ⟨bs, ss, heq, hlen, hin, hmem⟩ := addDataItem_spec (hes e List.mem_cons_self) b
    obtain ⟨bs', ss', heq', hlen', hin', hmem'⟩ := ih
      (fun e' he' => hes e' (List.mem_cons_of_mem e he'))
      ⟨b.bytes ++ bs, b.relocs ++ ss.map (slotReloc b.len)⟩
    have hbase : (⟨b.bytes ++ bs, b.relocs ++ ss.map (slotReloc b.len)⟩ : DataBuf w).len =
        b.len + bs.length := by simp [DataBuf.len]
    rw [hbase] at heq' hlen' hmem'
    rw [hlen] at hlen'
    refine ⟨bs ++ bs', ss ++ shiftSlots bs.length ss', ?_, ?_, ?_, fun o a => ?_⟩
    · rw [addDataItems, heq]
      simp only [Option.bind_eq_bind, Option.bind_some, heq', constItems, List.map_cons, place,
        List.map_append, map_slotReloc_shiftSlots, List.append_assoc, hlen]
      rfl
    · rw [List.length_append, ← Nat.add_assoc, hlen, hlen']
      rfl
    · rw [List.length_append]
      exact hin.append hin'
    · rw [List.mem_append, hmem, mem_shiftSlots]
      simp only [hmem']
      constructor
      · rintro (⟨j, ho, h⟩ | ⟨o', rfl, k, e', off, j, hk, hoff, ho, h⟩)
        · exact ⟨0, e, _, j, rfl, rfl, ho, h⟩
        · rw [hlen] at hoff
          exact ⟨k + 1, e', off, j, hk, hoff, by omega, h⟩
      · rintro ⟨k, e', off, j, hk, hoff, ho, h⟩
        cases k with
        | zero =>
          cases hk
          cases hoff
          exact .inl ⟨j, ho, h⟩
        | succ k =>
          have hk' : es[k]? = some e' := hk
          have hoff' : (place (constItems es) (b.len + bs.length))[k]? = some off := by
            rw [hlen]
            exact hoff
          have hitem : (constItems es)[k]? = some ⟨e'.type.size, e'.type.align⟩ := by
            simp [constItems, hk']
          have hpos := constItems_pos fun e' he' => hes e' (List.mem_cons_of_mem e he')
          have hlo := ((placed_place _ hpos).get hitem hoff').2.1
          exact .inr ⟨o - bs.length, by omega, k, e', off, j, hk', hoff', by omega, h⟩

/-! ## Sections -/

theorem initDataSection_spec {vars : List (ConstExpr w)} (hv : ∀ e ∈ vars, e.Typed) :
    ∃ data ss, initDataSection vars = some data ∧
      data.varOffs = place (constItems vars) 0 ∧
      data.buf.length = placeEnd (constItems vars) 0 ∧
      data.align = (vars.head?.map (·.type.align)).getD 0 ∧
      data.relocs = ss.map (slotReloc 0) ∧ SlotsIn ss data.buf.length ∧
      ∀ o a, (o, a) ∈ ss ↔ SectionSlot vars data.varOffs o a := by
  cases vars with
  | nil =>
    refine ⟨⟨[], 0, [], []⟩, [], rfl, rfl, rfl, rfl, rfl, ⟨by simp, .nil⟩, fun o a => ?_⟩
    simp [SectionSlot]
  | cons e es =>
    obtain ⟨bs, ss, heq, hlen, hin, hmem⟩ := addDataItems_spec hv ⟨[], []⟩
    refine ⟨_, ss, by rw [initDataSection, heq]; rfl, rfl, ?_, rfl, rfl, hin, fun o a => ?_⟩
    · simpa [DataBuf.len] using hlen
    · have h := hmem o a
      rw [show (⟨[], []⟩ : DataBuf w).len = 0 from rfl, Nat.zero_add] at h
      exact h

/-- Literals as items to place. -/
def strItems (strs : List (List UInt8)) : List Item := strs.map fun s => ⟨s.length + 1, 1⟩

theorem alignUp_one (n : Nat) : alignUp n 1 = n :=
  alignUp_of_dvd Nat.one_pos (Nat.one_dvd n)

theorem addStrs_spec (strs : List (List UInt8)) (bytes : List UInt8) :
    (addStrs strs bytes).1 = place (strItems strs) bytes.length ∧
      (addStrs strs bytes).2.length = placeEnd (strItems strs) bytes.length := by
  induction strs generalizing bytes with
  | nil => exact ⟨rfl, rfl⟩
  | cons s ss ih =>
    obtain ⟨h1, h2⟩ := ih (bytes ++ s ++ [0])
    have hlen : (bytes ++ s ++ [0]).length = alignUp bytes.length 1 + (s.length + 1) := by
      simp [alignUp_one]
    rw [hlen] at h1 h2
    refine ⟨?_, h2⟩
    simp only [addStrs, h1, strItems, List.map_cons, place, alignUp_one]

theorem floatItem_typed (f : FloatKind × BitVec 64) : (floatItem f).Typed := .floatLit

/-- All literals are placed one after another. -/
def literalItems (floats : List (FloatKind × BitVec 64)) (strs : List (List UInt8)) : List Item :=
  constItems (floats.map floatItem) ++ strItems strs

theorem initRodataSection_spec (floats : List (FloatKind × BitVec 64))
    (strs : List (List UInt8)) : ∃ ro, initRodataSection floats strs = some ro ∧ ro.align = 16 ∧
      ro.floatOffs ++ ro.strOffs = place (literalItems floats strs) 0 ∧
      ro.buf.length = placeEnd (literalItems floats strs) 0 := by
  have hf : ∀ e ∈ floats.map floatItem, e.Typed := by
    intro e he
    obtain ⟨f, -, rfl⟩ := List.mem_map.mp he
    exact floatItem_typed f
  obtain ⟨bs, ss, heq, hlen, -⟩ := addDataItems_spec hf ⟨[], []⟩
  have hbs : bs.length = placeEnd (constItems (floats.map floatItem)) 0 := by
    simpa [DataBuf.len] using hlen
  obtain ⟨h1, h2⟩ := addStrs_spec strs bs
  refine ⟨_, by rw [initRodataSection, heq]; rfl, rfl, ?_, ?_⟩
  · show place _ 0 ++ (addStrs strs bs).1 = _
    rw [h1, hbs, literalItems, place_append]
  · show (addStrs strs bs).2.length = _
    rw [h2, hbs, literalItems, placeEnd_append]

theorem length_strOffs {floats : List (FloatKind × BitVec 64)} {strs : List (List UInt8)}
    {ro : RODataSection} (h : initRodataSection floats strs = some ro) :
    ro.strOffs.length = strs.length := by
  obtain ⟨⟨floatOffs, b⟩, -, h⟩ := Option.bind_eq_some_iff.mp h
  cases h
  show (addStrs strs b.bytes).1.length = _
  rw [(addStrs_spec strs b.bytes).1, length_place, strItems, List.length_map]

/-! ## Alignment -/

/-- A global entity in memory. -/
structure Entity where
  addr : Nat
  size : Nat
  align : Nat

def Entity.Disjoint (a b : Entity) : Prop := a.addr + a.size ≤ b.addr ∨ b.addr + b.size ≤ a.addr

/-- The entities of a section whose address is `base`. -/
def entities (base : Nat) (is : List Item) (offs : List Nat) : List Entity :=
  List.zipWith (fun i o => ⟨base + o, i.size, i.align⟩) is offs

/-- Addresses of the two sections that their alignments permit. -/
structure LinkBases (data : DataSection w) (ro : RODataSection) where
  dataBase : Nat
  roBase : Nat
  dataAligned : data.align ∣ dataBase
  roAligned : ro.align ∣ roBase
  apart : dataBase + data.buf.length ≤ roBase ∨ roBase + ro.buf.length ≤ dataBase

/-- The variables and literals in memory. -/
def LinkBases.globals {data : DataSection w} {ro : RODataSection} (L : LinkBases data ro)
    (vars : List (ConstExpr w)) (floats : List (FloatKind × BitVec 64))
    (strs : List (List UInt8)) : List Entity :=
  entities L.dataBase (constItems vars) data.varOffs ++
    entities L.roBase (literalItems floats strs) (ro.floatOffs ++ ro.strOffs)

/-- Wherever the linker puts the sections, all entities are aligned and disjoint. -/
def GlobalsLaid (vars : List (ConstExpr w)) (floats : List (FloatKind × BitVec 64))
    (strs : List (List UInt8)) (data : DataSection w) (ro : RODataSection) : Prop :=
  ∀ L : LinkBases data ro, (∀ x ∈ L.globals vars floats strs, x.align ∣ x.addr) ∧
    (L.globals vars floats strs).Pairwise Entity.Disjoint

theorem entities_within {is : List Item} {os : List Nat} {lo hi : Nat} (h : Placed is os lo hi)
    (base : Nat) : ∀ x ∈ entities base is os, base + lo ≤ x.addr ∧ x.addr + x.size ≤ base + hi := by
  induction h with
  | nil => simp [entities]
  | @cons i _ o _ lo hi hle _ htail ih =>
    intro x hx
    have hhi := htail.le
    rcases List.mem_cons.mp hx with rfl | hx
    · show base + lo ≤ base + o ∧ base + o + i.size ≤ base + hi
      omega
    · have := ih x hx
      omega

theorem entities_disjoint {is : List Item} {os : List Nat} {lo hi : Nat} (h : Placed is os lo hi)
    (base : Nat) : (entities base is os).Pairwise Entity.Disjoint := by
  induction h with
  | nil => exact .nil
  | @cons i _ o _ _ _ hle _ htail ih =>
    refine List.pairwise_cons.mpr ⟨fun x hx => .inl ?_, ih⟩
    have := (entities_within htail base x hx).1
    show base + o + i.size ≤ x.addr
    omega

/-- Entities are aligned exactly if their alignments divide the address of the section. -/
theorem entities_aligned {is : List Item} {os : List Nat} {lo hi : Nat} (h : Placed is os lo hi)
    (base : Nat) : (∀ x ∈ entities base is os, x.align ∣ x.addr) ↔ ∀ i ∈ is, i.align ∣ base := by
  induction h with
  | nil => simp [entities]
  | @cons i is' o os' _ _ _ hd _ ih =>
    have hhead : i.align ∣ base + o ↔ i.align ∣ base := (Nat.dvd_add_left hd)
    rw [List.forall_mem_cons, ← ih, ← hhead]
    exact List.forall_mem_cons

theorem literalItems_align (floats : List (FloatKind × BitVec 64)) (strs : List (List UInt8)) :
    ∀ i ∈ literalItems floats strs, 0 < i.align ∧ i.align ∣ 16 := by
  intro i hi
  rcases List.mem_append.mp hi with hi | hi
  · simp only [constItems, List.map_map, List.mem_map, Function.comp_apply] at hi
    obtain ⟨⟨k, v⟩, -, rfl⟩ := hi
    show 0 < floatKindSize k ∧ floatKindSize k ∣ 16
    cases k <;> decide
  · obtain ⟨s, -, rfl⟩ := List.mem_map.mp hi
    exact ⟨Nat.one_pos, Nat.one_dvd 16⟩

/-- The linker can put the data section at any address its alignment permits. -/
theorem exists_linkBases (data : DataSection w) {ro : RODataSection} (hro : ro.align = 16)
    {n : Nat} (hn : data.align ∣ n) : ∃ L : LinkBases data ro, L.dataBase = n :=
  ⟨⟨n, alignUp (n + data.buf.length) 16, hn, by rw [hro]; exact dvd_alignUp _ 16,
    .inl (le_alignUp _ (by decide))⟩, rfl⟩

/-- The initial values and literals are placed, and they are aligned and disjoint for all addresses
of the sections exactly if the alignments of the variables divide the first variable's. -/
theorem globalsLaid_iff {vars : List (ConstExpr w)} (hv : ∀ e ∈ vars, e.Typed)
    (floats : List (FloatKind × BitVec 64)) (strs : List (List UInt8)) :
    ∃ data ro, initDataSection vars = some data ∧ initRodataSection floats strs = some ro ∧
      (GlobalsLaid vars floats strs data ro ↔
        ∀ e₀ ∈ vars.head?, ∀ e ∈ vars, e.type.align ∣ e₀.type.align) := by
  obtain ⟨data, -, hdata, hoffs, hlen, halign, -⟩ := initDataSection_spec hv
  obtain ⟨ro, hro, hroAlign, hroOffs, hroLen⟩ := initRodataSection_spec floats strs
  refine ⟨data, ro, hdata, hro, ?_⟩
  have hvars := placed_place 0 (constItems_pos hv)
  have hlits := placed_place 0 fun i hi => (literalItems_align floats strs i hi).1
  rw [← hoffs, ← hlen] at hvars
  rw [← hroOffs, ← hroLen] at hlits
  have hitems : (∀ i ∈ constItems vars, i.align ∣ data.align) ↔
      ∀ e₀ ∈ vars.head?, ∀ e ∈ vars, e.type.align ∣ e₀.type.align := by
    rw [halign]
    cases vars with
    | nil => simp [constItems]
    | cons e es => simp [constItems]
  rw [← hitems]
  constructor
  · intro h
    obtain ⟨L, hL⟩ := exists_linkBases data hroAlign (Nat.dvd_refl data.align)
    have halL := fun x hx => (h L).1 x (List.mem_append_left _ hx)
    rw [entities_aligned hvars, hL] at halL
    exact halL
  · intro h L
    have hl : ∀ i ∈ literalItems floats strs, i.align ∣ L.roBase := fun i hi =>
      Nat.dvd_trans (literalItems_align floats strs i hi).2 (hroAlign ▸ L.roAligned)
    constructor
    · intro x hx
      rcases List.mem_append.mp hx with hx | hx
      · exact (entities_aligned hvars L.dataBase).mpr
          (fun i hi => Nat.dvd_trans (h i hi) L.dataAligned) x hx
      · exact (entities_aligned hlits L.roBase).mpr hl x hx
    · refine List.pairwise_append.mpr ⟨entities_disjoint hvars _, entities_disjoint hlits _, ?_⟩
      intro x hx y hy
      have h1 := entities_within hvars _ x hx
      have h2 := entities_within hlits _ y hy
      unfold Entity.Disjoint
      rcases L.apart with hapart | hapart <;> omega

/-- A byte before a word. -/
def byteThenWord : List (ConstExpr 32) := [.imm (.int 1) 7, .imm (.int 8) 9]

theorem byteThenWord_typed : ∀ e ∈ byteThenWord, e.Typed := by
  intro e he
  rcases List.mem_cons.mp he with rfl | he
  · exact .int ⟨0, rfl⟩
  · obtain rfl := List.mem_singleton.mp he
    exact .int ⟨3, rfl⟩

theorem globalsLaid_byteThenWord : ∃ data ro, initDataSection byteThenWord = some data ∧
    initRodataSection [] [] = some ro ∧ (GlobalsLaid byteThenWord [] [] data ro ↔
      ∀ e₀ ∈ byteThenWord.head?, ∀ e ∈ byteThenWord, e.type.align ∣ e₀.type.align) :=
  globalsLaid_iff byteThenWord_typed [] []

/-- With the data section at address 1, the word is at address 9. -/
theorem not_globalsLaid_byteThenWord : ∃ data ro, initDataSection byteThenWord = some data ∧
    initRodataSection [] [] = some ro ∧ ¬GlobalsLaid byteThenWord [] [] data ro := by
  refine ⟨_, _, rfl, rfl, fun h => ?_⟩
  have h9 := (h ⟨1, 32, by decide, by decide, by decide⟩).1 ⟨9, 8, 8⟩ (by
    show _ ∈ [_, _]
    exact List.mem_cons_of_mem _ (List.mem_singleton.mpr rfl))
  exact absurd h9 (by decide)

end Nibble.Data
