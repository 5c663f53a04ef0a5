import Nibble.X64.Reloc

/-!
# Every usage is recorded at its displacement

The buffer of a block is the code of its instructions one after the other, and
a usage is recorded with the offset of its displacement in the block. With the
final offset of the block that is its place in the text.
-/

namespace Nibble.X64

open Nibble.IR (SymId)
open Nibble.Lib

/-! ## Recording -/

/-- Recorded usages are kept, and kept in order. -/
def Usages.Le (u u' : Usages) : Prop :=
  u.relocs <+: u'.relocs ∧ u.procOffPatches <+: u'.procOffPatches

theorem Usages.Le.refl (u : Usages) : u.Le u := ⟨List.prefix_refl _, List.prefix_refl _⟩

theorem Usages.Le.trans {u v w : Usages} (h : u.Le v) (h' : v.Le w) : u.Le w :=
  ⟨h.1.trans h'.1, h.2.trans h'.2⟩

/-- The array a usage of an entity goes to. -/
def Usages.usagesOf (symKind : SymId → SymKind) (u : Usages) (entity : ConstAddr) :
    List InternalReloc :=
  if isProcUse symKind entity then u.procOffPatches else u.relocs

theorem Usages.Le.mem {symKind : SymId → SymKind} {u u' : Usages} {entity : ConstAddr}
    {r : InternalReloc} (h : u.Le u') (hr : r ∈ u.usagesOf symKind entity) :
    r ∈ u'.usagesOf symKind entity := by
  unfold Usages.usagesOf at *
  split
  · rename_i hp
    rw [if_pos hp] at hr
    exact h.2.subset hr
  · rename_i hp
    rw [if_neg hp] at hr
    exact h.1.subset hr

section

variable {symKind : SymId → SymKind} {index : Nat}

theorem record_eq (u : Usages) (offset : Nat) (entity : ConstAddr) :
    u.record symKind index offset entity =
      if isProcUse symKind entity then
        { u with procOffPatches :=
            u.procOffPatches ++ [⟨index, BitVec.ofNat 32 offset, 4, entity⟩] }
      else { u with relocs := u.relocs ++ [⟨index, BitVec.ofNat 32 offset, 4, entity⟩] } := by
  cases entity with
  | strLit i => rfl
  | floatLit i => rfl
  | sym s => cases hk : symKind s <;> simp [Usages.record, isProcUse, hk]

theorem record_spec (u : Usages) (offset : Nat) (entity : ConstAddr) :
    u.Le (u.record symKind index offset entity) ∧
      ⟨index, BitVec.ofNat 32 offset, 4, entity⟩ ∈
        (u.record symKind index offset entity).usagesOf symKind entity := by
  rw [record_eq]
  unfold Usages.usagesOf
  by_cases hp : isProcUse symKind entity = true
  · rw [if_pos hp, if_pos hp]
    exact ⟨⟨List.prefix_refl _, List.prefix_append _ _⟩, by simp⟩
  · rw [if_neg hp, if_neg hp]
    exact ⟨⟨List.prefix_append _ _, List.prefix_refl _⟩, by simp⟩

/-- The bytes an instruction adds to its block. -/
def Instr.bytes (i : Instr) : List UInt8 := ((genCode i).map Code.bytes).getD []

/-- The bytes of instructions. -/
def codeBytes (is : List Instr) : List UInt8 := (is.map Instr.bytes).flatten

theorem genCode_jmp {i : Instr} {j : JmpInstr} (h : i.jmpInstr = some j) : genCode i = none := by
  cases i <;> first | rfl | cases h

theorem genInstr_spec {s s' : TextBBlock × Usages} {i : Instr}
    (h : genInstr symKind index s i = some s') :
    s'.1.buffer = s.1.buffer ++ i.bytes ∧ s.2.Le s'.2 := by
  unfold genInstr at h
  cases hj : i.jmpInstr with
  | some j =>
    simp only [hj] at h
    split at h
    · cases h
    · cases h
      simp [Instr.bytes, genCode_jmp hj, Usages.Le.refl]
  | none =>
    simp only [hj] at h
    obtain ⟨c, hc, rfl⟩ := Option.map_eq_some_iff.mp h
    refine ⟨by simp [writeCode, Instr.bytes, hc], ?_⟩
    unfold writeCode
    cases c.disp with
    | bytes bs => exact Usages.Le.refl _
    | patched entity => exact (record_spec _ _ _).1

theorem foldlM_genInstr {is : List Instr} {s s' : TextBBlock × Usages}
    (h : is.foldlM (genInstr symKind index) s = some s') :
    s'.1.buffer = s.1.buffer ++ codeBytes is ∧ s.2.Le s'.2 := by
  induction is generalizing s with
  | nil =>
    cases h
    simp [codeBytes, Usages.Le.refl]
  | cons i is ih =>
    rw [List.foldlM_cons] at h
    obtain ⟨s₁, h₁, h⟩ := Option.bind_eq_some_iff.mp h
    obtain ⟨hb₁, hu₁⟩ := genInstr_spec h₁
    obtain ⟨hb, hu⟩ := ih h
    refine ⟨?_, hu₁.trans hu⟩
    rw [hb, hb₁]
    simp [codeBytes]

/-- The usage of an instruction is recorded at its displacement. -/
theorem foldlM_recorded {pre post : List Instr} {i : Instr} {c : Code} {entity : ConstAddr}
    {s s' : TextBBlock × Usages} (hc : genCode i = some c) (hd : c.disp = .patched entity)
    (h : (pre ++ i :: post).foldlM (genInstr symKind index) s = some s') :
    ⟨index, BitVec.ofNat 32 (s.1.buffer.length + (codeBytes pre).length + c.head.length), 4,
      entity⟩ ∈ s'.2.usagesOf symKind entity := by
  rw [List.foldlM_append] at h
  obtain ⟨s₁, h₁, h⟩ := Option.bind_eq_some_iff.mp h
  rw [List.foldlM_cons] at h
  obtain ⟨s₂, h₂, h⟩ := Option.bind_eq_some_iff.mp h
  have hb₁ := (foldlM_genInstr h₁).1
  apply (foldlM_genInstr h).2.mem
  unfold genInstr at h₂
  cases hj : i.jmpInstr with
  | some j =>
    rw [genCode_jmp hj] at hc
    cases hc
  | none =>
    simp only [hj, hc, Option.map_some, Option.some.injEq] at h₂
    subst h₂
    simp only [writeCode, hd]
    have hlen : s₁.1.buffer.length = s.1.buffer.length + (codeBytes pre).length := by
      rw [hb₁, List.length_append]
    rw [← hlen]
    exact (record_spec _ _ _).2

theorem genBBlocks_le {bblocks : List (List Instr)} {bs : List TextBBlock} {u u' : Usages}
    (h : genBBlocks symKind index u bblocks = some (bs, u')) : u.Le u' := by
  induction bblocks generalizing index u bs with
  | nil =>
    cases h
    exact Usages.Le.refl _
  | cons is rest ih =>
    simp only [genBBlocks, Option.bind_eq_bind, Option.bind_eq_some_iff] at h
    obtain ⟨⟨b, u₁⟩, hb, ⟨bs', u₂⟩, hrest, h⟩ := h
    cases h
    exact (foldlM_genInstr hb).2.trans (ih hrest)

/-- The blocks of a procedure, and the usages recorded for one of its instructions. -/
theorem genBBlocks_spec {bblocks : List (List Instr)} {bs : List TextBBlock} {u u' : Usages}
    (h : genBBlocks symKind index u bblocks = some (bs, u')) {k : Nat} {pre post : List Instr}
    {i : Instr} {c : Code} {entity : ConstAddr} (hk : bblocks[k]? = some (pre ++ i :: post))
    (hc : genCode i = some c) (hd : c.disp = .patched entity) :
    (∃ b, bs[k]? = some b ∧ b.buffer = codeBytes (pre ++ i :: post)) ∧
      ⟨index + k, BitVec.ofNat 32 ((codeBytes pre).length + c.head.length), 4, entity⟩ ∈
        u'.usagesOf symKind entity := by
  induction bblocks generalizing index u bs k with
  | nil => cases hk
  | cons is rest ih =>
    simp only [genBBlocks, Option.bind_eq_bind, Option.bind_eq_some_iff] at h
    obtain ⟨⟨b, u₁⟩, hb, ⟨bs', u₂⟩, hrest, h⟩ := h
    cases h
    cases k with
    | zero =>
      cases hk
      refine ⟨⟨b, rfl, (foldlM_genInstr hb).1⟩, (genBBlocks_le hrest).mem ?_⟩
      have hrec := foldlM_recorded hc hd hb
      simpa [TextBBlock.empty] using hrec
    | succ k =>
      have := ih hrest hk
      rwa [Nat.add_right_comm, Nat.add_assoc] at this

end

/-! ## The final text -/

theorem updateJmp_code {src : Nat} {bs : List TextBBlock} {b b' : TextBBlock} {c : Bool}
    (h : updateJmp src bs b = some (b', c)) : b'.code = b.code := by
  unfold updateJmp at h
  split at h
  · cases h
    rfl
  · obtain ⟨offset, -, h⟩ := Option.bind_eq_some_iff.mp h
    split at h
    · dsimp only at h
      split at h
      · cases h
      · cases h
        rfl
    · cases h
      rfl

theorem updateStep_code {i : Nat} {bs bs' : List TextBBlock} {c : Bool}
    (h : updateStep i bs = some (bs', c)) :
    bs'.map TextBBlock.code = bs.map TextBBlock.code := by
  simp only [updateStep, Option.bind_eq_bind, Option.bind_eq_some_iff] at h
  obtain ⟨b, hb, ⟨b', c'⟩, hu, h⟩ := h
  cases h
  apply List.ext_getElem?
  intro k
  rw [List.getElem?_map, List.getElem?_map]
  by_cases hk : k = i
  · subst hk
    rw [getElem?_set_of_some hb, hb]
    simp [updateJmp_code hu]
  · rw [getElem?_set_of_ne hk]

/-- Relaxation keeps the code of the blocks. -/
theorem relaxJmps_code {fuel : Nat} {bs fin : List TextBBlock} (h : relaxJmps fuel bs = some fin) :
    fin.map TextBBlock.code = bs.map TextBBlock.code :=
  sweepLoop_keeps (I := fun cs => cs.map TextBBlock.code = bs.map TextBBlock.code)
    (fun _ _ _ _ hI hstep => (updateStep_code hstep).trans hI) rfl h

theorem serialize_some {bs : List TextBBlock} {buffer out : List UInt8} {offsets : List Nat}
    (h : serialize buffer bs = some (out, offsets)) :
    out = buffer ++ (bs.map TextBBlock.bytes).flatten ∧
      offsets = finalOffsets buffer.length bs := by
  induction bs generalizing buffer out offsets with
  | nil =>
    cases h
    simp [finalOffsets]
  | cons b bs ih =>
    unfold serialize at h
    split at h
    · cases h
    · simp only [Option.bind_eq_bind, Option.bind_eq_some_iff] at h
      obtain ⟨⟨out', offsets'⟩, hrest, h⟩ := h
      cases h
      obtain ⟨hout, hoffs⟩ := ih hrest
      rw [hout, hoffs]
      simp [finalOffsets]

theorem mem_of_mapM {α β : Type} {f : α → Option β} {l : List α} {l' : List β}
    (h : l.mapM f = some l') {a : α} (ha : a ∈ l) : ∃ b ∈ l', f a = some b := by
  induction l generalizing l' with
  | nil => cases ha
  | cons x l ih =>
    simp only [List.mapM_cons, Option.bind_eq_bind, Option.bind_eq_some_iff] at h
    obtain ⟨y, hy, ys, hys, h⟩ := h
    cases h
    rcases List.mem_cons.mp ha with rfl | ha
    · exact ⟨y, List.mem_cons_self, hy⟩
    · obtain ⟨b, hb, hfb⟩ := ih hys ha
      exact ⟨b, List.mem_cons_of_mem _ hb, hfb⟩

/-- The final offsets of the blocks of a procedure. -/
def bblockOffsets (fuel : Nat) (symKind : SymId → SymKind) (bblocks : List (List Instr))
    (buffer : List UInt8) : Option (List Nat) := do
  let (text, _) ← genBBlocks symKind 0 ⟨[], []⟩ bblocks
  let text ← relaxJmps fuel text
  let (_, offsets) ← serialize buffer text
  pure offsets

/-- The array of a procedure that the usages of an entity are in. -/
def TextOut.usagesOf (symKind : SymId → SymKind) (o : TextOut) (entity : ConstAddr) :
    List TextReloc :=
  if isProcUse symKind entity then o.procOffPatches else o.relocs

/-- An instruction in the final text, and its recorded usage. -/
theorem elfGenInstrs_spec {fuel : Nat} {symKind : SymId → SymKind} {bblocks : List (List Instr)}
    {o o' : TextOut} (h : elfGenInstrs fuel symKind bblocks o = some o') {k : Nat}
    {pre post : List Instr} {i : Instr} {c : Code} {entity : ConstAddr}
    (hk : bblocks[k]? = some (pre ++ i :: post)) (hc : genCode i = some c)
    (hd : c.disp = .patched entity) :
    ∃ offsets start r, bblockOffsets fuel symKind bblocks o.buffer = some offsets ∧
      offsets[k]? = some start ∧ c.bytes <+: o'.buffer.drop (start + (codeBytes pre).length) ∧
      InternalReloc.toText offsets ⟨k, BitVec.ofNat 32 ((codeBytes pre).length + c.head.length), 4,
        entity⟩ = some r ∧ r ∈ o'.usagesOf symKind entity := by
  simp only [elfGenInstrs, Option.bind_eq_bind, Option.bind_eq_some_iff] at h
  obtain ⟨⟨text, u⟩, hgen, fin, hrel, ⟨out, offsets⟩, hser, relocs, hrelocs, patches, hpatches, h⟩ :=
    h
  cases h
  obtain ⟨⟨b, hb, hbuf⟩, hrec⟩ := genBBlocks_spec hgen hk hc hd
  rw [Nat.zero_add] at hrec
  obtain ⟨b', hb', hcode⟩ := getElem?_of_code (relaxJmps_code hrel).symm hb
  obtain ⟨rfl, rfl⟩ := serialize_some hser
  have hstart := finalOffsets_getElem? o.buffer.length fin (List.getElem?_eq_some_iff.mp hb').1
  have hbuf' : b'.buffer = codeBytes pre ++ (c.bytes ++ codeBytes post) := by
    have hbb : b'.buffer = b.buffer := by
      simp only [TextBBlock.code, Prod.mk.injEq] at hcode
      exact hcode.1.symm
    rw [hbb, hbuf]
    simp [codeBytes, Instr.bytes, hc]
  obtain ⟨r, hr, hmem⟩ : ∃ r, InternalReloc.toText (finalOffsets o.buffer.length fin)
      ⟨k, BitVec.ofNat 32 ((codeBytes pre).length + c.head.length), 4, entity⟩ = some r ∧
      r ∈ if isProcUse symKind entity then patches else relocs := by
    unfold Usages.usagesOf at hrec
    by_cases hp : isProcUse symKind entity = true
    · rw [if_pos hp] at hrec ⊢
      obtain ⟨r, hr, htext⟩ := mem_of_mapM hpatches hrec
      exact ⟨r, htext, hr⟩
    · rw [if_neg hp] at hrec ⊢
      obtain ⟨r, hr, htext⟩ := mem_of_mapM hrelocs hrec
      exact ⟨r, htext, hr⟩
  refine ⟨finalOffsets o.buffer.length fin, _, r, ?_, hstart, ?_, hr, ?_⟩
  · simp [bblockOffsets, hgen, hrel, hser]
  · have hdrop := @drop_blockStart fin o.buffer k b' hb'
    rw [← List.drop_drop]
    show _ <+: List.drop _ (List.drop _ (o.buffer ++ (fin.map TextBBlock.bytes).flatten))
    rw [hdrop, TextBBlock.bytes, hbuf', List.append_assoc, List.append_assoc, List.drop_left,
      List.append_assoc]
    exact List.prefix_append _ _
  · unfold TextOut.usagesOf
    split
    · rename_i hp
      rw [if_pos hp] at hmem
      exact List.mem_append_right _ hmem
    · rename_i hp
      rw [if_neg hp] at hmem
      exact List.mem_append_right _ hmem

/-! ## Immediates behind the displacement -/

theorem memForm_imm {pre opcode imm : List UInt8} {w no8h : Bool} {reg : Nat} {addr : SibdAddr}
    {c : Code} (h : memForm pre w no8h opcode reg addr imm = some c) : c.imm = imm := by
  simp only [memForm, Option.bind_eq_bind, Option.bind_eq_some_iff] at h
  obtain ⟨a, -, d, -, h⟩ := h
  cases h
  rfl

theorem length_immBytes (size : Size) (imm : BitVec 32) :
    0 < (immBytes size imm).length ∧ (immBytes size imm).length ≤ 8 := by
  unfold immBytes
  split
  · rw [length_leBytes]
    omega
  · rw [length_leBytes]
    cases size <;> decide

/-- The immediate of code with a displacement to be patched is empty unless the instruction has
one. -/
theorem imm_of_patched {i : Instr} {c : Code} {entity : ConstAddr} (hc : genCode i = some c)
    (hd : c.disp = .patched entity) :
    c.imm.length ≤ 8 ∧ (c.imm = [] ↔ i.trailingImm = false) := by
  have hnil (himm : c.imm = []) (ht : i.trailingImm = false) :
      c.imm.length ≤ 8 ∧ (c.imm = [] ↔ i.trailingImm = false) := by
    simp [himm, ht]
  have hcons (hpos : 0 < c.imm.length) (hle : c.imm.length ≤ 8) (ht : i.trailingImm = true) :
      c.imm.length ≤ 8 ∧ (c.imm = [] ↔ i.trailingImm = false) := by
    refine ⟨hle, ?_⟩
    rw [ht, ← List.length_eq_zero_iff]
    constructor
    · omega
    · intro h
      cases h
  cases i with
  | aluMI op size dst imm =>
    have himm := memForm_imm hc
    have hlen := length_immBytes size imm
    rw [← himm] at hlen
    exact hcons hlen.1 hlen.2 rfl
  | movMI size dst imm =>
    have himm := memForm_imm hc
    have hlen : c.imm.length = if size = .b8 then 4 else size.bytes := by
      rw [himm, length_leBytes]
    have hsize : 0 < (if size = .b8 then 4 else size.bytes) ∧
        (if size = .b8 then 4 else size.bytes) ≤ 8 := by
      cases size <;> decide
    exact hcons (by omega) (by omega) rfl
  | shiftMI op size dst imm =>
    simp only [genCode, shiftMI] at hc
    split at hc
    · rename_i h1
      exact hnil (memForm_imm hc) (by simp [Instr.trailingImm, h1])
    · rename_i h1
      obtain ⟨c', -, rfl⟩ := Option.map_eq_some_iff.mp hc
      have hlen : (leBytes 1 imm.toNat).length = 1 := length_leBytes _ _
      exact hcons (by show 0 < (leBytes 1 imm.toNat).length; omega)
        (by show (leBytes 1 imm.toNat).length ≤ 8; omega) (bne_iff_ne.mpr h1)
  | call p =>
    cases hc
    exact hnil rfl rfl
  | movsxdRM dstSize dst srcSize src =>
    simp only [genCode] at hc
    split at hc
    · exact hnil (memForm_imm hc) rfl
    · cases hc
  | callM | setccM | aluRM | aluMR | imulRM | raxM | shiftMR | unaryM | movRM | movMR
  | movExtRM | fltRM | movFltRM | movFltMR | movdquRM | movdquMR | cvtFltRM | cvtFltIntRM
  | cvtIntFltRM | ucomisRM | lea => exact hnil (memForm_imm hc) rfl
  | imulRI size dst imm =>
    simp only [genCode] at hc
    split at hc
    · cases hc
    · cases hc
      cases hd
  | imulRR size dst src =>
    simp only [genCode] at hc
    split at hc
    · cases hc
    · cases hc
      cases hd
  | movsxdRR dstSize dst srcSize src =>
    simp only [genCode] at hc
    split at hc
    · cases hc
      cases hd
    · cases hc
  | shiftRI op size dst imm =>
    simp only [genCode, shiftRI] at hc
    cases hc
    split at hd <;> cases hd
  | movRI size dst imm =>
    simp only [genCode, genMovRI] at hc
    cases hc
    split at hd
    · cases hd
    · split at hd <;> cases hd
  | _ =>
    cases hc
    try cases hd

/-! ## Instructions -/

theorem toInt_ofNat_iff (n : Nat) : (BitVec.ofNat 32 n).toInt = n ↔ n < 2147483648 := by
  rw [BitVec.toInt_eq_toNat_cond, BitVec.toNat_ofNat]
  constructor
  · intro h
    split at h <;> omega
  · intro h
    have hn : n % 2 ^ 32 = n := Nat.mod_eq_of_lt (by omega)
    rw [hn, if_pos (by omega)]

/-- An instruction that refers to a global entity accesses it exactly if it has no immediate behind
its displacement, the displacement is at a 31-bit offset of its block, and the entity is in
reach. -/
theorem accessesEntity_genInstrs_iff (L : Placement) (symKind : SymId → SymKind) (fuel : Nat)
    (bblocks : List (List Instr)) (o o' : TextOut)
    (h : elfGenInstrs fuel symKind bblocks o = some o') (k : Nat) (pre post : List Instr)
    (i : Instr) (c : Code) (entity : ConstAddr) (hk : bblocks[k]? = some (pre ++ i :: post))
    (hc : genCode i = some c) (hd : c.disp = .patched entity) :
    ∃ offsets start r, bblockOffsets fuel symKind bblocks o.buffer = some offsets ∧
      offsets[k]? = some start ∧ c.bytes <+: o'.buffer.drop (start + (codeBytes pre).length) ∧
      InternalReloc.toText offsets ⟨k, BitVec.ofNat 32 ((codeBytes pre).length + c.head.length), 4,
        entity⟩ = some r ∧ r ∈ o'.usagesOf symKind entity ∧
      (AccessesEntity L symKind o'.buffer (start + (codeBytes pre).length) c r ↔
        i.trailingImm = false ∧ (codeBytes pre).length + c.head.length < 2147483648 ∧
          L.reaches symKind (start + (codeBytes pre).length) c entity = true) := by
  obtain ⟨offsets, start, r, hoffs, hstart, hbytes, hr, hmem⟩ := elfGenInstrs_spec h hk hc hd
  refine ⟨offsets, start, r, hoffs, hstart, hbytes, hr, hmem, ?_⟩
  obtain ⟨himm, hempty⟩ := imm_of_patched hc hd
  simp only [InternalReloc.toText, hstart, Option.map_some, Option.some.injEq] at hr
  subst hr
  have hpos : 0 < c.bytes.length := by
    simp only [Code.bytes, hd, Disp.toBytes, List.length_append, length_leBytes]
    omega
  have hlen : start + (codeBytes pre).length + c.bytes.length ≤ o'.buffer.length := by
    have := hbytes.length_le
    rw [List.length_drop] at this
    omega
  rw [accessesEntity_iff rfl hd himm hlen, hempty]
  have hoff : ((start : Int) + (BitVec.ofNat 32 ((codeBytes pre).length + c.head.length)).toInt =
      (start + (codeBytes pre).length + c.head.length : Nat)) ↔
      (codeBytes pre).length + c.head.length < 2147483648 := by
    rw [← toInt_ofNat_iff]
    constructor <;> intro h <;> omega
  show _ = _ ∧ _ ∧ _ ↔ _
  rw [hoff]
  constructor
  · rintro ⟨h1, h2, h3⟩
    exact ⟨h2, h1, h3⟩
  · rintro ⟨h1, h2, h3⟩
    exact ⟨h2, h1, h3⟩

/-- A placement with the global variable of number 0 one page after the text. -/
def pageAfterText : Placement where
  textAddr := 0
  dataAddr := 4096
  rodataAddr := 8192
  foreignAddr := fun _ => 0
  strOffs := fun _ => 0
  floatOffs := fun _ => 0
  varOffs := fun _ => 0
  procOffs := fun _ => 0

/-- `mov eax, [rip + g]` behind a `ret`, with a jump before both. -/
theorem accessesEntity_movRM :
    ∃ r, AccessesEntity pageAfterText (fun _ => .var) [0xEB, 0x00, 0xC3, 0x8B, 0x05, 0, 0, 0, 0] 3
      ⟨[0x8B, 0x05], .patched (.sym 0), []⟩ r := by
  obtain ⟨offsets, start, r, hoffs, hstart, -, -, -, hiff⟩ :=
    accessesEntity_genInstrs_iff pageAfterText (fun _ => .var) 2
      [[.jmp 1], [.ret, .movRM .b4 .rax (.global 0)]] ⟨[], [], []⟩
      ⟨[0xEB, 0x00, 0xC3, 0x8B, 0x05, 0, 0, 0, 0], [⟨5, 4, .sym 0⟩], []⟩ (by decide) 1 [.ret] []
      (.movRM .b4 .rax (.global 0)) ⟨[0x8B, 0x05], .patched (.sym 0), []⟩ (.sym 0) rfl (by decide)
      rfl
  have hoffsets : bblockOffsets 2 (fun _ => .var)
      [[.jmp 1], [.ret, .movRM .b4 .rax (.global 0)]] [] = some [0, 2] := by decide
  rw [hoffsets] at hoffs
  cases hoffs
  cases hstart
  exact ⟨r, hiff.mpr ⟨rfl, by decide, by decide⟩⟩

/-- `cmp dword [rip + g], 5` accesses the bytes one after its operand. -/
theorem not_accessesEntity_cmp :
    ∃ o', elfGenInstrs 2 (fun _ => .var) [[.aluMI .cmp .b4 (.global 0) 5]] ⟨[], [], []⟩ = some o' ∧
      o'.relocs = [⟨2, 4, .sym 0⟩] ∧
      ¬ AccessesEntity pageAfterText (fun _ => .var) o'.buffer 0
        ⟨[0x83, 0x3D], .patched (.sym 0), [5]⟩ ⟨2, 4, .sym 0⟩ := by
  refine ⟨⟨[0x83, 0x3D, 0, 0, 0, 0, 5], [⟨2, 4, .sym 0⟩], []⟩, by decide, rfl, ?_⟩
  rw [accessesEntity_iff rfl rfl (by decide) (by decide)]
  rintro ⟨-, h, -⟩
  cases h

end Nibble.X64
