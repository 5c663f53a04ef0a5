import Nibble.Data.Address
import Nibble.Data.Section
import Nibble.Lib.Numbering
import Nibble.Lib.Words
import Nibble.X64.RelocExact

/-!
# Relocations of global data

Global symbols and literals are numbered in the order in which the compiler
meets them, each container for itself; the writer of the object file looks up
their offsets by these numbers. It takes every procedure for a local one, and
it knows only 32 bits of a displacement.
-/

namespace Nibble.Data

open Nibble.IR (SymId)
open Nibble.X64 (ConstAddr SymKind mem_of_mapM)
open Nibble.Ast (TypeAggregateField)
open Nibble.Lib

/-! ## Symbols and literals -/

/-- `vars`, `procs` and `foreign_procs` of the compiler's context. -/
structure Globals where
  vars : Numbering SymId
  procs : Numbering SymId
  foreignProcs : Numbering SymId

/-- `resolve_symbol` for a global symbol, which is resolved once. -/
def resolveSymbol (symKind : SymId → SymKind) (g : Globals) (s : SymId) : Globals :=
  match symKind s with
  | .var => { g with vars := g.vars.add s }
  | .proc => { g with procs := g.procs.add s }
  | .foreignProc => { g with foreignProcs := g.foreignProcs.add s }

def Globals.container (g : Globals) : SymKind → Numbering SymId
  | .var => g.vars
  | .proc => g.procs
  | .foreignProc => g.foreignProcs

/-- What the compiler hands to the generation of the object file. -/
structure Program where
  symKind : SymId → SymKind
  /-- The global symbols in the order in which they are resolved. -/
  decls : List SymId
  var : SymId → GlobalVar
  /-- The string literals in the order in which they are met. -/
  strs : List Nat
  strBytes : Nat → List UInt8
  floats : List (FloatKind × BitVec 64)
  /-- `proc_offs` of the text section. -/
  procOffs : List Nat

namespace Program

variable (P : Program)

def globals : Globals :=
  P.decls.foldl (resolveSymbol P.symKind) ⟨.empty, .empty, .empty⟩

/-- `str_lit->index`, given when `IR_emit_global_expr` or the emission of a procedure meets it. -/
def strNumbers : Numbering Nat := Numbering.empty.run P.strs

/-- `sym->as_var.index` or `sym->as_proc.index`. -/
def index (s : SymId) : Nat := (P.globals.container (P.symKind s)).index s

/-- `IR_build_vars`. -/
def buildVars (w : Nat) : Option (List (ConstExpr w)) :=
  P.globals.vars.list.mapM fun s => buildVar w P.symKind (P.var s)

def initRodata : Option RODataSection :=
  initRodataSection P.floats (P.strNumbers.list.map P.strBytes)

end Program

/-! ## The object file -/

/-- The symbols of the sections. -/
inductive SectionSym where
  | rodata | data | text
  deriving DecidableEq, Repr

/-- `Elf64_Rela` of type `R_X86_64_64`. -/
structure DataRela where
  offset : BitVec 64
  sym : SectionSym
  addend : BitVec 64
  deriving DecidableEq, Repr

section

variable (P : Program) (varOffs strOffs : List Nat)

/-- The entry of a relocation in `.rela.data`. `none` is an index behind the end of its table, a
failed assertion or a fatal error. -/
def relaData (r : DataReloc 32) : Option DataRela :=
  let disp := r.refAddr.disp.setWidth 64
  let offset := r.usageOff.setWidth 64
  match r.refAddr.entity with
  | .strLit i => do
    let off ← strOffs[P.strNumbers.index i]?
    return ⟨offset, .rodata, BitVec.ofNat 64 off + disp⟩
  | .sym s =>
    match P.symKind s with
    | .var => do
      let off ← varOffs[P.index s]?
      return ⟨offset, .data, BitVec.ofNat 64 off + disp⟩
    | .proc | .foreignProc => do
      let off ← P.procOffs[P.index s]?
      if r.refAddr.disp = 0 then return ⟨offset, .text, BitVec.ofNat 64 off⟩ else none
  | .floatLit _ => none

/-- Where the linker puts the sections and finds foreign procedures. -/
structure LinkAddrs where
  rodata : BitVec 64
  data : BitVec 64
  text : BitVec 64
  foreign : SymId → BitVec 64

def LinkAddrs.sectionAddr (L : LinkAddrs) : SectionSym → BitVec 64
  | .rodata => L.rodata
  | .data => L.data
  | .text => L.text

/-- What the linker stores for an entry, `S + A`, and where. -/
def LinkAddrs.word (L : LinkAddrs) (r : DataRela) : Nat × BitVec 64 :=
  (r.offset.toNat, L.sectionAddr r.sym + r.addend)

/-- The linked data section. The size of a section is written in 32 bits. -/
def linkData (L : LinkAddrs) (data : DataSection 32) : Option (List UInt8) := do
  let relas ← data.relocs.mapM (relaData P varOffs strOffs)
  writeWords (relas.map L.word) (data.buf.take (data.buf.length % 2 ^ 32))

/-- The address of an entity. -/
def entityAddr (L : LinkAddrs) : ConstAddr → Option (BitVec 64)
  | .strLit i => (strOffs[P.strNumbers.list.idxOf i]?).map (L.rodata + BitVec.ofNat 64 ·)
  | .sym s =>
    match P.symKind s with
    | .var => (varOffs[P.globals.vars.list.idxOf s]?).map (L.data + BitVec.ofNat 64 ·)
    | .proc => (P.procOffs[P.globals.procs.list.idxOf s]?).map (L.text + BitVec.ofNat 64 ·)
    | .foreignProc => some (L.foreign s)
  | .floatLit _ => none

/-- In the linked section each address of an initial value is that of its entity plus the
displacement. -/
def SlotsResolve (vars : List (ConstExpr 64)) (data : DataSection 32) : Prop :=
  ∀ L : LinkAddrs, ∃ image, linkData P varOffs strOffs L data = some image ∧
    ∀ o a, SectionSlot vars varOffs o a → ∃ addr,
      entityAddr P varOffs strOffs L a.entity = some addr ∧ readWord image o = some (addr + a.disp)

end

/-- The entity is not a foreign procedure, the displacement fits 32 bits, and the slot is in the
part of the section that is written. -/
def SlotOk (P : Program) (size o : Nat) (a : DataAddr 64) : Prop :=
  (∀ s, a.entity = .sym s → P.symKind s ≠ .foreignProc) ∧ a.disp.toNat < 2 ^ 32 ∧
    o + 8 ≤ size % 2 ^ 32

/-! ## Numbers -/

theorem foldl_resolveSymbol_container (symKind : SymId → SymKind) (k : SymKind) (decls : List SymId)
    (g : Globals) : (decls.foldl (resolveSymbol symKind) g).container k =
      (g.container k).run (decls.filter fun s => symKind s = k) := by
  induction decls generalizing g with
  | nil => rfl
  | cons s decls ih =>
    rw [List.foldl_cons, ih, List.filter_cons]
    by_cases hk : symKind s = k
    · subst hk
      simp only [decide_true, if_true, Numbering.run, List.foldl_cons]
      unfold resolveSymbol
      cases symKind s <;> rfl
    · simp only [hk, decide_false, Bool.false_eq_true, if_false]
      unfold resolveSymbol
      cases hs : symKind s <;> cases k <;> first | rfl | exact absurd hs hk

namespace Program

variable {P : Program}

theorem container_eq (k : SymKind) : P.globals.container k =
    Numbering.empty.run (P.decls.filter fun s => P.symKind s = k) := by
  rw [globals, foldl_resolveSymbol_container]
  cases k <;> rfl

/-- A symbol is at its index in its container. -/
theorem index_spec {s : SymId} (hs : s ∈ P.decls) :
    s ∈ (P.globals.container (P.symKind s)).list ∧
      P.index s = (P.globals.container (P.symKind s)).list.idxOf s := by
  have hmem : s ∈ (P.globals.container (P.symKind s)).list := by
    rw [container_eq, Numbering.mem_run]
    exact .inr (List.mem_filter.mpr ⟨hs, by simp⟩)
  have hok : (P.globals.container (P.symKind s)).Ok := by
    rw [container_eq]
    exact Numbering.ok_empty.run _
  exact ⟨hmem, hok s hmem⟩

theorem strNumbers_spec {i : Nat} (hi : i ∈ P.strs) :
    i ∈ P.strNumbers.list ∧ P.strNumbers.index i = P.strNumbers.list.idxOf i := by
  have hmem : i ∈ P.strNumbers.list := Numbering.mem_run.mpr (.inr hi)
  exact ⟨hmem, Numbering.ok_empty.run P.strs i hmem⟩

end Program

/-! ## The linked section -/

theorem mapM_eq_map {α β : Type} {f : α → Option β} {g : α → β} {l : List α}
    (h : ∀ x ∈ l, f x = some (g x)) : l.mapM f = some (l.map g) := by
  induction l with
  | nil => rfl
  | cons x l ih =>
    rw [List.mapM_cons, h x List.mem_cons_self, ih fun y hy => h y (List.mem_cons_of_mem x hy)]
    rfl

section

variable {P : Program} {varOffs strOffs : List Nat}

theorem relaData_offset {r : DataReloc 32} {x : DataRela}
    (h : relaData P varOffs strOffs r = some x) : x.offset = r.usageOff.setWidth 64 := by
  unfold relaData at h
  split at h
  · obtain ⟨off, -, h⟩ := Option.bind_eq_some_iff.mp h
    cases h
    rfl
  · split at h
    · obtain ⟨off, -, h⟩ := Option.bind_eq_some_iff.mp h
      cases h
      rfl
    all_goals
      obtain ⟨off, -, h⟩ := Option.bind_eq_some_iff.mp h
      split at h <;> cases h
      rfl
  · cases h

/-- In the part of the section that is written, each slot holds what its entry says. -/
theorem linkData_spec {data : DataSection 32} {ss : List (Nat × DataAddr 32)}
    (hrelocs : data.relocs = ss.map (slotReloc 0))
    (hord : ss.Pairwise fun s t => s.1 + 8 ≤ t.1)
    (hin : ∀ s ∈ ss, s.1 + 8 ≤ data.buf.length % 2 ^ 32) {f : Nat × DataAddr 32 → DataRela}
    (hf : ∀ s ∈ ss, relaData P varOffs strOffs (slotReloc 0 s) = some (f s)) (L : LinkAddrs) :
    ∃ image, linkData P varOffs strOffs L data = some image ∧
      ∀ s ∈ ss, readWord image s.1 = some (L.word (f s)).2 := by
  have hoff : ∀ s ∈ ss, (L.word (f s)).1 = s.1 := by
    intro s hs
    have hlt := hin s hs
    have hmod := Nat.mod_lt data.buf.length (y := 2 ^ 32) (by decide)
    show (f s).offset.toNat = s.1
    rw [relaData_offset (hf s hs), slotReloc, Nat.zero_add, BitVec.toNat_setWidth,
      BitVec.toNat_ofNat]
    omega
  have hmap : data.relocs.mapM (relaData P varOffs strOffs) = some (ss.map f) := by
    rw [hrelocs, List.mapM_map]
    exact mapM_eq_map hf
  have hlen : (data.buf.take (data.buf.length % 2 ^ 32)).length = data.buf.length % 2 ^ 32 := by
    rw [List.length_take]
    exact Nat.min_eq_left (Nat.mod_le _ _)
  have hin' : ∀ w ∈ (ss.map f).map L.word,
      w.1 + 8 ≤ (data.buf.take (data.buf.length % 2 ^ 32)).length := by
    intro w hw
    obtain ⟨x, hx, rfl⟩ := List.mem_map.mp hw
    obtain ⟨s, hs, rfl⟩ := List.mem_map.mp hx
    rw [hoff s hs, hlen]
    exact hin s hs
  have hord' : ((ss.map f).map L.word).Pairwise fun w w' => w.1 + 8 ≤ w'.1 := by
    rw [List.map_map, List.pairwise_map]
    refine hord.imp_of_mem fun {s t} hs ht hst => ?_
    show (L.word (f s)).1 + 8 ≤ (L.word (f t)).1
    rw [hoff s hs, hoff t ht]
    exact hst
  obtain ⟨out, hout, -, hread⟩ := writeWords_spec hin' hord'
  refine ⟨out, ?_, fun s hs => ?_⟩
  · rw [linkData, hmap]
    exact hout
  · have h := hread (L.word (f s)) (List.mem_map_of_mem (List.mem_map_of_mem hs))
    rwa [hoff s hs] at h

/-- A linked section has the size that was written. -/
theorem length_linkData {L : LinkAddrs} {data : DataSection 32} {image : List UInt8}
    (h : linkData P varOffs strOffs L data = some image) :
    image.length = data.buf.length % 2 ^ 32 := by
  obtain ⟨relas, -, h⟩ := Option.bind_eq_some_iff.mp h
  rw [length_writeWords h, List.length_take]
  exact Nat.min_eq_left (Nat.mod_le _ _)

theorem relaData_of_linkData {L : LinkAddrs} {data : DataSection 32} {image : List UInt8}
    (h : linkData P varOffs strOffs L data = some image) {r : DataReloc 32} (hr : r ∈ data.relocs) :
    ∃ x, relaData P varOffs strOffs r = some x := by
  obtain ⟨relas, hrelas, -⟩ := Option.bind_eq_some_iff.mp h
  obtain ⟨x, -, hx⟩ := mem_of_mapM hrelas hr
  exact ⟨x, hx⟩

end

/-! ## The slots -/

namespace Program

variable (P : Program)

/-- The entity has a number. -/
def Known : ConstAddr → Prop
  | .sym s => s ∈ P.decls
  | .strLit i => i ∈ P.strs
  | .floatLit _ => True

/-- The symbols that initializers mention are resolved, and the literals are numbered. -/
def Resolved : Prop :=
  ∀ s ∈ P.globals.vars.list, ∀ e ∈ (P.var s).init, ∀ a, e.Mentions a → P.Known a

end Program

theorem exists_of_mapM {α β : Type} {f : α → Option β} {l : List α} {l' : List β}
    (h : l.mapM f = some l') {b : β} (hb : b ∈ l') : ∃ a ∈ l, f a = some b := by
  induction l generalizing l' with
  | nil =>
    cases h
    cases hb
  | cons x l ih =>
    simp only [List.mapM_cons, Option.bind_eq_bind, Option.bind_eq_some_iff] at h
    obtain ⟨y, hy, ys, hys, h⟩ := h
    cases h
    rcases List.mem_cons.mp hb with rfl | hb
    · exact ⟨x, List.mem_cons_self, hy⟩
    · obtain ⟨a, ha, hfa⟩ := ih hys hb
      exact ⟨a, List.mem_cons_of_mem _ ha, hfa⟩

theorem length_of_mapM {α β : Type} {f : α → Option β} {l : List α} {l' : List β}
    (h : l.mapM f = some l') : l'.length = l.length := by
  induction l generalizing l' with
  | nil =>
    cases h
    rfl
  | cons x l ih =>
    simp only [List.mapM_cons, Option.bind_eq_bind, Option.bind_eq_some_iff] at h
    obtain ⟨y, -, ys, hys, h⟩ := h
    cases h
    simp [ih hys]

section

variable {P : Program} {vars : List (ConstExpr 64)}

theorem buildVars_trunc (h : P.buildVars 64 = some vars) :
    P.buildVars 32 = some (vars.map ConstExpr.trunc) := by
  unfold Program.buildVars at h ⊢
  generalize P.globals.vars.list = l at h ⊢
  induction l generalizing vars with
  | nil =>
    cases h
    rfl
  | cons s l ih =>
    simp only [List.mapM_cons, Option.bind_eq_bind, Option.bind_eq_some_iff] at h
    obtain ⟨c, hc, cs, hcs, h⟩ := h
    cases h
    rw [List.mapM_cons, buildVar_trunc, hc, ih hcs]
    rfl

theorem buildVars_refers (hres : P.Resolved) (h : P.buildVars 64 = some vars) {c : ConstExpr 64}
    (hc : c ∈ vars) : c.Refers P.symKind P.Known := by
  obtain ⟨s, hs, hbuild⟩ := exists_of_mapM h hc
  unfold buildVar at hbuild
  cases hi : (P.var s).init with
  | none =>
    rw [hi] at hbuild
    cases hbuild
    exact .none
  | some e =>
    rw [hi] at hbuild
    exact (emitGlobalExpr_refers e hbuild).mono (hres s hs e (Option.mem_def.mpr hi))

theorem getElem?_idxOf_some {α β : Type} [DecidableEq α] {l : List α} {offs : List β} {x : α}
    (hlen : offs.length = l.length) (hx : x ∈ l) : ∃ off, offs[l.idxOf x]? = some off :=
  ⟨_, List.getElem?_eq_getElem (hlen ▸ List.idxOf_lt_length_of_mem hx)⟩

variable {varOffs strOffs : List Nat}

/-- An entry for an entity other than a foreign procedure resolves to its address and the low half
of the displacement. -/
theorem relaData_slot (hvar : varOffs.length = P.globals.vars.list.length)
    (hstr : strOffs.length = P.strNumbers.list.length)
    (hproc : P.procOffs.length = P.globals.procs.list.length) {o : Nat} {a : DataAddr 64}
    (ha : AddrOk P.symKind P.Known a.entity ∨
      ∃ s, a = ⟨.sym s, 0⟩ ∧ P.Known (.sym s) ∧ P.symKind s ≠ .var)
    (hforeign : ∀ s, a.entity = .sym s → P.symKind s ≠ .foreignProc) :
    ∃ x, relaData P varOffs strOffs (slotReloc 0 (o, a.trunc)) = some x ∧ ∀ L : LinkAddrs,
      ∃ addr, entityAddr P varOffs strOffs L a.entity = some addr ∧
        (L.word x).2 = addr + (a.disp.setWidth 32).setWidth 64 := by
  obtain ⟨entity, disp⟩ := a
  rcases ha with ha | ⟨s, ha, hknown, hk⟩
  · cases entity with
    | strLit i =>
      obtain ⟨hmem, hidx⟩ := Program.strNumbers_spec (P := P) ha
      obtain ⟨off, hoff⟩ := getElem?_idxOf_some hstr hmem
      refine ⟨⟨(slotReloc 0 (o, (⟨.strLit i, disp⟩ : DataAddr 64).trunc)).usageOff.setWidth 64,
        .rodata, BitVec.ofNat 64 off + (disp.setWidth 32).setWidth 64⟩, ?_, fun L => ?_⟩
      · simp only [relaData, slotReloc, DataAddr.trunc, hidx, hoff]
        rfl
      · refine ⟨L.rodata + BitVec.ofNat 64 off, by simp only [entityAddr, hoff, Option.map_some], ?_⟩
        exact (BitVec.add_assoc _ _ _).symm
    | sym s =>
      obtain ⟨hs, hk⟩ := ha
      obtain ⟨hmem, hidx⟩ := Program.index_spec (P := P) hs
      simp only [hk, Globals.container] at hmem hidx
      obtain ⟨off, hoff⟩ := getElem?_idxOf_some hvar hmem
      refine ⟨⟨(slotReloc 0 (o, (⟨.sym s, disp⟩ : DataAddr 64).trunc)).usageOff.setWidth 64,
        .data, BitVec.ofNat 64 off + (disp.setWidth 32).setWidth 64⟩, ?_, fun L => ?_⟩
      · simp only [relaData, slotReloc, DataAddr.trunc, hk, hidx, hoff]
        rfl
      · refine ⟨L.data + BitVec.ofNat 64 off, by simp only [entityAddr, hk, hoff, Option.map_some],
          ?_⟩
        exact (BitVec.add_assoc _ _ _).symm
    | floatLit i => exact ha.elim
  · cases ha
    have hkp : P.symKind s = .proc := by
      cases h : P.symKind s with
      | var => exact absurd h hk
      | foreignProc => exact absurd h (hforeign s rfl)
      | proc => rfl
    obtain ⟨hmem, hidx⟩ := Program.index_spec (P := P) hknown
    simp only [hkp, Globals.container] at hmem hidx
    obtain ⟨off, hoff⟩ := getElem?_idxOf_some hproc hmem
    refine ⟨⟨(slotReloc 0 (o, (⟨.sym s, 0⟩ : DataAddr 64).trunc)).usageOff.setWidth 64, .text,
      BitVec.ofNat 64 off⟩, ?_, fun L => ?_⟩
    · simp only [relaData, slotReloc, DataAddr.trunc, hkp, hidx, hoff]
      rfl
    · refine ⟨L.text + BitVec.ofNat 64 off, by simp only [entityAddr, hkp, hoff, Option.map_some], ?_⟩
      exact (BitVec.add_zero _).symm

/-- An entry for a foreign procedure resolves to some place in the program's own text. -/
theorem relaData_foreign {s : SymId} (hk : P.symKind s = .foreignProc) {o : Nat} {x : DataRela}
    {a : DataAddr 32} (ha : a.entity = .sym s)
    (h : relaData P varOffs strOffs (slotReloc 0 (o, a)) = some x) :
    ∃ off, ∀ L : LinkAddrs, (L.word x).2 = L.text + off := by
  have ha' : (slotReloc 0 (o, a)).refAddr.entity = .sym s := ha
  simp only [relaData, ha', hk] at h
  obtain ⟨off, -, h⟩ := Option.bind_eq_some_iff.mp h
  split at h <;> cases h
  exact ⟨BitVec.ofNat 64 off, fun L => rfl⟩

theorem setWidth_setWidth_iff (d : BitVec 64) :
    (d.setWidth 32).setWidth 64 = d ↔ d.toNat < 2 ^ 32 := by
  rw [BitVec.toNat_eq, BitVec.toNat_setWidth, BitVec.toNat_setWidth]
  omega

/-- The slots of the code's constants are those of the constants with whole displacements. -/
theorem sectionSlot_trunc {offs : List Nat} {o : Nat} {a : DataAddr 32} :
    SectionSlot (vars.map ConstExpr.trunc) offs o a ↔
      ∃ a', SectionSlot vars offs o a' ∧ a = a'.trunc := by
  constructor
  · rintro ⟨k, e, off, j, he, hoff, ho, h⟩
    rw [List.getElem?_map] at he
    obtain ⟨e', he', rfl⟩ := Option.map_eq_some_iff.mp he
    obtain ⟨a', ha', rfl⟩ := h.of_trunc
    exact ⟨a', ⟨k, e', off, j, he', hoff, ho, ha'⟩, rfl⟩
  · rintro ⟨a', ⟨k, e, off, j, he, hoff, ho, h⟩, rfl⟩
    exact ⟨k, e.trunc, off, j, by rw [List.getElem?_map, he]; rfl, hoff, ho, h.trunc⟩

theorem constItems_trunc (vars : List (ConstExpr 64)) :
    constItems (vars.map ConstExpr.trunc) = constItems vars := by
  simp [constItems]

/-- The data section is built, and after linking all its addresses are right exactly if no slot is
for a foreign procedure, all displacements fit 32 bits, and all slots are in the part of the
section that is written. -/
theorem slotsResolve_iff (hvars : P.buildVars 64 = some vars) (htyped : ∀ e ∈ vars, e.Typed)
    (hres : P.Resolved) (hproc : P.procOffs.length = P.globals.procs.list.length) :
    ∃ data ro, (P.buildVars 32).bind initDataSection = some data ∧ P.initRodata = some ro ∧
      (SlotsResolve P data.varOffs ro.strOffs vars data ↔
        ∀ o a, SectionSlot vars (place (constItems vars) 0) o a →
          SlotOk P (placeEnd (constItems vars) 0) o a) := by
  have htyped' : ∀ e ∈ vars.map ConstExpr.trunc, e.Typed := by
    intro e he
    obtain ⟨e', he', rfl⟩ := List.mem_map.mp he
    exact (htyped e' he').trunc
  obtain ⟨data, ss, hdata, hoffs, hlen, -, hrelocs, hss, hmem⟩ := initDataSection_spec htyped'
  obtain ⟨ro, hro, -⟩ := initRodataSection_spec P.floats (P.strNumbers.list.map P.strBytes)
  rw [constItems_trunc] at hoffs hlen
  refine ⟨data, ro, by rw [buildVars_trunc hvars]; exact hdata, hro, ?_⟩
  rw [← hoffs, ← hlen]
  have hvarLen : data.varOffs.length = P.globals.vars.list.length := by
    rw [hoffs, length_place, constItems, List.length_map]
    exact length_of_mapM hvars
  have hstrLen : ro.strOffs.length = P.strNumbers.list.length := by
    rw [length_strOffs hro, List.length_map]
  have hslot : ∀ o a, SectionSlot vars data.varOffs o a → (o, a.trunc) ∈ ss := fun o a h =>
    (hmem o a.trunc).mpr (sectionSlot_trunc.mpr ⟨a, h, rfl⟩)
  have hrefers : ∀ o a, SectionSlot vars data.varOffs o a →
      AddrOk P.symKind P.Known a.entity ∨
        ∃ s, a = ⟨.sym s, 0⟩ ∧ P.Known (.sym s) ∧ P.symKind s ≠ .var := by
    rintro o a ⟨k, e, off, j, he, -, -, ha⟩
    exact (buildVars_refers hres hvars (List.mem_of_getElem? he)).slot ha
  -- With an entry for each slot, and the slots in the file, a slot is read back as its entry says.
  have hread : (∀ o a, SectionSlot vars data.varOffs o a → o + 8 ≤ data.buf.length % 2 ^ 32) →
      (∀ s ∈ ss, ∃ x, relaData P data.varOffs ro.strOffs (slotReloc 0 s) = some x) →
      ∀ L, ∃ image, linkData P data.varOffs ro.strOffs L data = some image ∧
        ∀ s ∈ ss, ∀ x, relaData P data.varOffs ro.strOffs (slotReloc 0 s) = some x →
          readWord image s.1 = some (L.word x).2 := by
    intro hin hx L
    have hin' : ∀ s ∈ ss, s.1 + 8 ≤ data.buf.length % 2 ^ 32 := by
      intro s hs
      obtain ⟨a, ha, -⟩ := sectionSlot_trunc.mp ((hmem s.1 s.2).mp hs)
      exact hin s.1 a ha
    let f := fun s => (relaData P data.varOffs ro.strOffs (slotReloc 0 s)).getD ⟨0, .text, 0⟩
    have hf : ∀ s ∈ ss, relaData P data.varOffs ro.strOffs (slotReloc 0 s) = some (f s) := by
      intro s hs
      obtain ⟨x, hx⟩ := hx s hs
      simp only [f, hx, Option.getD_some]
    obtain ⟨image, himage, hread⟩ := linkData_spec hrelocs hss.ordered hin' hf L
    refine ⟨image, himage, fun s hs x hx => ?_⟩
    rw [hread s hs]
    simp only [f, hx, Option.getD_some]
  constructor
  · intro h o a ha
    have hin : ∀ o a, SectionSlot vars data.varOffs o a → o + 8 ≤ data.buf.length % 2 ^ 32 := by
      intro o a ha
      obtain ⟨image, himage, hslots⟩ := h ⟨0, 0, 0, fun _ => 0⟩
      obtain ⟨addr, -, hword⟩ := hslots o a ha
      rw [← length_linkData himage]
      exact le_of_readWord hword
    have hx : ∀ s ∈ ss, ∃ x, relaData P data.varOffs ro.strOffs (slotReloc 0 s) = some x := by
      intro s hs
      obtain ⟨image, himage, -⟩ := h ⟨0, 0, 0, fun _ => 0⟩
      exact relaData_of_linkData himage (hrelocs ▸ List.mem_map_of_mem hs)
    have hval : ∀ L, ∀ x, relaData P data.varOffs ro.strOffs (slotReloc 0 (o, a.trunc)) = some x →
        ∃ addr, entityAddr P data.varOffs ro.strOffs L a.entity = some addr ∧
          (L.word x).2 = addr + a.disp := by
      intro L x hx'
      obtain ⟨image, himage, hslots⟩ := h L
      obtain ⟨image', himage', hread'⟩ := hread hin hx L
      rw [himage] at himage'
      cases himage'
      obtain ⟨addr, haddr, hword⟩ := hslots o a ha
      rw [hread' _ (hslot o a ha) x hx'] at hword
      exact ⟨addr, haddr, Option.some.inj hword⟩
    have hforeign : ∀ s, a.entity = .sym s → P.symKind s ≠ .foreignProc := by
      intro s hs hk
      obtain ⟨x, hx'⟩ := hx _ (hslot o a ha)
      obtain ⟨off, hoff⟩ := relaData_foreign hk (a := a.trunc) hs hx'
      obtain ⟨a0, h0, hv0⟩ := hval ⟨0, 0, 0, fun _ => 0⟩ x hx'
      obtain ⟨a1, h1, hv1⟩ := hval ⟨0, 0, 0, fun _ => 1⟩ x hx'
      simp only [hs, entityAddr, hk, Option.some.injEq] at h0 h1
      rw [hoff, ← h0] at hv0
      rw [hoff, ← h1] at hv1
      have h01 : (0 : BitVec 64) + a.disp = 1 + a.disp := hv0.symm.trans hv1
      exact absurd ((BitVec.add_left_inj a.disp).mp h01) (by decide)
    refine ⟨hforeign, ?_, hin o a ha⟩
    obtain ⟨x, hx', hres'⟩ := relaData_slot (o := o) hvarLen hstrLen hproc (hrefers o a ha) hforeign
    obtain ⟨addr, haddr, hv⟩ := hres' ⟨0, 0, 0, fun _ => 0⟩
    obtain ⟨addr', haddr', hv'⟩ := hval ⟨0, 0, 0, fun _ => 0⟩ x hx'
    rw [haddr] at haddr'
    cases haddr'
    rw [hv] at hv'
    exact (setWidth_setWidth_iff a.disp).mp ((BitVec.add_right_inj addr).mp hv')
  · intro h L
    have hx : ∀ o a, SectionSlot vars data.varOffs o a → ∃ x,
        relaData P data.varOffs ro.strOffs (slotReloc 0 (o, a.trunc)) = some x ∧ ∀ L : LinkAddrs,
          ∃ addr, entityAddr P data.varOffs ro.strOffs L a.entity = some addr ∧
            (L.word x).2 = addr + (a.disp.setWidth 32).setWidth 64 := fun o a ha =>
      relaData_slot hvarLen hstrLen hproc (hrefers o a ha) (h o a ha).1
    obtain ⟨image, himage, hread'⟩ := hread (fun o a ha => (h o a ha).2.2)
      (fun s hs => by
        obtain ⟨a, ha, hs'⟩ := sectionSlot_trunc.mp ((hmem s.1 s.2).mp hs)
        obtain ⟨x, hx', -⟩ := hx s.1 a ha
        rw [← hs'] at hx'
        exact ⟨x, hx'⟩) L
    refine ⟨image, himage, fun o a ha => ?_⟩
    obtain ⟨x, hx', hval⟩ := hx o a ha
    obtain ⟨addr, haddr, hv⟩ := hval L
    rw [(setWidth_setWidth_iff a.disp).mpr (h o a ha).2.1] at hv
    exact ⟨addr, haddr, by rw [hread' _ (hslot o a ha) x hx', hv]⟩

end

/-- A foreign procedure, a procedure, and a variable with the address of the foreign one. -/
def foreignPtr : Program where
  symKind s := if s = 0 then .foreignProc else if s = 1 then .proc else .var
  decls := [0, 1, 2]
  var s := ⟨s, .proc, some (.ident .proc 0)⟩
  strs := []
  strBytes _ := []
  floats := []
  procOffs := [0]

theorem foreignPtr_resolved : foreignPtr.Resolved := by
  intro s _ e he a ha
  obtain rfl : GlobalExpr.ident .proc 0 = e := Option.some.inj he
  cases ha
  show (0 : SymId) ∈ [0, 1, 2]
  exact List.mem_cons_self

/-- What its variable is built to. -/
def foreignPtrVars : List (ConstExpr 64) := [.proc .proc 0]

theorem slotsResolve_foreignPtr : ∃ data ro,
    (foreignPtr.buildVars 32).bind initDataSection = some data ∧
      foreignPtr.initRodata = some ro ∧
      (SlotsResolve foreignPtr data.varOffs ro.strOffs foreignPtrVars data ↔
        ∀ o a, SectionSlot foreignPtrVars (place (constItems foreignPtrVars) 0) o a →
          SlotOk foreignPtr (placeEnd (constItems foreignPtrVars) 0) o a) :=
  slotsResolve_iff rfl (fun e he => by
    obtain rfl := List.mem_singleton.mp he
    exact .proc) foreignPtr_resolved rfl

/-- The variable gets the address of the first procedure of the program's own text. -/
theorem not_slotsResolve_foreignPtr : ∃ vars data ro, foreignPtr.buildVars 64 = some vars ∧
    (foreignPtr.buildVars 32).bind initDataSection = some data ∧
      foreignPtr.initRodata = some ro ∧
      ¬SlotsResolve foreignPtr data.varOffs ro.strOffs vars data := by
  refine ⟨_, _, _, rfl, rfl, rfl, fun h => ?_⟩
  obtain ⟨image, himage, hslots⟩ := h ⟨0, 0, 0, fun _ => 1⟩
  obtain ⟨addr, haddr, hread⟩ := hslots 0 ⟨.sym 0, 0⟩ ⟨0, _, 0, 0, rfl, rfl, rfl, .proc⟩
  obtain rfl : 1 = addr := Option.some.inj haddr
  obtain rfl : List.replicate 8 0 = image := Option.some.inj himage
  exact absurd hread (by decide)

end Nibble.Data
