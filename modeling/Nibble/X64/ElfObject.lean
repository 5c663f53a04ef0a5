import Nibble.X64.ElfLayout

/-!
# The object that is written

What the object file stands for: the sections of the program with their
contents, the symbols of the sections, `_start` and the foreign procedures, and
each relocation with the symbol of its entity. The writer's tables of symbols
and relocations are read as these.
-/

namespace Nibble.X64

open Nibble.Ast (PowerOfTwo)
open Nibble.Data (SectionSym DataReloc)
open Nibble.IR (SymId)
open Nibble.Lib

/-! ## The object -/

def sectionKind : SectionSym → SectionKind
  | .rodata => .roData
  | .data => .data
  | .text => .text

/-- The symbol of a section. -/
def sectionSymbol (s : SectionSym) : Elf.Symbol := ⟨[], 3, some (sectionKind s).name, 0⟩

/-- A global symbol. A name ends at its first NUL. -/
def globalSymbol (name : List UInt8) (sec : Option (List UInt8)) : Elf.Symbol :=
  ⟨name.takeWhile (· != 0), 16, sec, 0⟩

namespace ElfInput

variable (I : ElfInput)

def foreignProcs : List SymId := I.prog.globals.foreignProcs.list

/-- The sections that have symbols. -/
def sectionSyms : List SectionSym :=
  [SectionSym.rodata, .data, .text].filter fun s => I.has (sectionKind s)

def symbols : List Elf.Symbol :=
  ⟨[], 0, none, 0⟩ :: (I.sectionSyms.map sectionSymbol ++
    globalSymbol (nameBytes "_start") (some SectionKind.text.name) ::
      I.foreignProcs.map fun f => globalSymbol (I.foreignName f) none)

/-- The sections of the program that are not empty, and the text. -/
def progSections : List Elf.ProgSection :=
  (if I.has .roData then
    [⟨nameBytes ".rodata", 2, BitVec.ofNat 64 I.rodata.align, I.rodata.buf⟩] else []) ++
  (if I.has .data then
    [⟨nameBytes ".data", 3, BitVec.ofNat 64 I.data.align, I.data.buf⟩] else []) ++
  [⟨nameBytes ".text", 6, BitVec.ofNat 64 I.text.align, I.text.buf⟩]

/-- A relocation of the data: the address of its entity, as an offset from the symbol of the
entity's section. -/
def dataReloc (r : DataReloc 32) : Option Elf.Reloc :=
  (Data.relaData I.prog I.data.varOffs I.rodata.strOffs r).map fun e =>
    ⟨nameBytes ".data", e.offset, 1, sectionSymbol e.sym, e.addend⟩

/-- The symbol of an entity that code refers to, the type of the relocation and the offset from the
symbol. -/
def textEntity : ConstAddr → Option (Elf.Symbol × BitVec 32 × BitVec 64)
  | .strLit i => (I.rodata.strOffs[I.prog.strNumbers.list.idxOf i]?).map fun off =>
      (sectionSymbol .rodata, 2, BitVec.ofNat 64 off)
  | .floatLit i => (I.rodata.floatOffs[I.floatNumbers.list.idxOf i]?).map fun off =>
      (sectionSymbol .rodata, 2, BitVec.ofNat 64 off)
  | .sym s =>
    match I.prog.symKind s with
    | .var => (I.data.varOffs[I.prog.globals.vars.list.idxOf s]?).map fun off =>
        (sectionSymbol .data, 2, BitVec.ofNat 64 off)
    | .foreignProc => some (globalSymbol (I.foreignName s) none, 4, 0)
    | .proc => none

/-- A relocation of the text, relative to the next instruction. -/
def textReloc (r : TextReloc) : Option Elf.Reloc :=
  (I.textEntity r.refAddr).map fun (symbol, type, off) =>
    ⟨nameBytes ".text", BitVec.ofInt 64 r.usageOff, type, symbol,
      off - BitVec.ofInt 64 r.bytesToNextIp⟩

/-- The object that the file is written for. -/
def object : Option Elf.Object := do
  let dataRelocs ← I.data.relocs.mapM I.dataReloc
  let textRelocs ← I.text.relocs.mapM I.textReloc
  return ⟨62, I.progSections, I.symbols, dataRelocs ++ textRelocs⟩

/-- The bytes that a name takes in a table of strings. -/
def nameLength (name : List UInt8) : Nat := (name.takeWhile (· != 0)).length + 1

/-- The sizes of the sections. -/
def secLength : SectionKind → Nat
  | .roData => I.rodata.buf.length
  | .data => I.data.buf.length
  | .text => I.text.buf.length
  | .symtab => 24 * I.symbols.length
  | .strtab => 8 + (I.foreignProcs.map fun f => nameLength (I.foreignName f)).sum
  | .relaData => 24 * I.data.relocs.length
  | .relaText => 24 * I.text.relocs.length
  | .shstrtab => 1 + (I.kinds.map fun k => k.name.length + 1).sum

def item (k : SectionKind) : Item := ⟨I.secLength k, I.secAlign k⟩

/-- Entities that code refers to through the linker. -/
def Linked : ConstAddr → Prop
  | .strLit i => i ∈ I.prog.strs
  | .floatLit i => i ∈ I.floats
  | .sym s => s ∈ I.prog.decls ∧ I.prog.symKind s ≠ .proc

/-- Sections that have an entity or a relocation are not empty, alignments are powers of two, and
the file is smaller than 4 GiB. -/
structure Ok : Prop where
  strOffs : I.rodata.strOffs ≠ [] → 0 < I.rodata.buf.length
  floatOffs : I.rodata.floatOffs ≠ [] → 0 < I.rodata.buf.length
  varOffs : I.data.varOffs ≠ [] → 0 < I.data.buf.length
  relocs : I.data.relocs ≠ [] → 0 < I.data.buf.length
  linked : ∀ r ∈ I.text.relocs, I.Linked r.refAddr
  align : ∀ k ∈ I.kinds, PowerOfTwo (I.secAlign k)
  fits : placeEnd (I.kinds.map I.item) (64 * (2 + I.kinds.length)) < 2 ^ 32

end ElfInput

/-! ## Symbols -/

variable {I : ElfInput}

theorem readSymbol_global {strs name : List UInt8} {loc : BitVec 32} (secs : List Elf.Section)
    (h : Elf.strAt strs loc.toNat = some (name.takeWhile (· != 0))) :
    Elf.readSymbol secs strs ⟨loc, 16, 0, 0, 0, 0⟩ = some (globalSymbol name none) := by
  unfold Elf.readSymbol
  rw [h]
  rfl

/-- The index of a foreign procedure is its place among them. -/
theorem index_foreign {ds fs : List SymId} {f : SymId} (hL : I.foreignProcs = ds ++ f :: fs) :
    I.prog.index f = ds.length := by
  have hlist : I.foreignProcs = (Numbering.empty.run (I.prog.decls.filter fun s =>
      I.prog.symKind s = .foreignProc)).list :=
    congrArg Numbering.list (Data.Program.container_eq .foreignProc)
  have hmem : f ∈ I.foreignProcs := by simp [hL]
  have hdecl : f ∈ I.prog.decls ∧ I.prog.symKind f = .foreignProc := by
    rw [hlist, Numbering.mem_run] at hmem
    simpa [Numbering.empty] using hmem
  have hnodup : I.foreignProcs.Nodup := by
    rw [hlist]
    exact Numbering.nodup_run List.nodup_nil _
  have hidx := (Data.Program.index_spec hdecl.1).2
  rw [hdecl.2] at hidx
  have hds : f ∉ ds := by
    intro h
    rw [hL] at hnodup
    exact (List.nodup_append.mp hnodup).2.2 f h f List.mem_cons_self rfl
  rw [hidx]
  show I.foreignProcs.idxOf f = _
  rw [hL, List.idxOf_append_of_notMem hds, List.idxOf_cons_self, Nat.add_zero]

/-- The loop over the foreign procedures `ds ++ fs`, of which `ds` have their symbols. -/
theorem foldlM_addForeignSym (ds fs : List SymId) (hL : I.foreignProcs = ds ++ fs)
    (strtab : List UInt8) (syms : List Elf.Sym) (foreign : List (Option (BitVec 32)))
    (hlen : foreign.length = I.foreignProcs.length) :
    ∃ strtab' new foreign', fs.foldlM (addForeignSym I) (strtab, syms, foreign) =
        some (strtab', syms ++ new, foreign') ∧
      new.length = fs.length ∧ (∀ s ∈ new, Elf.isLocal s = false) ∧
      (∃ zs, strtab' = strtab ++ zs) ∧
      strtab'.length = strtab.length +
        (fs.map fun f => ElfInput.nameLength (I.foreignName f)).sum ∧
      (strtab'.length < 2 ^ 32 → ∀ secs,
        new.mapM (Elf.readSymbol secs strtab') =
          some (fs.map fun f => globalSymbol (I.foreignName f) none)) ∧
      (∀ i, i < ds.length → foreign'[i]? = foreign[i]?) ∧
      ∀ i, i < fs.length → foreign'[ds.length + i]? =
        some (some (BitVec.ofNat 32 (syms.length + i))) := by
  induction fs generalizing ds strtab syms foreign with
  | nil =>
    exact ⟨strtab, [], foreign, by simp, rfl, by simp, ⟨[], by simp⟩, by simp, fun _ _ => rfl,
      fun _ _ => rfl, by simp⟩
  | cons f fs ih =>
    have hidx : I.prog.index f = ds.length := index_foreign hL
    have hlt : ds.length < foreign.length := by
      rw [hlen, hL]
      simp
    set strtab₁ := (strtabAdd strtab (I.foreignName f)).1 with hstrtab₁
    set sym : Elf.Sym := ⟨(strtabAdd strtab (I.foreignName f)).2, 16, 0, 0, 0, 0⟩ with hsym
    have hstep : addForeignSym I (strtab, syms, foreign) f = some (strtab₁, syms ++ [sym],
        foreign.set ds.length (some (BitVec.ofNat 32 syms.length))) := by
      unfold addForeignSym
      rw [hidx]
      exact if_pos hlt
    obtain ⟨strtab', new, foreign', hrun, hnew, hlocal, ⟨zs, hzs⟩, hsum, hread, hold, hfill⟩ :=
      ih (ds ++ [f]) (by rw [hL]; simp) strtab₁ (syms ++ [sym])
        (foreign.set ds.length (some (BitVec.ofNat 32 syms.length))) (by rw [List.length_set, hlen])
    have hlen₁ : strtab₁.length = strtab.length + ElfInput.nameLength (I.foreignName f) := by
      rw [hstrtab₁]
      simp only [strtabAdd, ElfInput.nameLength, List.length_append, List.length_singleton,
        Nat.add_assoc]
    refine ⟨strtab', sym :: new, foreign', ?_, ?_, ?_, ?_, ?_, ?_, ?_, ?_⟩
    · rw [List.foldlM_cons, hstep]
      simpa using hrun
    · simp [hnew]
    · intro s hs
      rcases List.mem_cons.mp hs with rfl | hs
      · show decide ((16 : BitVec 8) >>> 4 = 0) = false
        decide
      · exact hlocal s hs
    · refine ⟨(I.foreignName f).takeWhile (· != 0) ++ [0] ++ zs, ?_⟩
      rw [hzs, hstrtab₁]
      show strtab ++ (I.foreignName f).takeWhile (· != 0) ++ [0] ++ zs = _
      simp
    · rw [hsum, hlen₁, List.map_cons, List.sum_cons, Nat.add_assoc]
    · intro hfit secs
      have hle : strtab.length < 2 ^ 32 := by
        rw [hzs, List.length_append, hlen₁] at hfit
        omega
      have hname : Elf.strAt strtab' sym.name.toNat =
          some ((I.foreignName f).takeWhile (· != 0)) := by
        rw [hzs]
        exact strAt_strtabAdd hle _ _
      rw [List.mapM_cons, readSymbol_global secs hname, hread hfit secs]
      rfl
    · intro i hi
      rw [hold i (by rw [List.length_append]; omega), List.getElem?_set_ne (by omega)]
    · intro i hi
      cases i with
      | zero =>
        rw [Nat.add_zero, hold ds.length (by simp), List.getElem?_set_self hlt]
        rfl
      | succ i =>
        have h := hfill i (by simpa using hi)
        simp only [List.length_append, List.length_singleton] at h
        rw [show ds.length + (i + 1) = ds.length + 1 + i by omega, h]
        congr 3
        omega

/-- The null symbol and the symbols of the sections. -/
def localSyms (I : ElfInput) (p : ElfProg) : List Elf.Sym :=
  ⟨0, 0, 0, 0, 0, 0⟩ :: I.sectionSyms.map fun s => p.sectionSym (sectionKind s)

def startSym (p : ElfProg) : Elf.Sym := ⟨1, 16, 0, (p.shIndices .text).setWidth 16, 0, 0⟩

def startTab : List UInt8 := (strtabAdd strtabInit (nameBytes "_start")).1

/-- The index of a section's symbol. -/
def symIdx (I : ElfInput) (s : SectionSym) : BitVec 32 :=
  if s ∈ I.sectionSyms then BitVec.ofNat 32 (1 + I.sectionSyms.idxOf s) else 0

theorem addSymbols_eq {p : ElfProg} (hp : ∀ k, p.has k = I.has k) : p.addSymbols I =
    (I.foreignProcs.foldlM (addForeignSym I)
      (startTab, localSyms I p ++ [startSym p], List.replicate I.foreignProcs.length none)).map fun s =>
      ({ p with symtab := ⟨s.2.1, BitVec.ofNat 32 (1 + I.sectionSyms.length)⟩, strtab := s.1 },
        ⟨symIdx I .rodata, symIdx I .data, symIdx I .text, s.2.2⟩) := by
  unfold ElfProg.addSymbols ElfProg.addSectionSym localSyms symIdx ElfInput.sectionSyms
  simp only [hp, List.filter_cons, List.filter_nil, sectionKind]
  have htext : I.has .text = true := rfl
  rw [htext, Option.map_eq_bind]
  generalize I.has .roData = a
  generalize I.has .data = b
  cases a <;> cases b <;> rfl

/-- What the symbol table is read as, and where relocations find their symbols. -/
structure SymbolsOf (I : ElfInput) (p q : ElfProg) (x : SymIdxs) : Prop where
  prog : q = { p with
    symtab := ⟨q.symtab.syms, BitVec.ofNat 32 (1 + I.sectionSyms.length)⟩, strtab := q.strtab }
  symsLength : q.symtab.syms.length = I.symbols.length
  strtabLength : q.strtab.length = I.secLength .strtab
  locals : (q.symtab.syms.take (1 + I.sectionSyms.length)).all Elf.isLocal = true
  globals : (q.symtab.syms.drop (1 + I.sectionSyms.length)).any Elf.isLocal = false
  read : q.strtab.length < 2 ^ 32 → ∀ secs, (∀ s ∈ I.sectionSyms, Elf.symbolSection secs
      ((p.shIndices (sectionKind s)).setWidth 16) = some (some (sectionKind s).name)) →
    q.symtab.syms.mapM (Elf.readSymbol secs q.strtab) = some I.symbols
  section_ : ∀ s ∈ I.sectionSyms, I.symbols[(x.section s).toNat]? = some (sectionSymbol s)
  foreign : q.symtab.syms.length < 2 ^ 32 → ∀ f ∈ I.foreignProcs, ∃ idx,
    x.foreign[I.prog.index f]? = some (some idx) ∧
      I.symbols[idx.toNat]? = some (globalSymbol (I.foreignName f) none)

theorem mem_sectionSyms {s : SectionSym} : s ∈ I.sectionSyms ↔ I.has (sectionKind s) = true := by
  unfold ElfInput.sectionSyms
  rw [List.mem_filter, and_iff_right_iff_imp]
  intro _
  cases s <;> decide

theorem length_sectionSyms (I : ElfInput) : I.sectionSyms.length ≤ 3 :=
  List.length_filter_le _ [SectionSym.rodata, .data, .text]

theorem symbols_section {s : SectionSym} (hs : s ∈ I.sectionSyms) :
    I.symbols[(symIdx I s).toNat]? = some (sectionSymbol s) := by
  have hlt := List.idxOf_lt_length_of_mem hs
  have hlen := length_sectionSyms I
  unfold symIdx
  rw [if_pos hs, BitVec.toNat_ofNat, Nat.mod_eq_of_lt (by omega), Nat.add_comm]
  unfold ElfInput.symbols
  rw [List.getElem?_cons_succ, List.getElem?_append_left (by rwa [List.length_map]),
    List.getElem?_map, List.getElem?_eq_getElem hlt, List.getElem_idxOf]
  rfl

section

variable {p : ElfProg} {secs : List Elf.Section}
  (hsecs : ∀ s ∈ I.sectionSyms, Elf.symbolSection secs ((p.shIndices (sectionKind s)).setWidth 16) =
    some (some (sectionKind s).name))

include hsecs

theorem readSymbol_locals (zs : List UInt8) :
    (localSyms I p).mapM (Elf.readSymbol secs (startTab ++ zs)) =
      some (⟨[], 0, none, 0⟩ :: I.sectionSyms.map sectionSymbol) := by
  have hempty : Elf.strAt (startTab ++ zs) 0 = some [] := Elf.strAt_mono (by decide) zs
  have hnull : Elf.readSymbol secs (startTab ++ zs) ⟨0, 0, 0, 0, 0, 0⟩ =
      some ⟨[], 0, none, 0⟩ := by
    unfold Elf.readSymbol
    rw [show (0 : BitVec 32).toNat = 0 from rfl, hempty]
    rfl
  have hsec : I.sectionSyms.mapM (Elf.readSymbol secs (startTab ++ zs) ∘
      fun s => p.sectionSym (sectionKind s)) = some (I.sectionSyms.map sectionSymbol) := by
    refine Data.mapM_eq_map fun s hs => ?_
    show Elf.readSymbol secs (startTab ++ zs) (p.sectionSym (sectionKind s)) = _
    unfold Elf.readSymbol ElfProg.sectionSym
    rw [show (0 : BitVec 32).toNat = 0 from rfl, hempty, hsecs s hs]
    rfl
  rw [localSyms, List.mapM_cons, hnull, List.mapM_map, hsec]
  rfl

theorem readSymbol_start (zs : List UInt8) :
    Elf.readSymbol secs (startTab ++ zs) (startSym p) =
      some (globalSymbol (nameBytes "_start") (some SectionKind.text.name)) := by
  have hname : Elf.strAt (startTab ++ zs) 1 = some (nameBytes "_start") :=
    Elf.strAt_mono (by decide) zs
  have htext := hsecs .text (mem_sectionSyms.mpr rfl)
  unfold Elf.readSymbol startSym
  rw [show (1 : BitVec 32).toNat = 1 from rfl, hname]
  simp only [Option.bind_eq_bind, Option.bind_some]
  rw [show sectionKind .text = SectionKind.text from rfl] at htext
  rw [htext]
  rfl

end

theorem addSymbols_spec {p : ElfProg} (hp : ∀ k, p.has k = I.has k) :
    ∃ q x, p.addSymbols I = some (q, x) ∧ SymbolsOf I p q x := by
  obtain ⟨strtab, new, foreign, hrun, hnew, hlocal, ⟨zs, hzs⟩, hsum, hread, -, hfill⟩ :=
    foldlM_addForeignSym (I := I) [] I.foreignProcs rfl startTab (localSyms I p ++ [startSym p])
      (List.replicate I.foreignProcs.length none) (by simp)
  have hlen : (localSyms I p).length = 1 + I.sectionSyms.length := by
    rw [localSyms, List.length_cons, List.length_map, Nat.add_comm]
  have hstart : Elf.isLocal (startSym p) = false := by
    show decide ((16 : BitVec 8) >>> 4 = 0) = false
    decide
  have hlocals : ∀ s, Elf.isLocal (p.sectionSym (sectionKind s)) = true := by
    intro s
    show decide ((3 : BitVec 8) >>> 4 = 0) = true
    decide
  refine ⟨_, _, by rw [addSymbols_eq hp, hrun]; rfl, rfl, ?_, hsum, ?_, ?_, ?_, ?_, ?_⟩
  · show (localSyms I p ++ [startSym p] ++ new).length = _
    simp only [ElfInput.symbols, List.length_append, List.length_cons, List.length_map, hlen, hnew,
      List.length_nil]
    omega
  · show ((localSyms I p ++ [startSym p] ++ new).take (1 + I.sectionSyms.length)).all _ = true
    rw [← hlen, List.append_assoc, List.take_left, localSyms, List.all_cons, List.all_map]
    exact List.all_eq_true.mpr fun s _ => hlocals s
  · show ((localSyms I p ++ [startSym p] ++ new).drop (1 + I.sectionSyms.length)).any _ = false
    rw [← hlen, List.append_assoc, List.drop_left, List.singleton_append, List.any_cons, hstart,
      Bool.false_or, List.any_eq_false]
    exact fun s hs => by rw [hlocal s hs]; decide
  · intro hfit secs hsecs
    show (localSyms I p ++ [startSym p] ++ new).mapM (Elf.readSymbol secs strtab) = _
    rw [List.mapM_append, hread hfit secs, List.mapM_append, hzs,
      readSymbol_locals hsecs zs, List.mapM_cons, readSymbol_start hsecs zs]
    exact congrArg some (List.append_assoc ..)
  · intro s hs
    cases s <;> exact symbols_section hs
  · intro hfit f hf
    obtain ⟨ds, fs, hL⟩ := List.append_of_mem hf
    have hlt : ds.length < I.foreignProcs.length := by simp [hL]
    have hidx := hfill ds.length hlt
    rw [List.length_nil, Nat.zero_add, List.length_append, List.length_singleton, hlen] at hidx
    change (localSyms I p ++ [startSym p] ++ new).length < 2 ^ 32 at hfit
    rw [List.length_append, List.length_append, hlen, hnew, List.length_singleton] at hfit
    refine ⟨_, by rw [index_foreign hL]; exact hidx, ?_⟩
    rw [BitVec.toNat_ofNat, Nat.mod_eq_of_lt (by omega)]
    unfold ElfInput.symbols
    rw [show 1 + I.sectionSyms.length + 1 + ds.length = I.sectionSyms.length + (ds.length + 1) + 1 by
      omega, List.getElem?_cons_succ, List.getElem?_append_right (by simp), List.length_map,
      Nat.add_sub_cancel_left, List.getElem?_cons_succ, List.getElem?_map, hL,
      List.getElem?_append_right (Nat.le_refl _), Nat.sub_self]
    rfl

/-! ## Relocations -/

theorem toNat_relaInfo (sym : BitVec 32) {type : BitVec 64} (h : type.toNat < 2 ^ 32) :
    (relaInfo sym type).toNat = sym.toNat * 2 ^ 32 + type.toNat := by
  have hlt := sym.isLt
  unfold relaInfo
  rw [BitVec.toNat_add, BitVec.toNat_shiftLeft, BitVec.toNat_setWidth, Nat.shiftLeft_eq]
  omega

/-- An entry is read with the symbol that its index leads to. -/
theorem readReloc_entry {symbols : List Elf.Symbol} {sym : Elf.Symbol} {idx : BitVec 32}
    (h : symbols[idx.toNat]? = some sym) (sec : List UInt8) (offset addend : BitVec 64)
    {type : BitVec 64} (ht : type.toNat < 2 ^ 32) :
    Elf.readReloc sec symbols ⟨offset, relaInfo idx type, addend⟩ =
      some ⟨sec, offset, type.setWidth 32, sym, addend⟩ := by
  have hinfo := toNat_relaInfo idx ht
  have hidx : (relaInfo idx type >>> 32).toNat = idx.toNat := by
    rw [BitVec.toNat_ushiftRight, hinfo, Nat.shiftRight_eq_div_pow]
    omega
  have htype : (relaInfo idx type).setWidth 32 = type.setWidth 32 := by
    apply BitVec.eq_of_toNat_eq
    rw [BitVec.toNat_setWidth, BitVec.toNat_setWidth, hinfo]
    omega
  unfold Elf.readReloc
  rw [hidx, h, htype]
  rfl

theorem ne_nil_of_getElem? {α : Type} {l : List α} {i : Nat} {x : α} (h : l[i]? = some x) :
    l ≠ [] := by
  rintro rfl
  cases h

section

variable {x : SymIdxs} (hI : I.Ok)
  (hsection : ∀ s ∈ I.sectionSyms, I.symbols[(x.section s).toNat]? = some (sectionSymbol s))

include hI hsection

theorem rodata_symbol {i off : Nat}
    (h : I.rodata.strOffs[i]? = some off ∨ I.rodata.floatOffs[i]? = some off) :
    I.symbols[x.rodata.toNat]? = some (sectionSymbol .rodata) := by
  refine hsection .rodata (mem_sectionSyms.mpr (decide_eq_true ?_))
  rcases h with h | h
  · exact hI.strOffs (ne_nil_of_getElem? h)
  · exact hI.floatOffs (ne_nil_of_getElem? h)

theorem data_symbol {i off : Nat} (h : I.data.varOffs[i]? = some off) :
    I.symbols[x.data.toNat]? = some (sectionSymbol .data) :=
  hsection .data (mem_sectionSyms.mpr (decide_eq_true (hI.varOffs (ne_nil_of_getElem? h))))

theorem relaData_symbol {r : DataReloc 32} {e : Data.DataRela}
    (h : Data.relaData I.prog I.data.varOffs I.rodata.strOffs r = some e) :
    I.symbols[(x.section e.sym).toNat]? = some (sectionSymbol e.sym) := by
  unfold Data.relaData at h
  split at h
  · obtain ⟨off, hoff, h⟩ := Option.bind_eq_some_iff.mp h
    cases h
    exact rodata_symbol hI hsection (.inl hoff)
  · split at h
    · obtain ⟨off, hoff, h⟩ := Option.bind_eq_some_iff.mp h
      cases h
      exact data_symbol hI hsection hoff
    all_goals
      obtain ⟨off, -, h⟩ := Option.bind_eq_some_iff.mp h
      split at h <;> cases h
      exact hsection .text (mem_sectionSyms.mpr rfl)
  · cases h

theorem readReloc_data (r : DataReloc 32) :
    (I.relaDataEntry x r).bind (Elf.readReloc (nameBytes ".data") I.symbols) = I.dataReloc r := by
  unfold ElfInput.relaDataEntry ElfInput.dataReloc
  cases h : Data.relaData I.prog I.data.varOffs I.rodata.strOffs r with
  | none => rfl
  | some e => exact readReloc_entry (relaData_symbol hI hsection h) _ _ _ (by decide)

theorem readReloc_text (hforeign : ∀ f ∈ I.foreignProcs, ∃ idx,
      x.foreign[I.prog.index f]? = some (some idx) ∧
        I.symbols[idx.toNat]? = some (globalSymbol (I.foreignName f) none))
    {r : TextReloc} (hr : I.Linked r.refAddr) :
    (I.relaTextEntry x r).bind (Elf.readReloc (nameBytes ".text") I.symbols) = I.textReloc r := by
  obtain ⟨usageOff, bytesToNextIp, refAddr⟩ := r
  unfold ElfInput.relaTextEntry ElfInput.textReloc ElfInput.textEntity
  cases refAddr with
  | strLit i =>
    dsimp only
    rw [(Data.Program.strNumbers_spec hr).2]
    cases hoff : I.rodata.strOffs[I.prog.strNumbers.list.idxOf i]? with
    | none => rfl
    | some off =>
      exact readReloc_entry (rodata_symbol hI hsection (.inl hoff)) _ _ _ (by decide)
  | floatLit i =>
    have hidx : I.floatNumbers.index i = I.floatNumbers.list.idxOf i :=
      Numbering.ok_empty.run I.floats i (Numbering.mem_run.mpr (.inr hr))
    dsimp only
    rw [hidx]
    cases hoff : I.rodata.floatOffs[I.floatNumbers.list.idxOf i]? with
    | none => rfl
    | some off =>
      exact readReloc_entry (rodata_symbol hI hsection (.inr hoff)) _ _ _ (by decide)
  | sym s =>
    obtain ⟨hmem, hidx⟩ := Data.Program.index_spec hr.1
    dsimp only
    cases hk : I.prog.symKind s with
    | var =>
      rw [hk] at hidx
      change I.prog.index s = I.prog.globals.vars.list.idxOf s at hidx
      dsimp only
      rw [hidx]
      cases hoff : I.data.varOffs[I.prog.globals.vars.list.idxOf s]? with
      | none => rfl
      | some off => exact readReloc_entry (data_symbol hI hsection hoff) _ _ _ (by decide)
    | foreignProc =>
      rw [hk] at hmem
      obtain ⟨idx, hidx, hsym⟩ := hforeign s hmem
      dsimp only
      rw [hidx, Option.map_some, ← BitVec.zero_sub (BitVec.ofInt 64 bytesToNextIp)]
      exact readReloc_entry hsym _ _ _ (by decide)
    | proc => exact absurd hk hr.2

end

end Nibble.X64
