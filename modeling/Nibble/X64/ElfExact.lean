import Nibble.X64.ElfObject

/-!
# Reading the object file

A reader of object files finds the object in what the writer makes of it.
-/

namespace Nibble.X64

open Nibble.Ast (PowerOfTwo)
open Nibble.Data (SectionSym)
open Nibble.Lib

variable {I : ElfInput}

/-! ## The file -/

theorem secLength_lt (hI : I.Ok) {k : SectionKind} (hk : k ∈ I.kinds) :
    I.secLength k < 2 ^ 32 := by
  have hpos : ∀ i ∈ I.kinds.map I.item, 0 < i.align := by
    intro i hi
    obtain ⟨k', hk', rfl⟩ := List.mem_map.mp hi
    exact (hI.align k' hk').pos
  obtain ⟨i, hi⟩ := List.mem_iff_getElem?.mp hk
  have hitem : (I.kinds.map I.item)[i]? = some (I.item k) := by rw [List.getElem?_map, hi]; rfl
  have hplaced := placed_place (64 * (2 + I.kinds.length)) hpos
  have hlt := (List.getElem?_eq_some_iff.mp hitem).1
  rw [← hplaced.length_eq] at hlt
  have hle := (hplaced.get hitem (List.getElem?_eq_getElem hlt)).2.2
  have hfits := hI.fits
  change _ + I.secLength k ≤ _ at hle
  omega

theorem has_of_prog {p q : ElfProg} (h : q.shIndices = p.shIndices) (k : SectionKind) :
    q.has k = p.has k := by
  unfold ElfProg.has
  rw [h]

/-- The writer's sections before their offsets are known. -/
theorem elfProg_spec (I : ElfInput) : ∃ q x, SymbolsOf I (ElfProg.init I) q x ∧
    I.elfProg = (I.data.relocs.mapM (I.relaDataEntry x)).bind fun relaData =>
      (I.text.relocs.mapM (I.relaTextEntry x)).map fun relaText =>
        { q with relaData, relaText } := by
  obtain ⟨q, x, hadd, hsyms⟩ := addSymbols_spec (I := I) (ElfProg.init_spec I).2.1
  refine ⟨q, x, hsyms, ?_⟩
  unfold ElfInput.elfProg
  rw [hadd]
  simp only [Option.bind_eq_bind, Option.bind_some]
  cases I.data.relocs.mapM (I.relaDataEntry x) with
  | none => rfl
  | some _ =>
    cases I.text.relocs.mapM (I.relaTextEntry x) with
    | none => rfl
    | some _ => rfl

/-- What a written file holds. -/
structure FileOf (I : ElfInput) (p : ElfProg) (file : List UInt8) : Prop where
  hdr : ∃ rest, file = p.hdr.bytes ++ rest
  shdrs : Elf.slice file 64 (64 * (1 + I.kinds.length)) =
    some ((ElfProg.nullShdr :: I.kinds.map (p.fillShdr I)).flatMap Elf.Shdr.bytes)
  size : ∀ k ∈ I.kinds, (p.secData I k).length < 2 ^ 32
  data : ∀ k ∈ I.kinds, Elf.slice file (p.offsets k).toNat (p.secData I k).length =
    some (p.secData I k)
  align : ∀ k ∈ I.kinds, I.secAlign k < 2 ^ 32 ∧ I.secAlign k ∣ (p.offsets k).toNat

/-- Headers that are stored at consecutive indices. -/
theorem foldl_set {α β : Type} (f : β → α) (idx : β → Nat) (d : α) (ks : List β) (pre : List α)
    (h : ∀ i k, ks[i]? = some k → idx k = pre.length + i) :
    ks.foldl (fun xs k => xs.set (idx k) (f k)) (pre ++ List.replicate ks.length d) =
      pre ++ ks.map f := by
  induction ks generalizing pre with
  | nil => simp
  | cons k ks ih =>
    have hk := h 0 k rfl
    rw [Nat.add_zero] at hk
    have hset : (pre ++ List.replicate (ks.length + 1) d).set (idx k) (f k) =
        pre ++ [f k] ++ List.replicate ks.length d := by
      rw [hk, List.set_append_right _ _ (Nat.le_refl _), Nat.sub_self, List.replicate_succ,
        List.set_cons_zero, List.append_assoc, List.singleton_append]
    rw [List.foldl_cons, List.length_cons, hset, ih (pre ++ [f k]), List.append_assoc,
      List.map_cons, List.singleton_append]
    intro i k' hi
    rw [h (i + 1) k' hi, List.length_append, List.length_singleton]
    omega

theorem foldl_filter_set {α β : Type} (has : β → Bool) (g : List α → β → List α) (ks : List β)
    (xs : List α) : ks.foldl (fun xs k => if has k then g xs k else xs) xs =
      (ks.filter has).foldl g xs := by
  induction ks generalizing xs with
  | nil => rfl
  | cons k ks ih =>
    rw [List.foldl_cons, List.filter_cons, ih]
    split <;> rfl

section

variable {p : ElfProg} (hnum : p.Numbered I.kinds 1) (hhas : ∀ k, p.has k = I.has k)
  (hcount : p.numShdrs = BitVec.ofNat 32 (1 + I.kinds.length))

include hnum in
theorem toNat_shIndices {i : Nat} {k : SectionKind} (hi : I.kinds[i]? = some k) :
    (p.shIndices k).toNat = 1 + i := by
  have hlt := (List.getElem?_eq_some_iff.mp hi).1
  have hlen := I.length_kinds
  rw [hnum.index i k hi, BitVec.toNat_ofNat, Nat.mod_eq_of_lt (by omega)]

include hnum hhas hcount

theorem fillShdrs_eq : p.fillShdrs I = ElfProg.nullShdr :: I.kinds.map (p.fillShdr I) := by
  have hlen := I.length_kinds
  unfold ElfProg.fillShdrs
  rw [foldl_filter_set p.has fun xs k => xs.set (p.shIndices k).toNat (p.fillShdr I k)]
  rw [show SectionKind.all.filter p.has = I.kinds from List.filter_congr fun k _ => hhas k]
  rw [hcount, BitVec.toNat_ofNat, Nat.mod_eq_of_lt (by omega), Nat.add_comm, List.replicate_succ]
  exact foldl_set (p.fillShdr I) (fun k => (p.shIndices k).toNat) _ I.kinds [ElfProg.nullShdr]
    fun i k hi => toNat_shIndices hnum hi

theorem x64WriteElf_spec (hp : I.elfProg = some p)
    (halign : ∀ k ∈ I.kinds, PowerOfTwo (I.secAlign k))
    (hlength : ∀ k, (p.secData I k).length = I.secLength k)
    (hfits : placeEnd (I.kinds.map I.item) (64 * (2 + I.kinds.length)) < 2 ^ 32) :
    ∃ offsets file, x64WriteElf I = some file ∧ FileOf I { p with offsets } file := by
  have hlen := I.length_kinds
  set init := hdrSize + p.hdr.shnum.setWidth 32 * hdrSize with hinit
  set q := p.finalizeOffsets I init with hq
  have hnumq : q.Numbered I.kinds 1 := ⟨hnum.index, hnum.name⟩
  have hitem : ∀ k, ElfProg.item I q k = ElfProg.item I p k := fun k => by cases k <;> rfl
  have hitem' : ∀ k, ElfProg.item I p k = I.item k := by
    intro k
    unfold ElfProg.item
    rw [hlength]
    rfl
  rw [← List.map_congr_left fun k _ => hitem' k] at hfits
  have hinitNat : init.toNat = 64 * (2 + I.kinds.length) := by
    rw [hinit]
    show (hdrSize + (p.numShdrs.setWidth 16).setWidth 32 * hdrSize).toNat = _
    simp only [hcount, BitVec.toNat_add, BitVec.toNat_mul, BitVec.toNat_setWidth,
      BitVec.toNat_ofNat, show hdrSize.toNat = 64 from rfl]
    omega
  have hfilter : SectionKind.all.filter p.has = I.kinds := List.filter_congr fun k _ => hhas k
  obtain ⟨hplace, -⟩ := ElfProg.offsetsFrom_spec (I := I) (p := p) I.nodup_kinds
    (fun k hk => (hhas k).trans (ElfInput.mem_kinds.mp hk)) halign init p.offsets
    (by omega) (by rwa [hinitNat])
  have hoffsets : q.offsets = p.offsetsFrom I I.kinds init p.offsets := by
    show p.offsetsFrom I SectionKind.all init p.offsets = _
    rw [ElfProg.offsetsFrom_filter, hfilter]
  rw [← hoffsets, ← List.map_congr_left fun k _ => hitem k, hinitNat] at hplace
  rw [← List.map_congr_left fun k _ => hitem k] at hfits
  have hshdrs := fillShdrs_eq (p := q) hnumq hhas hcount
  have hshdrLen : ((q.fillShdrs I).flatMap Elf.Shdr.bytes).length = 64 * (1 + I.kinds.length) := by
    rw [Elf.length_flatMap Elf.Shdr.length_bytes, hshdrs, List.length_cons, List.length_map,
      Nat.add_comm]
  have hcountq : (q.numShdrs * hdrSize).toNat = 64 * (1 + I.kinds.length) := by
    show (p.numShdrs * hdrSize).toNat = _
    simp only [hcount, BitVec.toNat_mul, BitVec.toNat_ofNat, show hdrSize.toNat = 64 from rfl]
    omega
  have hhdr := q.hdr.length_bytes
  set o : ElfProg.Output := ⟨q.hdr.bytes ++ (q.fillShdrs I).flatMap Elf.Shdr.bytes,
    hdrSize + q.numShdrs * hdrSize⟩ with ho
  have h1 : ElfProg.writeBin ⟨[], 0⟩ q.hdr.bytes hdrSize 0 = some ⟨q.hdr.bytes, hdrSize⟩ :=
    ElfProg.writeBin_spec hhdr []
  have h2 : ElfProg.writeBin ⟨q.hdr.bytes, hdrSize⟩ ((q.fillShdrs I).flatMap Elf.Shdr.bytes)
      (q.numShdrs * hdrSize) hdrSize = some o :=
    ElfProg.writeBin_spec (hshdrLen.trans hcountq.symm) q.hdr.bytes
  have hoLen : o.file.length = 64 * (2 + I.kinds.length) := by
    rw [ho, List.length_append, hhdr, hshdrLen]
    omega
  obtain ⟨o', hrun, ⟨zs, hzs⟩, hslice⟩ := ElfProg.writeSections_spec (I := I) (p := q)
    (fun k hk => (hhas k).trans (ElfInput.mem_kinds.mp hk)) (fun k hk => (halign k hk).pos) o
    (by
      rw [hoLen, ho]
      show _ = (hdrSize + q.numShdrs * hdrSize).toNat
      rw [BitVec.toNat_add, hcountq]
      show _ = (64 + _) % 2 ^ 32
      omega)
    (by rwa [hoLen]) (by rwa [hoLen])
  have hpos : ∀ i ∈ I.kinds.map (ElfProg.item I q), 0 < i.align := by
    intro i hi
    obtain ⟨k, hk, rfl⟩ := List.mem_map.mp hi
    exact (halign k hk).pos
  have hplaced := placed_place (64 * (2 + I.kinds.length)) hpos
  have hget : ∀ k ∈ I.kinds, I.secAlign k ∣ (q.offsets k).toNat ∧
      64 * (2 + I.kinds.length) ≤ (q.offsets k).toNat ∧
      (q.offsets k).toNat + (q.secData I k).length < 2 ^ 32 := by
    intro k hk
    obtain ⟨i, hi⟩ := List.mem_iff_getElem?.mp hk
    obtain ⟨hd, hlo, hhi⟩ := hplaced.get (k := i) (i := ElfProg.item I q k)
      (o := (q.offsets k).toNat) (by rw [List.getElem?_map, hi]; rfl)
      (by rw [← hplace, List.getElem?_map, hi]; rfl)
    exact ⟨hd, hlo, hhi.trans_lt hfits⟩
  refine ⟨q.offsets, o'.file, ?_, ?_, ?_, ?_, hslice, ?_⟩
  · unfold x64WriteElf
    rw [hp]
    simp only [Option.bind_eq_bind, Option.bind_some]
    rw [← hinit, ← hq, h1, Option.bind_some, h2, Option.bind_some, ElfProg.writeSections,
      ElfProg.foldlM_writeSection_filter, show SectionKind.all.filter q.has = I.kinds from hfilter,
      hrun]
    rfl
  · rw [hzs, ho]
    exact ⟨_, List.append_assoc ..⟩
  · show Elf.slice o'.file 64 _ =
      some ((ElfProg.nullShdr :: I.kinds.map (q.fillShdr I)).flatMap Elf.Shdr.bytes)
    rw [← hshdrs, hzs, ho]
    refine Elf.slice_mono ?_ zs
    have h := Elf.slice_append q.hdr.bytes ((q.fillShdrs I).flatMap Elf.Shdr.bytes) []
    rwa [hhdr, hshdrLen, List.append_nil] at h
  · intro k hk
    have := hget k hk
    show (q.secData I k).length < 2 ^ 32
    omega
  · intro k hk
    obtain ⟨hd, hlo, hhi⟩ := hget k hk
    have hle := Nat.le_of_dvd (by omega) hd
    exact ⟨by omega, hd⟩

/-! ## Reading it -/

/-- A section as it is read. -/
def fileSection (I : ElfInput) (p : ElfProg) (k : SectionKind) : Elf.Section :=
  ⟨p.fillShdr I k, k.name, p.secData I k⟩

def fileSections (I : ElfInput) (p : ElfProg) : List Elf.Section :=
  ⟨ElfProg.nullShdr, [], []⟩ :: I.kinds.map (fileSection I p)

omit hhas hcount in
/-- A section is at its index. -/
theorem fileSections_get {k : SectionKind} (hk : k ∈ I.kinds) {α : Type} (d : α)
    (f : SectionKind → α) : (d :: I.kinds.map f)[(p.shIndices k).toNat]? = some (f k) := by
  obtain ⟨i, hi⟩ := List.mem_iff_getElem?.mp hk
  rw [toNat_shIndices hnum hi, Nat.add_comm, List.getElem?_cons_succ, List.getElem?_map, hi]
  rfl

omit hhas hcount in
theorem shIndices_le {k : SectionKind} (hk : k ∈ I.kinds) :
    0 < (p.shIndices k).toNat ∧ (p.shIndices k).toNat ≤ 8 := by
  have hlen := I.length_kinds
  obtain ⟨i, hi⟩ := List.mem_iff_getElem?.mp hk
  have hlt := (List.getElem?_eq_some_iff.mp hi).1
  rw [toNat_shIndices hnum hi]
  omega

variable {file : List UInt8} (hfile : FileOf I p file)

include hfile

omit hnum hhas in
theorem readHeaders_file :
    Elf.readHeaders file p.hdr = some (ElfProg.nullShdr :: I.kinds.map (p.fillShdr I)) := by
  have hlen := I.length_kinds
  have hsize : p.hdr.shentsize.toNat * p.hdr.shnum.toNat = 64 * (1 + I.kinds.length) := by
    show 64 * (p.numShdrs.setWidth 16).toNat = _
    rw [hcount, BitVec.toNat_setWidth, BitVec.toNat_ofNat]
    omega
  unfold Elf.readHeaders
  rw [hsize, show p.hdr.shoff.toNat = 64 from rfl, hfile.shdrs]
  simp only [Option.bind_eq_bind, Option.bind_some]
  rw [if_pos (show p.hdr.shentsize = 64 from rfl)]
  exact Elf.readAll_flatMap Elf.Shdr.read_bytes Elf.Shdr.length_bytes (by decide) _

omit hnum hhas hcount in
theorem slice_file {k : SectionKind} (hk : k ∈ I.kinds) :
    Elf.slice file (p.fillShdr I k).offset.toNat (p.fillShdr I k).size.toNat =
      some (p.secData I k) := by
  have hoff : (p.fillShdr I k).offset.toNat = (p.offsets k).toNat :=
    BitVec.toNat_setWidth_of_le (by decide)
  have hsize : (p.fillShdr I k).size.toNat = (p.secData I k).length :=
    (BitVec.toNat_setWidth_of_le (by decide)).trans (ElfProg.toNat_secSize (hfile.size k hk))
  rw [hoff, hsize]
  exact hfile.data k hk

omit hhas in
theorem readSections_file {zs : List UInt8} (htab : p.shstrtab = strtabInit ++ zs) :
    Elf.readSections file p.hdr = some (fileSections I p) := by
  have hstr : SectionKind.shstrtab ∈ I.kinds := ElfInput.mem_kinds.mpr rfl
  have hidx : p.hdr.shstrndx.toNat = (p.shIndices .shstrtab).toNat := by
    have := shIndices_le hnum hstr
    show ((p.shIndices .shstrtab).setWidth 16).toNat = _
    rw [BitVec.toNat_setWidth]
    omega
  have hnull : Elf.readSection file p.shstrtab ElfProg.nullShdr =
      some ⟨ElfProg.nullShdr, [], []⟩ := by
    have hname : Elf.strAt p.shstrtab 0 = some [] := by
      rw [htab]
      exact Elf.strAt_mono (by decide) zs
    have hdata : Elf.slice file 0 0 = some [] := if_pos (Nat.zero_le _)
    unfold Elf.readSection
    rw [show ElfProg.nullShdr.name.toNat = 0 from rfl, hname,
      show ElfProg.nullShdr.offset.toNat = 0 from rfl,
      show ElfProg.nullShdr.size.toNat = 0 from rfl, hdata]
    rfl
  have hsec : ∀ k ∈ I.kinds, Elf.readSection file p.shstrtab (p.fillShdr I k) =
      some (fileSection I p k) := by
    intro k hk
    obtain ⟨hlt, hd⟩ := hfile.align k hk
    have hmod : (p.fillShdr I k).offset.toNat % (p.fillShdr I k).addralign.toNat = 0 := by
      show ((p.offsets k).setWidth 64).toNat %
        ((BitVec.ofNat 32 (I.secAlign k)).setWidth 64).toNat = 0
      rw [BitVec.toNat_setWidth_of_le (by decide), BitVec.toNat_setWidth_of_le (by decide),
        BitVec.toNat_ofNat, Nat.mod_eq_of_lt hlt]
      exact Nat.mod_eq_zero_of_dvd hd
    unfold Elf.readSection
    rw [show (p.fillShdr I k).name = p.shNameLocs k from rfl, hnum.name k hk, slice_file hfile hk]
    simp only [Option.bind_eq_bind, Option.bind_some]
    rw [if_pos hmod]
    rfl
  unfold Elf.readSections
  rw [readHeaders_file hcount hfile]
  simp only [Option.bind_eq_bind, Option.bind_some]
  rw [hidx, fileSections_get hnum hstr, Option.bind_some, slice_file hfile hstr, Option.bind_some]
  show (ElfProg.nullShdr :: I.kinds.map (p.fillShdr I)).mapM (Elf.readSection file p.shstrtab) = _
  rw [List.mapM_cons, hnull, List.mapM_map]
  have hmap : I.kinds.mapM (Elf.readSection file p.shstrtab ∘ p.fillShdr I) =
      some (I.kinds.map (fileSection I p)) := Data.mapM_eq_map hsec
  rw [hmap]
  rfl

omit hhas hcount hfile

theorem symbolSection_file {s : SectionSym} (hs : s ∈ I.sectionSyms) :
    Elf.symbolSection (fileSections I p) ((p.shIndices (sectionKind s)).setWidth 16) =
      some (some (sectionKind s).name) := by
  have hk : sectionKind s ∈ I.kinds := ElfInput.mem_kinds.mpr (mem_sectionSyms.mp hs)
  obtain ⟨hpos, hle⟩ := shIndices_le hnum hk
  have hnat : ((p.shIndices (sectionKind s)).setWidth 16).toNat =
      (p.shIndices (sectionKind s)).toNat := by
    rw [BitVec.toNat_setWidth]
    omega
  have hne : (p.shIndices (sectionKind s)).setWidth 16 ≠ 0 := by
    intro h
    rw [h] at hnat
    change 0 = _ at hnat
    omega
  unfold Elf.symbolSection
  rw [if_neg hne, hnat]
  unfold fileSections
  rw [fileSections_get hnum hk]
  rfl

theorem readSymbols_file {p₀ q : ElfProg} {x : SymIdxs} (hsyms : SymbolsOf I p₀ q x)
    (hidx : p.shIndices = p₀.shIndices) (hsymtab : p.symtab = q.symtab)
    (hstrtab : p.strtab = q.strtab) (hfit : q.strtab.length < 2 ^ 32) :
    Elf.readSymbols (fileSections I p) (fileSection I p .symtab) = some I.symbols := by
  have hstr : SectionKind.strtab ∈ I.kinds := ElfInput.mem_kinds.mpr rfl
  have hlen := length_sectionSyms I
  have hstart : (fileSection I p .symtab).hdr.info.toNat = 1 + I.sectionSyms.length := by
    show p.symtab.globalStart.toNat = _
    rw [hsymtab, hsyms.prog, BitVec.toNat_ofNat]
    omega
  have hread : Elf.readAll Elf.Sym.read 24 (fileSection I p .symtab).data = some q.symtab.syms := by
    show Elf.readAll Elf.Sym.read 24 (p.symtab.syms.flatMap Elf.Sym.bytes) = _
    rw [hsymtab]
    exact Elf.readAll_flatMap Elf.Sym.read_bytes Elf.Sym.length_bytes (by decide) _
  unfold Elf.readSymbols
  rw [show (fileSection I p .symtab).hdr.link = p.shIndices .strtab from rfl]
  unfold fileSections
  rw [fileSections_get hnum hstr, hread]
  simp only [Option.bind_eq_bind, Option.bind_some]
  rw [hstart, hsyms.locals, hsyms.globals, if_pos ⟨rfl, rfl, rfl, rfl⟩,
    show (fileSection I p .strtab).data = q.strtab from hstrtab]
  exact hsyms.read hfit _ fun s hs => hidx ▸ symbolSection_file hnum hs

/-- The entries of a section of relocations are read with the section they are for. -/
theorem readRelocs_file {k target : SectionKind} {relas : List Elf.Rela}
    (htarget : target ∈ I.kinds) (hdata : p.secData I k = relas.flatMap Elf.Rela.bytes)
    (hinfo : p.shdrInfo k = p.shIndices target) (hlink : p.shdrLink k = p.shIndices .symtab)
    (hent : ElfProg.shdrEntsize k = 24) :
    Elf.readRelocs (fileSections I p) I.symbols (fileSection I p k) =
      relas.mapM (Elf.readReloc target.name I.symbols) := by
  have hsymtab : SectionKind.symtab ∈ I.kinds := ElfInput.mem_kinds.mpr rfl
  have hread : Elf.readAll Elf.Rela.read 24 (fileSection I p k).data = some relas := by
    show Elf.readAll Elf.Rela.read 24 (p.secData I k) = _
    rw [hdata]
    exact Elf.readAll_flatMap Elf.Rela.read_bytes Elf.Rela.length_bytes (by decide) _
  unfold Elf.readRelocs
  rw [show (fileSection I p k).hdr.info = p.shIndices target from hinfo,
    show (fileSection I p k).hdr.link = p.shIndices .symtab from hlink]
  unfold fileSections
  rw [fileSections_get hnum htarget, fileSections_get hnum hsymtab, hread]
  simp only [Option.bind_eq_bind, Option.bind_some]
  rw [if_pos ⟨hent, rfl⟩]
  rfl

end

section

variable (I : ElfInput) (p : ElfProg)

theorem find_symtab : (fileSections I p).find? (·.hdr.type = Elf.typeSymtab) =
    some (fileSection I p .symtab) := by
  unfold fileSections ElfInput.kinds SectionKind.all
  simp only [List.filter_cons]
  generalize I.has .roData = a
  generalize I.has .data = b
  cases a <;> cases b <;> rfl

theorem filter_rela : (fileSections I p).filter (·.hdr.type = Elf.typeRela) =
    (if I.has .relaData then [fileSection I p .relaData] else []) ++
      if I.has .relaText then [fileSection I p .relaText] else [] := by
  unfold fileSections ElfInput.kinds SectionKind.all
  simp only [List.filter_cons]
  generalize I.has .roData = a
  generalize I.has .data = b
  generalize I.has .relaData = c
  generalize I.has .relaText = d
  cases a <;> cases b <;> cases c <;> cases d <;> rfl

theorem filter_progbits : (fileSections I p).filter (·.hdr.type = Elf.typeProgbits) =
    (if I.has .roData then [fileSection I p .roData] else []) ++
      (if I.has .data then [fileSection I p .data] else []) ++ [fileSection I p .text] := by
  unfold fileSections ElfInput.kinds SectionKind.all
  simp only [List.filter_cons]
  generalize I.has .roData = a
  generalize I.has .data = b
  generalize I.has .relaData = c
  generalize I.has .relaText = d
  cases a <;> cases b <;> cases c <;> cases d <;> rfl

theorem map_prog (halign : ∀ k ∈ I.kinds, I.secAlign k < 2 ^ 32) :
    ((fileSections I p).filter (·.hdr.type = Elf.typeProgbits)).map Elf.Section.prog =
      I.progSections := by
  have hprog : ∀ k, I.has k = true → (fileSection I p k).prog =
      ⟨k.name, ElfProg.shdrFlags k, BitVec.ofNat 64 (I.secAlign k), p.secData I k⟩ := by
    intro k hk
    have hlt := halign k (ElfInput.mem_kinds.mpr hk)
    have hal : (BitVec.ofNat 32 (I.secAlign k)).setWidth 64 = BitVec.ofNat 64 (I.secAlign k) := by
      apply BitVec.eq_of_toNat_eq
      rw [BitVec.toNat_setWidth, BitVec.toNat_ofNat, BitVec.toNat_ofNat]
      omega
    unfold Elf.Section.prog
    rw [← hal]
    rfl
  rw [filter_progbits, List.map_append, List.map_append, List.map_singleton, hprog .text rfl]
  unfold ElfInput.progSections
  refine congrArg₂ _ (congrArg₂ _ ?_ ?_) rfl
  · split
    · rw [List.map_singleton, hprog .roData ‹_›]
      rfl
    · rfl
  · split
    · rw [List.map_singleton, hprog .data ‹_›]
      rfl
    · rfl

end

theorem mapM_bind {α β γ : Type} {f : α → Option β} {g : β → Option γ} {h : α → Option γ}
    {l : List α} (hfg : ∀ a ∈ l, (f a).bind g = h a) :
    (l.mapM f).bind (fun bs => bs.mapM g) = l.mapM h := by
  induction l with
  | nil => rfl
  | cons a l ih =>
    have ih := ih fun b hb => hfg b (List.mem_cons_of_mem a hb)
    rw [List.mapM_cons, List.mapM_cons, ← hfg a List.mem_cons_self, ← ih]
    cases f a with
    | none => rfl
    | some b =>
      cases l.mapM f with
      | none => cases hb : g b <;> simp [hb]
      | some bs =>
        simp only [Option.bind_eq_bind, Option.bind_some, Option.pure_def, List.mapM_cons]

section

variable {p : ElfProg} (hnum : p.Numbered I.kinds 1)

include hnum

/-- A section of relocations that the file has if there are any. -/
theorem mapM_readRelocs (k target : SectionKind) {relas : List Elf.Rela}
    (hhas : I.has k = false → relas = []) (htarget : I.has k = true → target ∈ I.kinds)
    (hdata : p.secData I k = relas.flatMap Elf.Rela.bytes)
    (hinfo : p.shdrInfo k = p.shIndices target) (hlink : p.shdrLink k = p.shIndices .symtab)
    (hent : ElfProg.shdrEntsize k = 24) :
    ((if I.has k then [fileSection I p k] else []).mapM
        (Elf.readRelocs (fileSections I p) I.symbols)).map List.flatten =
      relas.mapM (Elf.readReloc target.name I.symbols) := by
  cases hk : I.has k with
  | true =>
    rw [if_pos rfl, List.mapM_cons, readRelocs_file hnum (htarget hk) hdata hinfo hlink hent]
    cases relas.mapM (Elf.readReloc target.name I.symbols) with
    | none => rfl
    | some relocs => exact congrArg some (List.append_nil relocs)
  | false =>
    rw [hhas hk]
    rfl

end

/-- What a file is read as whose relocations are these entries. -/
def readEntries (I : ElfInput) (relaData relaText : List Elf.Rela) : Option Elf.Object := do
  let dataRelocs ← relaData.mapM (Elf.readReloc SectionKind.data.name I.symbols)
  let textRelocs ← relaText.mapM (Elf.readReloc SectionKind.text.name I.symbols)
  return ⟨62, I.progSections, I.symbols, dataRelocs ++ textRelocs⟩

theorem read_x64WriteElf (hI : I.Ok) {q : ElfProg} {x : SymIdxs}
    (hsyms : SymbolsOf I (ElfProg.init I) q x) {relaData relaText : List Elf.Rela}
    (hp : I.elfProg = some { q with relaData, relaText })
    (hdata : relaData.length = I.data.relocs.length)
    (htext : relaText.length = I.text.relocs.length) :
    (x64WriteElf I).bind Elf.read = readEntries I relaData relaText := by
  obtain ⟨hnum, hhas, hcount, ⟨zs, htab⟩, hsum⟩ := ElfProg.init_spec I
  have hidx : q.shIndices = (ElfProg.init I).shIndices := by rw [hsyms.prog]
  have hloc : q.shNameLocs = (ElfProg.init I).shNameLocs := by rw [hsyms.prog]
  have hstr : q.shstrtab = (ElfProg.init I).shstrtab := by rw [hsyms.prog]
  have hsec : q.numShdrs = (ElfProg.init I).numShdrs := by
    rw [hsyms.prog]
    rfl
  set p : ElfProg := { q with relaData, relaText } with hpdef
  have hnump : p.Numbered I.kinds 1 := by
    refine ⟨fun i k hi => ?_, fun k hk => ?_⟩
    · exact (congrFun hidx k).trans (hnum.index i k hi)
    · show Elf.strAt q.shstrtab (q.shNameLocs k).toNat = _
      rw [hstr, hloc]
      exact hnum.name k hk
  have hlength : ∀ k, (p.secData I k).length = I.secLength k := by
    intro k
    cases k with
    | roData | data | text => rfl
    | symtab =>
      show (q.symtab.syms.flatMap Elf.Sym.bytes).length = 24 * I.symbols.length
      rw [Elf.length_flatMap Elf.Sym.length_bytes, hsyms.symsLength]
    | strtab => exact hsyms.strtabLength
    | relaData =>
      show (relaData.flatMap Elf.Rela.bytes).length = 24 * I.data.relocs.length
      rw [Elf.length_flatMap Elf.Rela.length_bytes, hdata]
    | relaText =>
      show (relaText.flatMap Elf.Rela.bytes).length = 24 * I.text.relocs.length
      rw [Elf.length_flatMap Elf.Rela.length_bytes, htext]
    | shstrtab => exact (congrArg List.length hstr).trans hsum
  obtain ⟨offsets, file, hwrite, hfile⟩ := x64WriteElf_spec hnump
    (fun k => (has_of_prog hidx k).trans (hhas k)) (hsec.trans hcount) hp hI.align hlength hI.fits
  set r : ElfProg := { p with offsets } with hr
  have hnumr : r.Numbered I.kinds 1 := ⟨hnump.index, hnump.name⟩
  obtain ⟨rest, hrest⟩ := hfile.hdr
  have hhdr : Elf.Hdr.read file = some (r.hdr, rest) := by
    rw [hrest]
    exact Elf.Hdr.read_bytes r.hdr rest
  have hsections := readSections_file hnumr (hsec.trans hcount) hfile (hstr.trans htab)
  have hstrtab : q.strtab.length < 2 ^ 32 := by
    rw [hsyms.strtabLength]
    exact secLength_lt hI (ElfInput.mem_kinds.mpr rfl)
  have hsymbols := readSymbols_file hnumr hsyms hidx rfl rfl hstrtab
  have hempty : ∀ {α β : Type} {l : List α} {l' : List β}, l'.length = l.length →
      decide (0 < l.length) = false → l' = [] := by
    intro α β l l' hlen h
    rw [decide_eq_false_iff_not] at h
    exact List.eq_nil_of_length_eq_zero (by omega)
  have hrelaData := mapM_readRelocs hnumr .relaData .data
    (hempty hdata) (fun h => ElfInput.mem_kinds.mpr (decide_eq_true (hI.relocs
      (List.length_pos_iff.mp (of_decide_eq_true h))))) rfl rfl rfl rfl
  have hrelaText := mapM_readRelocs hnumr .relaText .text
    (hempty htext) (fun _ => ElfInput.mem_kinds.mpr rfl) rfl rfl rfl rfl
  rw [hwrite, Option.bind_some]
  unfold Elf.read readEntries
  rw [hhdr, ← hrelaData, ← hrelaText]
  simp only [Option.bind_eq_bind, Option.bind_some]
  rw [hsections, Option.bind_some, find_symtab, Option.bind_some, hsymbols, Option.bind_some,
    filter_rela, List.mapM_append, map_prog I r fun k hk => (hfile.align k hk).1]
  generalize (if I.has .relaData then [fileSection I r .relaData] else []).mapM
    (Elf.readRelocs (fileSections I r) I.symbols) = a
  generalize (if I.has .relaText then [fileSection I r .relaText] else []).mapM
    (Elf.readRelocs (fileSections I r) I.symbols) = b
  cases a with
  | none => rfl
  | some ls =>
    cases b with
    | none => rfl
    | some ls' =>
      simp only [Option.bind_eq_bind, Option.bind_some, Option.pure_def, Option.map_some]
      rw [if_pos (show r.hdr.type = 1 from rfl), List.flatten_append]
      rfl

/-- A variable with the address of a literal, and a call of a foreign procedure. -/
def oneCall : ElfInput where
  prog := {
    symKind := fun s => if s = 0 then .var else .foreignProc
    decls := [0, 1]
    var := fun s => ⟨s, .ptr 1, none⟩
    strs := [0]
    strBytes := fun _ => [104, 105]
    floats := []
    procOffs := [] }
  floats := []
  foreignName _ := [112, 117, 116, 115]
  rodata := ⟨[104, 105, 0], 16, [], [0]⟩
  data := ⟨[0, 0, 0, 0, 0, 0, 0, 0], 8, [0], [⟨⟨.strLit 0, 0⟩, 0⟩]⟩
  text := ⟨[0xE8, 0, 0, 0, 0, 0xC3], 16, [⟨1, 4, .sym 1⟩]⟩

end Nibble.X64
