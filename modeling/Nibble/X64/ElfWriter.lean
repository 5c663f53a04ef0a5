import Nibble.Data.Reloc
import Nibble.Lib.Elf

/-!
# The writer of the object file

`x64_write_elf`: the sections get their indices and names, the symbols and the
relocations are built, then each section its offset in the file, and last the
header, the section headers and the sections are written one after the other.
Numbers of the writer have 32 bits.
-/

namespace Nibble.X64

open Nibble.IR (SymId)
open Nibble.Data (Program RODataSection DataSection DataReloc SectionSym)
open Nibble.Lib

/-! ## Sections -/

/-- `X64_SectionKind`. -/
inductive SectionKind where
  | roData | data | text | symtab | strtab | relaData | relaText | shstrtab
  deriving DecidableEq, Repr

/-- The kinds up to `X64_ELF_SECTION_COUNT`. -/
def SectionKind.all : List SectionKind :=
  [.roData, .data, .text, .symtab, .strtab, .relaData, .relaText, .shstrtab]

/-- The bytes of a name. -/
def nameBytes (s : String) : List UInt8 := s.toList.map fun c => UInt8.ofNat c.toNat

def SectionKind.name : SectionKind → List UInt8
  | .roData => nameBytes ".rodata"
  | .data => nameBytes ".data"
  | .text => nameBytes ".text"
  | .symtab => nameBytes ".symtab"
  | .strtab => nameBytes ".strtab"
  | .relaData => nameBytes ".rela.data"
  | .relaText => nameBytes ".rela.text"
  | .shstrtab => nameBytes ".shstrtab"

/-- `X64_TextSection`. The offsets of procedures are the program's. -/
structure TextSection where
  buf : List UInt8
  align : Nat
  relocs : List TextReloc

/-- What the object file is made of. -/
structure ElfInput where
  prog : Program
  /-- The float literals in the order in which they are met. -/
  floats : List Nat
  foreignName : SymId → List UInt8
  rodata : RODataSection
  data : DataSection 32
  text : TextSection

/-- `float_lit->index`. -/
def ElfInput.floatNumbers (I : ElfInput) : Numbering Nat := Numbering.empty.run I.floats

structure SymTable where
  syms : List Elf.Sym
  globalStart : BitVec 32

/-- `X64_ElfProg` with the sections that the writer makes itself. -/
structure ElfProg where
  numSections : BitVec 32
  /-- Zero for a section that the file does not have. -/
  shIndices : SectionKind → BitVec 32
  shNameLocs : SectionKind → BitVec 32
  offsets : SectionKind → BitVec 32
  symtab : SymTable
  strtab : List UInt8
  relaData : List Elf.Rela
  relaText : List Elf.Rela
  shstrtab : List UInt8

/-- `Elf_strtab_init`. -/
def strtabInit : List UInt8 := [0]

/-- `Elf_strtab_add`, with the location of the string. -/
def strtabAdd (table str : List UInt8) : List UInt8 × BitVec 32 :=
  (table ++ str.takeWhile (· != 0) ++ [0], BitVec.ofNat 32 table.length)

namespace ElfProg

/-- `X64_ElfProg elf_prog = {0}` with an empty table of names. -/
def empty : ElfProg :=
  ⟨0, fun _ => 0, fun _ => 0, fun _ => 0, ⟨[], 0⟩, [], [], [], strtabInit⟩

/-- `_ADD_SECTION`. The second component is `sh_idx`. -/
def addSection (s : ElfProg × BitVec 32) (k : SectionKind) : ElfProg × BitVec 32 :=
  let (p, shIdx) := s
  let (shstrtab, loc) := strtabAdd p.shstrtab k.name
  ({ p with
      shIndices := Function.update p.shIndices k shIdx
      shNameLocs := Function.update p.shNameLocs k loc
      shstrtab }, shIdx + 1)

def addSectionIf (s : ElfProg × BitVec 32) (has : Bool) (k : SectionKind) : ElfProg × BitVec 32 :=
  if has then addSection s k else s

/-- `x64_init_elf_prog`. -/
def init (I : ElfInput) : ElfProg :=
  let hasRodata : Bool := 0 < I.rodata.buf.length
  let hasData : Bool := 0 < I.data.buf.length
  let hasRelaData : Bool := 0 < I.data.relocs.length
  let hasRelaText : Bool := 0 < I.text.relocs.length
  let s := ({ empty with numSections := 4 + hasRodata.toNat + hasData.toNat + hasRelaData.toNat +
    hasRelaText.toNat }, 1)
  let s := addSectionIf s hasRodata .roData
  let s := addSectionIf s hasData .data
  let s := addSection s .text
  let s := addSection s .symtab
  let s := addSection s .strtab
  let s := addSectionIf s hasRelaData .relaData
  let s := addSectionIf s hasRelaText .relaText
  (addSection s .shstrtab).1

/-- `x64_prog_has_sec`. -/
def has (p : ElfProg) (k : SectionKind) : Bool := 0 < p.shIndices k

variable (I : ElfInput) (p : ElfProg)

/-- `x64_prog_sec_data`. -/
def secData : SectionKind → List UInt8
  | .roData => I.rodata.buf
  | .data => I.data.buf
  | .text => I.text.buf
  | .symtab => p.symtab.syms.flatMap Elf.Sym.bytes
  | .strtab => p.strtab
  | .relaData => p.relaData.flatMap Elf.Rela.bytes
  | .relaText => p.relaText.flatMap Elf.Rela.bytes
  | .shstrtab => p.shstrtab

/-- `x64_prog_sec_size`. -/
def secSize : SectionKind → BitVec 32
  | .roData => BitVec.ofNat 32 I.rodata.buf.length
  | .data => BitVec.ofNat 32 I.data.buf.length
  | .text => BitVec.ofNat 32 I.text.buf.length
  | .symtab => BitVec.ofNat 32 (24 * p.symtab.syms.length)
  | .strtab => BitVec.ofNat 32 p.strtab.length
  | .relaData => BitVec.ofNat 32 (24 * p.relaData.length)
  | .relaText => BitVec.ofNat 32 (24 * p.relaText.length)
  | .shstrtab => BitVec.ofNat 32 p.shstrtab.length

end ElfProg

/-- `x64_prog_sec_align`. -/
def ElfInput.secAlign (I : ElfInput) : SectionKind → Nat
  | .roData => I.rodata.align
  | .data => I.data.align
  | .text => I.text.align
  | .symtab | .relaData | .relaText => 8
  | .strtab | .shstrtab => 1

/-! ## Symbols -/

/-- The indices of the symbols that relocations refer to. -/
structure SymIdxs where
  rodata : BitVec 32
  data : BitVec 32
  text : BitVec 32
  /-- `foreign_proc_sym_idxs`. -/
  foreign : List (Option (BitVec 32))

def SymIdxs.section (x : SymIdxs) : SectionSym → BitVec 32
  | .rodata => x.rodata
  | .data => x.data
  | .text => x.text

/-- `syms[sym_idx++] = sym`, with the symbol's index. -/
def addSym (syms : List Elf.Sym) (sym : Elf.Sym) : List Elf.Sym × BitVec 32 :=
  (syms ++ [sym], BitVec.ofNat 32 syms.length)

namespace ElfProg

/-- The symbol of a section, local and of type `STT_SECTION`. -/
def sectionSym (p : ElfProg) (k : SectionKind) : Elf.Sym :=
  ⟨0, 3, 0, (p.shIndices k).setWidth 16, 0, 0⟩

/-- A symbol of a section that the file may not have. -/
def addSectionSym (p : ElfProg) (syms : List Elf.Sym) (k : SectionKind) :
    List Elf.Sym × BitVec 32 :=
  if p.has k then addSym syms (p.sectionSym k) else (syms, 0)

/-- A global symbol without type. -/
def addGlobalSym (strtab : List UInt8) (syms : List Elf.Sym) (name : List UInt8)
    (shndx : BitVec 16) : List UInt8 × List Elf.Sym × BitVec 32 :=
  let (strtab, loc) := strtabAdd strtab name
  (strtab, addSym syms ⟨loc, 16, 0, shndx, 0, 0⟩)

end ElfProg

/-- The turn of a foreign procedure in the loop over them. `none` is an index behind the end of
`foreign_proc_sym_idxs`. -/
def addForeignSym (I : ElfInput)
    (s : List UInt8 × List Elf.Sym × List (Option (BitVec 32))) (f : SymId) :
    Option (List UInt8 × List Elf.Sym × List (Option (BitVec 32))) :=
  let (strtab, syms, foreign) := s
  let (strtab, syms, idx) := ElfProg.addGlobalSym strtab syms (I.foreignName f) 0
  if I.prog.index f < foreign.length then
    some (strtab, syms, foreign.set (I.prog.index f) (some idx))
  else none

/-- The symbol table and its strings. -/
def ElfProg.addSymbols (I : ElfInput) (p : ElfProg) : Option (ElfProg × SymIdxs) := do
  let syms := [⟨0, 0, 0, 0, 0, 0⟩]
  let (syms, rodata) := p.addSectionSym syms .roData
  let (syms, data) := p.addSectionSym syms .data
  let (syms, text) := addSym syms (p.sectionSym .text)
  let globalStart := BitVec.ofNat 32 syms.length
  let (strtab, syms, _) := ElfProg.addGlobalSym strtabInit syms (nameBytes "_start")
    ((p.shIndices .text).setWidth 16)
  let procs := I.prog.globals.foreignProcs.list
  let (strtab, syms, foreign) ← procs.foldlM (addForeignSym I)
    (strtab, syms, List.replicate procs.length none)
  return ({ p with symtab := ⟨syms, globalStart⟩, strtab }, ⟨rodata, data, text, foreign⟩)

/-! ## Relocations -/

/-- `r_info`. -/
def relaInfo (sym : BitVec 32) (type : BitVec 64) : BitVec 64 := sym.setWidth 64 <<< 32 + type

namespace ElfInput

variable (I : ElfInput)

/-- An entry of `.rela.data`. -/
def relaDataEntry (x : SymIdxs) (r : DataReloc 32) : Option Elf.Rela :=
  (Data.relaData I.prog I.data.varOffs I.rodata.strOffs r).map fun e =>
    ⟨e.offset, relaInfo (x.section e.sym) 1, e.addend⟩

/-- An entry of `.rela.text`. The displacement of the entity is zero. `none` is an index behind the
end of its table, or one that was not filled. -/
def relaTextEntry (x : SymIdxs) (r : TextReloc) : Option Elf.Rela :=
  let offset := BitVec.ofInt 64 r.usageOff
  let bytesToNextIp := BitVec.ofInt 64 r.bytesToNextIp
  match r.refAddr with
  | .strLit i => do
    let off ← I.rodata.strOffs[I.prog.strNumbers.index i]?
    return ⟨offset, relaInfo x.rodata 2, BitVec.ofNat 64 off - bytesToNextIp⟩
  | .floatLit i => do
    let off ← I.rodata.floatOffs[I.floatNumbers.index i]?
    return ⟨offset, relaInfo x.rodata 2, BitVec.ofNat 64 off - bytesToNextIp⟩
  | .sym s =>
    match I.prog.symKind s with
    | .var => do
      let off ← I.data.varOffs[I.prog.index s]?
      return ⟨offset, relaInfo x.data 2, BitVec.ofNat 64 off - bytesToNextIp⟩
    | .foreignProc | .proc => do
      let idx ← x.foreign[I.prog.index s]?
      let idx ← idx
      return ⟨offset, relaInfo idx 4, -bytesToNextIp⟩

/-- The sections as they are before their offsets are known. -/
def elfProg : Option ElfProg := do
  let (p, x) ← (ElfProg.init I).addSymbols I
  let relaData ← I.data.relocs.mapM (I.relaDataEntry x)
  let relaText ← I.text.relocs.mapM (I.relaTextEntry x)
  return { p with relaData, relaText }

end ElfInput

/-! ## Headers -/

/-- `sizeof(Elf64_Hdr)` and `sizeof(Elf64_Shdr)`. -/
def hdrSize : BitVec 32 := 64

namespace ElfProg

variable (I : ElfInput) (p : ElfProg)

/-- The loop of `x64_prog_finalize_offsets`. -/
def offsetsFrom : List SectionKind → BitVec 32 → (SectionKind → BitVec 32) →
    SectionKind → BitVec 32
  | [], _, offsets => offsets
  | k :: ks, offset, offsets =>
    if p.has k then
      let offset := alignUpMask offset (BitVec.ofNat 32 (I.secAlign k))
      offsetsFrom ks (offset + p.secSize I k) (Function.update offsets k offset)
    else offsetsFrom ks offset offsets

/-- `x64_prog_finalize_offsets`. -/
def finalizeOffsets (initOffset : BitVec 32) : ElfProg :=
  { p with offsets := p.offsetsFrom I SectionKind.all initOffset p.offsets }

def numShdrs : BitVec 32 := 1 + p.numSections

def shdrType : SectionKind → BitVec 32
  | .roData | .data | .text => 1
  | .symtab => 2
  | .strtab | .shstrtab => 3
  | .relaData | .relaText => 4

def shdrFlags : SectionKind → BitVec 64
  | .roData => 2
  | .data => 1 ||| 2
  | .text => 2 ||| 4
  | _ => 0

def shdrLink : SectionKind → BitVec 32
  | .symtab => p.shIndices .strtab
  | .relaData | .relaText => p.shIndices .symtab
  | _ => 0

def shdrInfo : SectionKind → BitVec 32
  | .symtab => p.symtab.globalStart
  | .relaData => p.shIndices .data
  | .relaText => p.shIndices .text
  | _ => 0

def shdrEntsize : SectionKind → BitVec 64
  | .symtab | .relaData | .relaText => 24
  | _ => 0

/-- `x64_prog_sec_fill_shdr`. -/
def fillShdr (k : SectionKind) : Elf.Shdr where
  name := p.shNameLocs k
  type := shdrType k
  flags := shdrFlags k
  addr := 0
  offset := (p.offsets k).setWidth 64
  size := (p.secSize I k).setWidth 64
  link := p.shdrLink k
  info := p.shdrInfo k
  addralign := (BitVec.ofNat 32 (I.secAlign k)).setWidth 64
  entsize := shdrEntsize k

def nullShdr : Elf.Shdr := ⟨0, 0, 0, 0, 0, 0, 0, 0, 0, 0⟩

/-- `x64_prog_fill_shdrs`, with an array of zeros. -/
def fillShdrs : List Elf.Shdr :=
  SectionKind.all.foldl
    (fun shdrs k => if p.has k then shdrs.set (p.shIndices k).toNat (p.fillShdr I k) else shdrs)
    (List.replicate p.numShdrs.toNat nullShdr)

def hdr : Elf.Hdr where
  type := 1
  machine := 62
  version := 1
  entry := 0
  phoff := 0
  shoff := 64
  flags := 0
  ehsize := 64
  phentsize := 0
  phnum := 0
  shentsize := 64
  shnum := p.numShdrs.setWidth 16
  shstrndx := (p.shIndices .shstrtab).setWidth 16

/-! ## Output -/

/-- The file as far as it is written, and the offset that the writer counts. -/
structure Output where
  file : List UInt8
  currOffset : BitVec 32

/-- `write_bin`. `none` is the failed assertion. -/
def writeBin (o : Output) (bin : List UInt8) (size tgtOffset : BitVec 32) : Option Output :=
  if o.currOffset ≤ tgtOffset then
    some ⟨o.file ++ List.replicate (tgtOffset - o.currOffset).toNat 0 ++ bin.take size.toNat,
      tgtOffset + size⟩
  else none

/-- The turn of a section in `x64_prog_write_sections`. -/
def writeSection (o : Output) (k : SectionKind) : Option Output :=
  if p.has k then writeBin o (p.secData I k) (p.secSize I k) (p.offsets k) else some o

/-- `x64_prog_write_sections`. -/
def writeSections (o : Output) : Option Output := SectionKind.all.foldlM (p.writeSection I) o

end ElfProg

open ElfProg in
/-- `x64_write_elf`, with the contents of the file. -/
def x64WriteElf (I : ElfInput) : Option (List UInt8) := do
  let p ← I.elfProg
  let p := p.finalizeOffsets I (hdrSize + p.hdr.shnum.setWidth 32 * hdrSize)
  let o ← writeBin ⟨[], 0⟩ p.hdr.bytes hdrSize 0
  let o ← writeBin o ((p.fillShdrs I).flatMap Elf.Shdr.bytes) (p.numShdrs * hdrSize) hdrSize
  let o ← p.writeSections I o
  return o.file

end Nibble.X64
