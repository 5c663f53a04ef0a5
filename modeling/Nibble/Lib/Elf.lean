import Mathlib.Data.List.Basic
import Mathlib.Tactic.ByContra
import Nibble.Lib.Bytes

/-!
# Object files

The relocatable files of ELF64 with their records in little-endian order, and
what a file stands for: the program's sections, the symbols with the names of
their sections, and the relocations with their symbols. Headers, tables and
offsets do not show in it.
-/

namespace Nibble.Lib.Elf

/-! ## Fields -/

def field {w : Nat} (n : Nat) (x : BitVec w) : List UInt8 := leBytes n x.toNat

def readField (n w : Nat) (bs : List UInt8) : Option (BitVec w × List UInt8) :=
  (readLe n bs).map fun r => (BitVec.ofNat w r.1, r.2)

@[simp] theorem length_field {w : Nat} (n : Nat) (x : BitVec w) : (field n x).length = n :=
  length_leBytes n _

theorem readField_field {w : Nat} (n : Nat) (x : BitVec w) (rest : List UInt8) (h : w ≤ 8 * n) :
    readField n w (field n x ++ rest) = some (x, rest) := by
  have hlt : x.toNat < 2 ^ (8 * n) := x.isLt.trans_le (Nat.pow_le_pow_right (by decide) h)
  unfold readField field
  rw [readLe_leBytes, Option.map_some, Nat.mod_eq_of_lt hlt, BitVec.ofNat_toNat,
    BitVec.setWidth_eq]

/-! ## Records -/

/-- `ELFCLASS64`, `ELFDATA2LSB`, version 1 and the ABI of System V. -/
def ident : List UInt8 := [127, 69, 76, 70, 2, 1, 1, 0, 0, 0, 0, 0, 0, 0, 0, 0]

structure Hdr where
  type : BitVec 16
  machine : BitVec 16
  version : BitVec 32
  entry : BitVec 64
  phoff : BitVec 64
  shoff : BitVec 64
  flags : BitVec 32
  ehsize : BitVec 16
  phentsize : BitVec 16
  phnum : BitVec 16
  shentsize : BitVec 16
  shnum : BitVec 16
  shstrndx : BitVec 16
  deriving DecidableEq, Repr

structure Shdr where
  name : BitVec 32
  type : BitVec 32
  flags : BitVec 64
  addr : BitVec 64
  offset : BitVec 64
  size : BitVec 64
  link : BitVec 32
  info : BitVec 32
  addralign : BitVec 64
  entsize : BitVec 64
  deriving DecidableEq, Repr

structure Sym where
  name : BitVec 32
  info : BitVec 8
  other : BitVec 8
  shndx : BitVec 16
  value : BitVec 64
  size : BitVec 64
  deriving DecidableEq, Repr

structure Rela where
  offset : BitVec 64
  info : BitVec 64
  addend : BitVec 64
  deriving DecidableEq, Repr

def Hdr.bytes (h : Hdr) : List UInt8 :=
  ident ++ (field 2 h.type ++ (field 2 h.machine ++ (field 4 h.version ++ (field 8 h.entry ++
    (field 8 h.phoff ++ (field 8 h.shoff ++ (field 4 h.flags ++ (field 2 h.ehsize ++
    (field 2 h.phentsize ++ (field 2 h.phnum ++ (field 2 h.shentsize ++ (field 2 h.shnum ++
    field 2 h.shstrndx))))))))))))

def Hdr.read (bs : List UInt8) : Option (Hdr × List UInt8) :=
  if bs.take 16 = ident then do
    let (type, bs) ← readField 2 16 (bs.drop 16)
    let (machine, bs) ← readField 2 16 bs
    let (version, bs) ← readField 4 32 bs
    let (entry, bs) ← readField 8 64 bs
    let (phoff, bs) ← readField 8 64 bs
    let (shoff, bs) ← readField 8 64 bs
    let (flags, bs) ← readField 4 32 bs
    let (ehsize, bs) ← readField 2 16 bs
    let (phentsize, bs) ← readField 2 16 bs
    let (phnum, bs) ← readField 2 16 bs
    let (shentsize, bs) ← readField 2 16 bs
    let (shnum, bs) ← readField 2 16 bs
    let (shstrndx, bs) ← readField 2 16 bs
    return (⟨type, machine, version, entry, phoff, shoff, flags, ehsize, phentsize, phnum,
      shentsize, shnum, shstrndx⟩, bs)
  else none

def Shdr.bytes (h : Shdr) : List UInt8 :=
  field 4 h.name ++ (field 4 h.type ++ (field 8 h.flags ++ (field 8 h.addr ++ (field 8 h.offset ++
    (field 8 h.size ++ (field 4 h.link ++ (field 4 h.info ++ (field 8 h.addralign ++
    field 8 h.entsize))))))))

def Shdr.read (bs : List UInt8) : Option (Shdr × List UInt8) := do
  let (name, bs) ← readField 4 32 bs
  let (type, bs) ← readField 4 32 bs
  let (flags, bs) ← readField 8 64 bs
  let (addr, bs) ← readField 8 64 bs
  let (offset, bs) ← readField 8 64 bs
  let (size, bs) ← readField 8 64 bs
  let (link, bs) ← readField 4 32 bs
  let (info, bs) ← readField 4 32 bs
  let (addralign, bs) ← readField 8 64 bs
  let (entsize, bs) ← readField 8 64 bs
  return (⟨name, type, flags, addr, offset, size, link, info, addralign, entsize⟩, bs)

def Sym.bytes (s : Sym) : List UInt8 :=
  field 4 s.name ++ (field 1 s.info ++ (field 1 s.other ++ (field 2 s.shndx ++ (field 8 s.value ++
    field 8 s.size))))

def Sym.read (bs : List UInt8) : Option (Sym × List UInt8) := do
  let (name, bs) ← readField 4 32 bs
  let (info, bs) ← readField 1 8 bs
  let (other, bs) ← readField 1 8 bs
  let (shndx, bs) ← readField 2 16 bs
  let (value, bs) ← readField 8 64 bs
  let (size, bs) ← readField 8 64 bs
  return (⟨name, info, other, shndx, value, size⟩, bs)

def Rela.bytes (r : Rela) : List UInt8 := field 8 r.offset ++ (field 8 r.info ++ field 8 r.addend)

def Rela.read (bs : List UInt8) : Option (Rela × List UInt8) := do
  let (offset, bs) ← readField 8 64 bs
  let (info, bs) ← readField 8 64 bs
  let (addend, bs) ← readField 8 64 bs
  return (⟨offset, info, addend⟩, bs)

theorem bind_field {α : Type} {w : Nat} (n : Nat) (x : BitVec w) (h : w = 8 * n)
    (rest : List UInt8) (k : BitVec w × List UInt8 → Option α) :
    (readField n w (field n x ++ rest) >>= k) = k (x, rest) := by
  rw [readField_field n x rest (Nat.le_of_eq h)]
  rfl

theorem Hdr.read_bytes (h : Hdr) (rest : List UInt8) :
    Hdr.read (h.bytes ++ rest) = some (h, rest) := by
  have hident : (h.bytes ++ rest).take 16 = ident := by
    unfold bytes
    rw [List.append_assoc]
    rfl
  unfold read
  rw [if_pos hident]
  unfold bytes
  simp only [List.append_assoc]
  refine (bind_field 2 h.type rfl _ _).trans ?_
  refine (bind_field 2 h.machine rfl _ _).trans ?_
  refine (bind_field 4 h.version rfl _ _).trans ?_
  refine (bind_field 8 h.entry rfl _ _).trans ?_
  refine (bind_field 8 h.phoff rfl _ _).trans ?_
  refine (bind_field 8 h.shoff rfl _ _).trans ?_
  refine (bind_field 4 h.flags rfl _ _).trans ?_
  refine (bind_field 2 h.ehsize rfl _ _).trans ?_
  refine (bind_field 2 h.phentsize rfl _ _).trans ?_
  refine (bind_field 2 h.phnum rfl _ _).trans ?_
  refine (bind_field 2 h.shentsize rfl _ _).trans ?_
  refine (bind_field 2 h.shnum rfl _ _).trans ?_
  exact bind_field 2 h.shstrndx rfl _ _

theorem Shdr.read_bytes (h : Shdr) (rest : List UInt8) :
    Shdr.read (h.bytes ++ rest) = some (h, rest) := by
  unfold read bytes
  simp only [List.append_assoc]
  refine (bind_field 4 h.name rfl _ _).trans ?_
  refine (bind_field 4 h.type rfl _ _).trans ?_
  refine (bind_field 8 h.flags rfl _ _).trans ?_
  refine (bind_field 8 h.addr rfl _ _).trans ?_
  refine (bind_field 8 h.offset rfl _ _).trans ?_
  refine (bind_field 8 h.size rfl _ _).trans ?_
  refine (bind_field 4 h.link rfl _ _).trans ?_
  refine (bind_field 4 h.info rfl _ _).trans ?_
  refine (bind_field 8 h.addralign rfl _ _).trans ?_
  exact bind_field 8 h.entsize rfl _ _

theorem Sym.read_bytes (s : Sym) (rest : List UInt8) :
    Sym.read (s.bytes ++ rest) = some (s, rest) := by
  unfold read bytes
  simp only [List.append_assoc]
  refine (bind_field 4 s.name rfl _ _).trans ?_
  refine (bind_field 1 s.info rfl _ _).trans ?_
  refine (bind_field 1 s.other rfl _ _).trans ?_
  refine (bind_field 2 s.shndx rfl _ _).trans ?_
  refine (bind_field 8 s.value rfl _ _).trans ?_
  exact bind_field 8 s.size rfl _ _

theorem Rela.read_bytes (r : Rela) (rest : List UInt8) :
    Rela.read (r.bytes ++ rest) = some (r, rest) := by
  unfold read bytes
  simp only [List.append_assoc]
  refine (bind_field 8 r.offset rfl _ _).trans ?_
  refine (bind_field 8 r.info rfl _ _).trans ?_
  exact bind_field 8 r.addend rfl _ _

theorem Hdr.length_bytes (h : Hdr) : h.bytes.length = 64 := by
  simp [bytes, ident]

theorem Shdr.length_bytes (h : Shdr) : h.bytes.length = 64 := by
  simp [bytes]

theorem Sym.length_bytes (s : Sym) : s.bytes.length = 24 := by
  simp [bytes]

theorem Rela.length_bytes (r : Rela) : r.bytes.length = 24 := by
  simp [bytes]

/-! ## Tables, parts and strings -/

/-- `n` records in a row. -/
def readTable {α : Type} (read : List UInt8 → Option (α × List UInt8)) :
    Nat → List UInt8 → Option (List α)
  | 0, _ => some []
  | n + 1, bs =>
    match read bs with
    | none => none
    | some (x, bs) => (readTable read n bs).map (x :: ·)

theorem readTable_flatMap {α : Type} {read : List UInt8 → Option (α × List UInt8)}
    {bytes : α → List UInt8} (h : ∀ x rest, read (bytes x ++ rest) = some (x, rest))
    (xs : List α) (rest : List UInt8) :
    readTable read xs.length (xs.flatMap bytes ++ rest) = some xs := by
  induction xs with
  | nil => rfl
  | cons x xs ih =>
    rw [List.flatMap_cons, List.append_assoc, List.length_cons]
    unfold readTable
    rw [h]
    dsimp only
    rw [ih, Option.map_some]

theorem length_flatMap {α : Type} {bytes : α → List UInt8} {n : Nat}
    (h : ∀ x, (bytes x).length = n) (xs : List α) :
    (xs.flatMap bytes).length = n * xs.length := by
  induction xs with
  | nil => rfl
  | cons x xs ih =>
    rw [List.flatMap_cons, List.length_append, h, ih, List.length_cons, Nat.mul_succ, Nat.add_comm]

/-- A whole table of records of `size` bytes. -/
def readAll {α : Type} (read : List UInt8 → Option (α × List UInt8)) (size : Nat)
    (bs : List UInt8) : Option (List α) :=
  if bs.length % size = 0 then readTable read (bs.length / size) bs else none

theorem readAll_flatMap {α : Type} {read : List UInt8 → Option (α × List UInt8)}
    {bytes : α → List UInt8} {n : Nat} (h : ∀ x rest, read (bytes x ++ rest) = some (x, rest))
    (hlen : ∀ x, (bytes x).length = n) (hn : 0 < n) (xs : List α) :
    readAll read n (xs.flatMap bytes) = some xs := by
  unfold readAll
  rw [length_flatMap hlen, Nat.mul_mod_right, if_pos rfl, Nat.mul_div_cancel_left _ hn]
  have hread := readTable_flatMap h xs []
  rwa [List.append_nil] at hread

/-- A part of a file. -/
def slice (bs : List UInt8) (off len : Nat) : Option (List UInt8) :=
  if off + len ≤ bs.length then some ((bs.drop off).take len) else none

theorem slice_append (xs ys zs : List UInt8) :
    slice (xs ++ ys ++ zs) xs.length ys.length = some ys := by
  unfold slice
  rw [if_pos (by simp), List.append_assoc, List.drop_left, List.take_left]

/-- What is written behind a part leaves it alone. -/
theorem slice_mono {xs ys : List UInt8} {off len : Nat} (h : slice xs off len = some ys)
    (zs : List UInt8) : slice (xs ++ zs) off len = some ys := by
  unfold slice at h ⊢
  split at h
  · rename_i hle
    cases h
    rw [if_pos (by rw [List.length_append]; omega), List.drop_append_of_le_length (by omega),
      List.take_append_of_le_length (by rw [List.length_drop]; omega)]
  · cases h

/-- The string that begins at an offset of a table, up to its NUL. -/
def strAt (tab : List UInt8) (off : Nat) : Option (List UInt8) :=
  if 0 ∈ tab.drop off then some ((tab.drop off).takeWhile (· != 0)) else none

theorem takeWhile_nul {s : List UInt8} (hs : 0 ∉ s) (zs : List UInt8) :
    (s ++ 0 :: zs).takeWhile (· != 0) = s := by
  have hpos : ∀ b ∈ s, (b != 0) = true := by
    intro b hb
    refine bne_iff_ne.mpr ?_
    rintro rfl
    exact hs hb
  rw [List.takeWhile_append_of_pos hpos]
  simp

theorem strAt_append {s : List UInt8} (hs : 0 ∉ s) (xs zs : List UInt8) :
    strAt (xs ++ s ++ 0 :: zs) xs.length = some s := by
  unfold strAt
  rw [List.append_assoc, List.drop_left, if_pos (by simp), takeWhile_nul hs]

/-- Strings that are added later leave a string alone. -/
theorem strAt_mono {xs s : List UInt8} {off : Nat} (h : strAt xs off = some s) (zs : List UInt8) :
    strAt (xs ++ zs) off = some s := by
  unfold strAt at h ⊢
  split at h
  · rename_i hmem
    have hle : off ≤ xs.length := by
      by_contra hgt
      rw [List.drop_of_length_le (by omega)] at hmem
      cases hmem
    obtain ⟨l, r, hlr, hl⟩ := List.eq_append_cons_of_mem hmem
    rw [List.drop_append_of_le_length hle, if_pos (List.mem_append_left _ hmem), ← h, hlr,
      List.append_assoc, List.cons_append, takeWhile_nul hl, takeWhile_nul hl]
  · cases h

/-! ## What a file stands for -/

def typeProgbits : BitVec 32 := 1
def typeSymtab : BitVec 32 := 2
def typeStrtab : BitVec 32 := 3
def typeRela : BitVec 32 := 4

/-- A section with its header, name and contents. -/
structure Section where
  hdr : Shdr
  name : List UInt8
  data : List UInt8
  deriving DecidableEq, Repr

/-- A symbol. It is in a section, or is defined elsewhere. -/
structure Symbol where
  name : List UInt8
  info : BitVec 8
  sec : Option (List UInt8)
  value : BitVec 64
  deriving DecidableEq, Repr

/-- A relocation of a place in the section `sec`. -/
structure Reloc where
  sec : List UInt8
  offset : BitVec 64
  type : BitVec 32
  symbol : Symbol
  addend : BitVec 64
  deriving DecidableEq, Repr

/-- A section of the program. -/
structure ProgSection where
  name : List UInt8
  flags : BitVec 64
  align : BitVec 64
  data : List UInt8
  deriving DecidableEq, Repr

structure Object where
  machine : BitVec 16
  sections : List ProgSection
  symbols : List Symbol
  relocs : List Reloc
  deriving DecidableEq, Repr

/-- The first section is empty. The others are in the file, each at a multiple of its
alignment. -/
def readSection (file strs : List UInt8) (h : Shdr) : Option Section := do
  let name ← strAt strs h.name.toNat
  let data ← slice file h.offset.toNat h.size.toNat
  if h.offset.toNat % h.addralign.toNat = 0 then return ⟨h, name, data⟩ else none

/-- The section headers. The number of their string table is in the file's header. -/
def readHeaders (file : List UInt8) (h : Hdr) : Option (List Shdr) := do
  let table ← slice file h.shoff.toNat (h.shentsize.toNat * h.shnum.toNat)
  if h.shentsize = 64 then readAll Shdr.read 64 table else none

def readSections (file : List UInt8) (h : Hdr) : Option (List Section) := do
  let shdrs ← readHeaders file h
  let strHdr ← shdrs[h.shstrndx.toNat]?
  let strs ← slice file strHdr.offset.toNat strHdr.size.toNat
  shdrs.mapM (readSection file strs)

/-- The name of the section of a symbol. -/
def symbolSection (secs : List Section) (shndx : BitVec 16) : Option (Option (List UInt8)) :=
  if shndx = 0 then some none else secs[shndx.toNat]?.map fun sec => some sec.name

def readSymbol (secs : List Section) (strs : List UInt8) (s : Sym) : Option Symbol := do
  let name ← strAt strs s.name.toNat
  let sec ← symbolSection secs s.shndx
  return ⟨name, s.info, sec, s.value⟩

/-- `ELF64_ST_BIND` -/
def isLocal (s : Sym) : Bool := s.info >>> 4 = 0

/-- The local symbols are in front of the others, whose first number is in the section's header. -/
def readSymbols (secs : List Section) (symtab : Section) : Option (List Symbol) := do
  let strtab ← secs[symtab.hdr.link.toNat]?
  let syms ← readAll Sym.read 24 symtab.data
  let start := symtab.hdr.info.toNat
  if symtab.hdr.entsize = 24 ∧ strtab.hdr.type = typeStrtab ∧ (syms.take start).all isLocal ∧
      !(syms.drop start).any isLocal then
    syms.mapM (readSymbol secs strtab.data)
  else none

def readReloc (sec : List UInt8) (symbols : List Symbol) (r : Rela) : Option Reloc := do
  let symbol ← symbols[(r.info >>> 32).toNat]?
  return ⟨sec, r.offset, r.info.setWidth 32, symbol, r.addend⟩

/-- The relocations of a section, which is named by the header of their own section. -/
def readRelocs (secs : List Section) (symbols : List Symbol) (rela : Section) :
    Option (List Reloc) := do
  let sec ← secs[rela.hdr.info.toNat]?
  let symtab ← secs[rela.hdr.link.toNat]?
  let relas ← readAll Rela.read 24 rela.data
  if rela.hdr.entsize = 24 ∧ symtab.hdr.type = typeSymtab then
    relas.mapM (readReloc sec.name symbols)
  else none

def Section.prog (s : Section) : ProgSection := ⟨s.name, s.hdr.flags, s.hdr.addralign, s.data⟩

/-- The object in a relocatable file. -/
def read (file : List UInt8) : Option Object := do
  let (h, _) ← Hdr.read file
  let secs ← readSections file h
  let symtab ← secs.find? (·.hdr.type = typeSymtab)
  let symbols ← readSymbols secs symtab
  let relocs ← (secs.filter (·.hdr.type = typeRela)).mapM (readRelocs secs symbols)
  if h.type = 1 then
    return ⟨h.machine, (secs.filter (·.hdr.type = typeProgbits)).map Section.prog, symbols,
      relocs.flatten⟩
  else none

end Nibble.Lib.Elf
