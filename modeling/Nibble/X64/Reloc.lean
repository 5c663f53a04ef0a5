import Nibble.X64.RelaxExact

/-!
# Relocations

The writer of the object file makes a relocation of each usage of a global
entity, the linker stores the entity's address relative to the displacement;
usages of the program's own procedures are patched by the compiler. Both count
on the next instruction four bytes after the start of the displacement, which
is wrong where an immediate follows it.
-/

namespace Nibble.X64

open Nibble.IR (SymId)
open Nibble.Lib

/-! ## The object file and the linker -/

/-- Where the linker puts the sections and foreign procedures, and where the entities are in their
sections. -/
structure Placement where
  textAddr : Int
  dataAddr : Int
  rodataAddr : Int
  foreignAddr : SymId → Int
  strOffs : Nat → Nat
  floatOffs : Nat → Nat
  varOffs : SymId → Nat
  procOffs : SymId → Nat

/-- The address of an entity. -/
def Placement.addr (L : Placement) (symKind : SymId → SymKind) : ConstAddr → Int
  | .strLit i => L.rodataAddr + L.strOffs i
  | .floatLit i => L.rodataAddr + L.floatOffs i
  | .sym s =>
    match symKind s with
    | .var => L.dataAddr + L.varOffs s
    | .foreignProc => L.foreignAddr s
    | .proc => L.textAddr + L.procOffs s

/-- `Elf64_Rela` of a 32-bit relocation relative to its place, with the address of its symbol. -/
structure Rela where
  offset : Int
  symAddr : Int
  addend : Int

/-- The entry in `.rela.text`. An entity in a section is its offset from the section's symbol. -/
def relaText (L : Placement) (symKind : SymId → SymKind) (r : TextReloc) : Rela :=
  match r.refAddr with
  | .strLit i => ⟨r.usageOff, L.rodataAddr, L.strOffs i - r.bytesToNextIp⟩
  | .floatLit i => ⟨r.usageOff, L.rodataAddr, L.floatOffs i - r.bytesToNextIp⟩
  | .sym s =>
    match symKind s with
    | .var => ⟨r.usageOff, L.dataAddr, L.varOffs s - r.bytesToNextIp⟩
    | .foreignProc | .proc => ⟨r.usageOff, L.foreignAddr s, -r.bytesToNextIp⟩

/-- Four bytes of the text are overwritten. -/
def writeDisp32 (text : List UInt8) (off : Int) (v : BitVec 32) : Option (List UInt8) :=
  if 0 ≤ off ∧ off.toNat + 4 ≤ text.length then
    some (text.take off.toNat ++ leBytes 4 v.toNat ++ text.drop (off.toNat + 4))
  else none

def isS32 (z : Int) : Bool := -2147483648 ≤ z && z ≤ 2147483647

/-- `R_X86_64_PC32` and `R_X86_64_PLT32`: `S + A - P`. The linker reports a value that does not fit
the field. -/
def applyRela (L : Placement) (r : Rela) (text : List UInt8) : Option (List UInt8) :=
  let v := r.symAddr + r.addend - (L.textAddr + r.offset)
  if isS32 v then writeDisp32 text r.offset (BitVec.ofInt 32 v) else none

/-- One usage in `X64_patch_proc_uses`. -/
def patchProcUse (L : Placement) (r : TextReloc) (text : List UInt8) : Option (List UInt8) :=
  match r.refAddr with
  | .sym s => writeDisp32 text r.usageOff
      (BitVec.ofInt 32 (L.procOffs s - (r.usageOff + r.bytesToNextIp)))
  | _ => none

/-- The usages the compiler patches itself. -/
def isProcUse (symKind : SymId → SymKind) : ConstAddr → Bool
  | .sym s => symKind s == .proc
  | _ => false

/-- A usage as it is recorded for its entity is resolved. -/
def resolve (L : Placement) (symKind : SymId → SymKind) (r : TextReloc) (text : List UInt8) :
    Option (List UInt8) :=
  if isProcUse symKind r.refAddr then patchProcUse L r text
  else applyRela L (relaText L symKind r) text

/-! ## What an instruction accesses -/

/-- The displacement at an offset of the text. -/
def storedDisp (text : List UInt8) (off : Nat) : Option Int :=
  (readLe 4 (text.drop off)).map fun (n, _) => (BitVec.ofNat 32 n).toInt

/-- The usage `r` of the instruction `c` at offset `pos` of the text is resolved at the
instruction's displacement, which then leads from the next instruction to the entity. -/
def AccessesEntity (L : Placement) (symKind : SymId → SymKind) (text : List UInt8) (pos : Nat)
    (c : Code) (r : TextReloc) : Prop :=
  r.usageOff = (pos + c.head.length : Nat) ∧ ∃ text', resolve L symKind r text = some text' ∧
    storedDisp text' (pos + c.head.length) =
      some (L.addr symKind r.refAddr - (L.textAddr + (pos + c.bytes.length : Nat)))

/-- The entity is in reach from the end of the instruction. -/
def Placement.reaches (L : Placement) (symKind : SymId → SymKind) (pos : Nat) (c : Code)
    (entity : ConstAddr) : Bool :=
  isS32 (L.addr symKind entity - (L.textAddr + (pos + c.bytes.length : Nat)))

/-- The instructions that have an immediate after a memory operand. -/
def Instr.trailingImm : Instr → Bool
  | .aluMI .. | .movMI .. => true
  | .shiftMI _ _ _ imm => imm != 1
  | _ => false

/-! ## Resolving one usage -/

theorem toInt_ofInt_cases (w : Int) :
    (BitVec.ofInt 32 w).toInt = if w % 4294967296 < 2147483648 then w % 4294967296
      else w % 4294967296 - 4294967296 := by
  rw [BitVec.toInt_ofInt, Int.bmod_def]
  rfl

theorem storedDisp_writeDisp32 {text text' : List UInt8} {off : Nat} {v : BitVec 32}
    (h : writeDisp32 text off v = some text') : storedDisp text' off = some v.toInt := by
  unfold writeDisp32 at h
  split at h
  · rename_i hlen
    cases h
    have htake : (text.take off).length = off := by
      rw [List.length_take]
      omega
    unfold storedDisp
    rw [Int.toNat_natCast, List.append_assoc]
    conv_lhs => rw [← htake]
    rw [htake, List.drop_append_of_le_length (by omega), List.drop_of_length_le (by omega),
      List.nil_append, readLe_leBytes]
    have hv : BitVec.ofNat 32 (v.toNat % 2 ^ (8 * 4)) = v := by
      rw [Nat.mod_eq_of_lt v.isLt, BitVec.ofNat_toNat, BitVec.setWidth_eq]
    simp only [Option.map_some, hv]
  · cases h

section

variable {L : Placement} {symKind : SymId → SymKind} {text : List UInt8} {pos : Nat} {c : Code}
  {r : TextReloc} {entity : ConstAddr}

/-- The way from four bytes after an offset of the text to the entity. -/
def Placement.wayFrom (L : Placement) (symKind : SymId → SymKind) (off : Int)
    (entity : ConstAddr) : Int :=
  L.addr symKind entity - (L.textAddr + off + 4)

/-- The linker's value is the way from four bytes after the place. -/
theorem relaText_eq (hb : r.bytesToNextIp = 4) (hp : isProcUse symKind r.refAddr = false) :
    (relaText L symKind r).offset = r.usageOff ∧
      (relaText L symKind r).symAddr + (relaText L symKind r).addend -
        (L.textAddr + (relaText L symKind r).offset) =
      L.wayFrom symKind r.usageOff r.refAddr := by
  obtain ⟨usageOff, bytesToNextIp, refAddr⟩ := r
  subst hb
  cases refAddr with
  | strLit i =>
    refine ⟨rfl, ?_⟩
    simp only [relaText, Placement.wayFrom, Placement.addr]
    omega
  | floatLit i =>
    refine ⟨rfl, ?_⟩
    simp only [relaText, Placement.wayFrom, Placement.addr]
    omega
  | sym s =>
    cases hk : symKind s with
    | var =>
      simp only [relaText, Placement.wayFrom, Placement.addr, hk]
      refine ⟨trivial, ?_⟩
      omega
    | foreignProc =>
      simp only [relaText, Placement.wayFrom, Placement.addr, hk]
      refine ⟨trivial, ?_⟩
      omega
    | proc => simp [isProcUse, hk] at hp

/-- The compiler's value is the same. -/
theorem patchProcUse_eq (hb : r.bytesToNextIp = 4) (hp : isProcUse symKind r.refAddr = true) :
    patchProcUse L r text =
      writeDisp32 text r.usageOff (BitVec.ofInt 32 (L.wayFrom symKind r.usageOff r.refAddr)) := by
  obtain ⟨usageOff, bytesToNextIp, refAddr⟩ := r
  subst hb
  cases refAddr with
  | strLit i => cases hp
  | floatLit i => cases hp
  | sym s =>
    have hk : symKind s = .proc := by simpa [isProcUse] using hp
    have hw : L.procOffs s - (usageOff + 4) = L.wayFrom symKind usageOff (.sym s) := by
      simp only [Placement.wayFrom, Placement.addr, hk]
      omega
    show writeDisp32 text usageOff (BitVec.ofInt 32 (L.procOffs s - (usageOff + 4))) = _
    rw [hw]

/-- What is written for a usage, where it is written. -/
theorem resolve_eq (hb : r.bytesToNextIp = 4) :
    resolve L symKind r text =
      if isProcUse symKind r.refAddr || isS32 (L.wayFrom symKind r.usageOff r.refAddr) then
        writeDisp32 text r.usageOff (BitVec.ofInt 32 (L.wayFrom symKind r.usageOff r.refAddr))
      else none := by
  unfold resolve
  by_cases hp : isProcUse symKind r.refAddr = true
  · rw [if_pos hp, hp, Bool.true_or, if_pos rfl, patchProcUse_eq hb hp]
  · rw [Bool.not_eq_true] at hp
    obtain ⟨hoff, hv⟩ := @relaText_eq L symKind r hb hp
    rw [hp, Bool.false_or, if_neg (by simp), ← hv]
    unfold applyRela
    rw [hoff]

/-- A usage recorded at its displacement leads to its entity exactly if no immediate follows the
displacement and the entity is in reach. -/
theorem accessesEntity_iff (hb : r.bytesToNextIp = 4) (hd : c.disp = .patched entity)
    (hi : c.imm.length ≤ 8) (hlen : pos + c.bytes.length ≤ text.length) :
    AccessesEntity L symKind text pos c r ↔
      r.usageOff = (pos + c.head.length : Nat) ∧ c.imm = [] ∧
        L.reaches symKind pos c r.refAddr = true := by
  have hbytes : c.bytes.length = c.head.length + 4 + c.imm.length := by
    simp only [Code.bytes, hd, Disp.toBytes, List.length_append, length_leBytes]
  unfold AccessesEntity Placement.reaches
  refine and_congr_right fun hoff => ?_
  have hw : L.addr symKind r.refAddr - (L.textAddr + (pos + c.bytes.length : Nat)) =
      L.wayFrom symKind r.usageOff r.refAddr - c.imm.length := by
    unfold Placement.wayFrom
    rw [hoff, hbytes]
    omega
  rw [hw, resolve_eq hb]
  generalize L.wayFrom symKind r.usageOff r.refAddr = w
  have hwrite : ∃ text', writeDisp32 text r.usageOff (BitVec.ofInt 32 w) = some text' := by
    unfold writeDisp32
    rw [if_pos]
    · exact ⟨_, rfl⟩
    · rw [hoff]
      omega
  obtain ⟨text', htext'⟩ := hwrite
  have hstored : storedDisp text' (pos + c.head.length) = some (BitVec.ofInt 32 w).toInt := by
    rw [hoff] at htext'
    exact storedDisp_writeDisp32 htext'
  have himm : c.imm = [] ↔ c.imm.length = 0 := List.length_eq_zero_iff.symm
  rw [himm]
  constructor
  · rintro ⟨text'', hres, hst⟩
    split at hres
    · rw [htext'] at hres
      cases hres
      rw [hstored, Option.some.injEq, toInt_ofInt_cases] at hst
      unfold isS32
      simp only [Bool.and_eq_true, decide_eq_true_eq]
      split at hst <;> omega
    · cases hres
  · rintro ⟨h0, hreach⟩
    rw [h0] at hreach
    have hs32 : isS32 w = true := by simpa using hreach
    refine ⟨text', ?_, ?_⟩
    · rw [hs32, Bool.or_true, if_pos rfl, htext']
    · unfold isS32 at hs32
      simp only [Bool.and_eq_true, decide_eq_true_eq] at hs32
      rw [hstored, toInt_ofInt32 hs32.1 hs32.2, h0]
      simp

end

end Nibble.X64
