import Nibble.Lib.Bytes
import Nibble.X64.Instr

/-!
# Addressing modes

`X64_get_sibd_addr` puts physical registers in the place of the virtual ones,
`X64_get_addr_bytes` computes the ModRM and SIB fields. `decodeMem` reads the
fields back by the rules of the instruction format: `r/m = 100` is followed by
a SIB byte, `mod = 00` with `r/m = 101` is relative to the instruction
pointer, and in a SIB byte index `100` is no index and base `101` under
`mod = 00` no base.
-/

namespace Nibble.X64

open Nibble.IR (SymId)
open Nibble.XIR (XReg XMemAddr Sibd)
open Nibble.Lib

/-! ## Locations -/

/-- `XIR_RegLoc` of an assigned virtual register. -/
inductive RegLoc where
  | reg (r : Reg)
  | stack (offset : BitVec 32)
  deriving DecidableEq, Repr

/-- A set of physical registers as the bits of a `u32`. -/
abbrev RegMask := BitVec 32

/-- `u32_set_bit`. -/
def RegMask.set (m : RegMask) (r : Reg) : RegMask := m ||| (1#32 <<< r.num)

/-- `u32_is_bit_set`. -/
def RegMask.mem (m : RegMask) (r : Reg) : Bool := m.getLsbD r.num

@[simp] theorem RegMask.mem_zero (r : Reg) : RegMask.mem 0 r = false := by simp [mem]

@[simp] theorem RegMask.mem_set (m : RegMask) (r s : Reg) :
    (m.set r).mem s = (m.mem s || decide (r = s)) := by
  have hr := r.num_lt
  have hs := s.num_lt
  simp only [regCount] at hr hs
  by_cases h : r = s
  · subst h
    simp [mem, set, hr]
  · have hne : r.num ≠ s.num := fun e => h (Reg.num_inj e)
    simp only [mem, set, BitVec.getLsbD_or, BitVec.getLsbD_shiftLeft, hs, decide_true,
      Bool.true_and, h, decide_false, Bool.or_false]
    by_cases hlt : s.num < r.num
    · simp [hlt]
    · have : s.num - r.num ≠ 0 := by omega
      simp [this]

/-- The register of a location; `assert(IS_LREG_IN_REG(loc.kind))`. -/
def RegLoc.inReg : RegLoc → Option Reg
  | .reg r => some r
  | .stack _ => none

/-- `X64_get_sibd_addr`, with the registers the address uses. "No base" and "no index" become
`X64_REG_COUNT`. -/
def getSibdAddr (lregLoc : XReg → RegLoc) : XMemAddr → Option (SibdAddr × RegMask)
  | .globalSym s => some (.global s, 0)
  | .strLit i => some (.strLit i, 0)
  | .floatLit i => some (.floatLit i, 0)
  | .sibd a => do
    let index := if a.scale = 0 then none else a.indexReg
    match a.baseReg, index with
    | none, none => none
    | some b, none => do
      let base ← (lregLoc b).inReg
      pure (.loc base.num regCount a.scale a.disp, RegMask.set 0 base)
    | some b, some i => do
      let base ← (lregLoc b).inReg
      let index ← (lregLoc i).inReg
      pure (.loc base.num index.num a.scale a.disp, (RegMask.set 0 base).set index)
    | none, some i => do
      let index ← (lregLoc i).inReg
      pure (.loc regCount index.num a.scale a.disp, RegMask.set 0 index)

/-! ## Encoding -/

/-- `ConstAddr`: what an address relative to the instruction pointer refers to. -/
inductive ConstAddr where
  | sym (s : SymId)
  | strLit (id : Nat)
  | floatLit (id : Nat)
  deriving DecidableEq, Repr

/-- `X64_modrm_byte`, and the SIB byte with it. The three fields do not overlap. -/
def modrmByte (mod reg rm : Nat) : UInt8 := UInt8.ofNat (rm % 8 + 8 * (reg % 8) + 64 * (mod % 4))

/-- `X64_get_scale_mode`. -/
def getScaleMode (scale : BitVec 8) : Option Nat :=
  if scale = 1 then some 0
  else if scale = 2 then some 1
  else if scale = 4 then some 2
  else if scale = 8 then some 3
  else none

/-- `X64_AddrBytes`. -/
structure AddrBytes where
  mod : Nat
  rm : Nat
  sibByte : UInt8
  disp : BitVec 32
  rexB : Bool
  rexX : Bool
  hasDisp : Bool
  hasSibByte : Bool
  patchEntity : Option ConstAddr
  deriving DecidableEq, Repr

/-- `RIP + disp32`, the displacement to be patched. -/
def AddrBytes.ripRel (entity : ConstAddr) : AddrBytes :=
  { mod := 0, rm := 5, sibByte := 0, disp := 0, rexB := false, rexX := false, hasDisp := true,
    hasSibByte := false, patchEntity := some entity }

/-- A displacement that sign-extends from one byte. -/
def dispIsImm8 (disp : BitVec 32) : Bool := disp.toInt ≤ 127 && -128 ≤ disp.toInt

/-- The addressing mode of a register base. -/
def dispMod (hasDisp : Bool) (disp : BitVec 32) : Nat :=
  if !hasDisp then 0 else if dispIsImm8 disp then 1 else 2

/-- `X64_get_addr_bytes`. The number of the base register is looked up whether there is a base or
not, so a base that is no register is undefined behaviour or the fatal error. -/
def getAddrBytes : SibdAddr → Option AddrBytes
  | .global s => some (.ripRel (.sym s))
  | .strLit i => some (.ripRel (.strLit i))
  | .floatLit i => some (.ripRel (.floatLit i))
  | .loc baseReg indexReg scale disp => do
    let hasIndex := indexReg != 255 && scale != 0
    let base ← regVal baseReg
    let hasDisp := disp != 0 || base % 8 == Gpr.rbp.val
    let mod := dispMod hasDisp disp
    if base % 8 = Gpr.rsp.val then
      let index ← if hasIndex then regVal indexReg else some Gpr.rsp.val
      let scaleMode ← if hasIndex then getScaleMode scale else some 0
      pure { mod := mod, rm := 4, sibByte := modrmByte scaleMode (index % 8) (base % 8),
             disp := disp, rexB := 7 < base, rexX := 7 < index, hasDisp := hasDisp,
             hasSibByte := true, patchEntity := none }
    else if !hasIndex then
      pure { mod := mod, rm := base % 8, sibByte := 0, disp := disp, rexB := 7 < base,
             rexX := false, hasDisp := hasDisp, hasSibByte := false, patchEntity := none }
    else
      let index ← regVal indexReg
      let scaleMode ← getScaleMode scale
      pure { mod := mod, rm := 4, sibByte := modrmByte scaleMode (index % 8) (base % 8),
             disp := disp, rexB := 7 < base, rexX := 7 < index, hasDisp := hasDisp,
             hasSibByte := true, patchEntity := none }

/-- The bytes `X64_write_addr_disp` writes. A displacement to be patched is written as zero. -/
def AddrBytes.dispBytes (a : AddrBytes) : List UInt8 :=
  if !a.hasDisp then []
  else if a.mod = 0 ∧ a.rm = 5 then leBytes 4 0
  else if a.mod = 1 then leBytes 1 a.disp.toNat
  else leBytes 4 a.disp.toNat

/-- The bytes that follow the ModRM byte: SIB byte and displacement. -/
def AddrBytes.tail (a : AddrBytes) : List UInt8 :=
  (if a.hasSibByte then [a.sibByte] else []) ++ a.dispBytes

/-! ## Decoding -/

/-- A memory operand of an instruction. -/
inductive MemOp where
  | rip (disp : BitVec 32)
  | sib (base : Option Gpr) (index : Option (Gpr × Nat)) (disp : BitVec 32)
  deriving DecidableEq, Repr

/-- The register a three-bit field names, extended by a bit of the REX prefix. -/
def decodeReg (ext : Bool) (field : Nat) : Gpr := Gpr.ofVal (field + if ext then 8 else 0)

/-- The displacement that `mod` asks for. -/
def decodeDisp (mod : Nat) (bs : List UInt8) : Option (BitVec 32 × List UInt8) :=
  match mod with
  | 0 => some (0, bs)
  | 1 => (readLe 1 bs).map fun (n, rest) => ((BitVec.ofNat 8 n).signExtend 32, rest)
  | _ => (readLe 4 bs).map fun (n, rest) => (BitVec.ofNat 32 n, rest)

/-- The memory operand of a ModRM byte with `mod ≠ 11`, and the bytes after it. -/
def decodeMem (mod rm : Nat) (rexX rexB : Bool) (bs : List UInt8) :
    Option (MemOp × List UInt8) := do
  if rm = 4 then
    let (sib, bs) ← readLe 1 bs
    let index := if sib / 8 % 8 = 4 ∧ !rexX then none
      else some (decodeReg rexX (sib / 8 % 8), 2 ^ (sib / 64))
    if sib % 8 = 5 ∧ mod = 0 then
      let (n, bs) ← readLe 4 bs
      pure (.sib none index (BitVec.ofNat 32 n), bs)
    else
      let (disp, bs) ← decodeDisp mod bs
      pure (.sib (some (decodeReg rexB (sib % 8))) index disp, bs)
  else if rm = 5 ∧ mod = 0 then
    let (n, bs) ← readLe 4 bs
    pure (.rip (BitVec.ofNat 32 n), bs)
  else
    let (disp, bs) ← decodeDisp mod bs
    pure (.sib (some (decodeReg rexB rm)) none disp, bs)

end Nibble.X64
