import Nibble.X64.Encode

/-!
# Decoding integer instructions

A decoder for the integer instructions of the x86-64 format that the compiler
uses: an optional operand-size prefix, an optional REX prefix, the opcode, the
ModRM byte with what it asks for, the immediate. Without a REX prefix the
fields 4 to 7 name `ah`, `ch`, `dh` and `bh` where the operand is a byte.
-/

namespace Nibble.X64

open Nibble.IR (ConditionKind)
open Nibble.Lib

/-! ## Decoded instructions -/

/-- A register operand: the low part of a register, or one of the four high bytes. -/
inductive RegOp where
  | lo (g : Gpr)
  | hi (g : Gpr)
  deriving DecidableEq, Repr

/-- An operand. An immediate is its value modulo the operand size. -/
inductive Operand where
  | reg (r : RegOp)
  | mem (m : MemOp)
  | imm (n : Nat)
  deriving DecidableEq, Repr

inductive BinOp where
  | alu (op : AluOp)
  | mov
  | imul
  deriving DecidableEq, Repr

inductive UnOp where
  | unary (op : UnaryOp)
  | rax (op : RaxOp)
  deriving DecidableEq, Repr

/-- An integer instruction with its operands. -/
inductive MInstr where
  | bin (op : BinOp) (size : Size) (dst src : Operand)
  | imul3 (size : Size) (dst src imm : Operand)
  | un (op : UnOp) (size : Size) (dst : Operand)
  /-- `count` is `none` for `cl`. -/
  | shift (op : ShiftOp) (size : Size) (dst : Operand) (count : Option Nat)
  | movx (op : ExtOp) (dstSize : Size) (dst : Operand) (srcSize : Size) (src : Operand)
  | setcc (cond : ConditionKind) (dst : Operand)
  deriving DecidableEq, Repr

/-! ## Prefixes -/

structure Rex where
  w : Bool
  r : Bool
  x : Bool
  b : Bool
  deriving DecidableEq, Repr

structure Prefixes where
  opSize : Bool
  rex : Option Rex
  deriving DecidableEq, Repr

namespace Prefixes

/-- The bits of the REX prefix, zero without one. -/
def bits (p : Prefixes) : Rex := p.rex.getD ⟨false, false, false, false⟩

/-- The operand size, given the size bit of the opcode. -/
def size (p : Prefixes) (wide : Bool) : Size :=
  if !wide then .b1 else if p.bits.w then .b8 else if p.opSize then .b2 else .b4

end Prefixes

def decodeRex (b : UInt8) : Option Rex :=
  if b.toNat / 16 = 4 then
    some ⟨b.toNat / 8 % 2 = 1, b.toNat / 4 % 2 = 1, b.toNat / 2 % 2 = 1, b.toNat % 2 = 1⟩
  else none

/-- The REX prefix directly precedes the opcode. -/
def decodeRexOpt (opSize : Bool) : List UInt8 → Prefixes × List UInt8
  | [] => (⟨opSize, none⟩, [])
  | b :: rest =>
    match decodeRex b with
    | some r => (⟨opSize, some r⟩, rest)
    | none => (⟨opSize, none⟩, b :: rest)

def decodePrefixes : List UInt8 → Prefixes × List UInt8
  | [] => (⟨false, none⟩, [])
  | b :: rest => if b = 0x66 then decodeRexOpt true rest else decodeRexOpt false (b :: rest)

/-! ## Opcodes -/

/-- What an opcode asks for. `wide` is clear for byte operands. -/
inductive Form where
  | bin (op : BinOp) (wide regIsDst : Bool)
  | group1 (wide imm8 : Bool)
  | movImm (wide : Bool)
  | movRegImm (wide : Bool) (field : Nat)
  /-- `count` is `none` for an immediate. -/
  | group2 (wide : Bool) (count : Option (Option Nat))
  | group3 (wide : Bool)
  | imul3 (imm8 : Bool)
  | movx (op : ExtOp) (srcSize : Size)
  | setcc (cond : ConditionKind)
  deriving DecidableEq, Repr

/-- The operation in bits 5 to 3 of an opcode or of a ModRM byte. -/
def decodeAlu : Nat → Option AluOp
  | 0 => some .add
  | 1 => some .or
  | 4 => some .and
  | 5 => some .sub
  | 6 => some .xor
  | 7 => some .cmp
  | _ => none

def decodeCond : Nat → Option ConditionKind
  | 0x2 => some .uLt
  | 0x3 => some .uGtEq
  | 0x4 => some .eq
  | 0x5 => some .neq
  | 0x6 => some .uLtEq
  | 0x7 => some .uGt
  | 0xC => some .sLt
  | 0xD => some .sGtEq
  | 0xE => some .sLtEq
  | 0xF => some .sGt
  | _ => none

/-- Opcodes after `0F`. -/
def decodeOpcode2 (n : Nat) : Option Form :=
  if n / 16 = 9 then (decodeCond (n % 16)).map .setcc
  else match n with
  | 0xAF => some (.bin .imul true true)
  | 0xB6 => some (.movx .movzx .b1)
  | 0xB7 => some (.movx .movzx .b2)
  | 0xBE => some (.movx .movsx .b1)
  | 0xBF => some (.movx .movsx .b2)
  | _ => none

def decodeOpcode1 (n : Nat) : Option Form :=
  if n < 0x40 ∧ n % 8 < 4 then
    (decodeAlu (n / 8)).map fun op => .bin (.alu op) (n % 2 = 1) (2 ≤ n % 4)
  else if 0xB0 ≤ n ∧ n < 0xC0 then some (.movRegImm (0xB8 ≤ n) (n % 8))
  else match n with
  | 0x63 => some (.movx .movsx .b4)
  | 0x69 => some (.imul3 false)
  | 0x6B => some (.imul3 true)
  | 0x80 => some (.group1 false false)
  | 0x81 => some (.group1 true false)
  | 0x83 => some (.group1 true true)
  | 0x88 => some (.bin .mov false false)
  | 0x89 => some (.bin .mov true false)
  | 0x8A => some (.bin .mov false true)
  | 0x8B => some (.bin .mov true true)
  | 0xC0 => some (.group2 false none)
  | 0xC1 => some (.group2 true none)
  | 0xC6 => some (.movImm false)
  | 0xC7 => some (.movImm true)
  | 0xD0 => some (.group2 false (some (some 1)))
  | 0xD1 => some (.group2 true (some (some 1)))
  | 0xD2 => some (.group2 false (some none))
  | 0xD3 => some (.group2 true (some none))
  | 0xF6 => some (.group3 false)
  | 0xF7 => some (.group3 true)
  | _ => none

def decodeOpcode : List UInt8 → Option (Form × List UInt8)
  | [] => none
  | b :: rest =>
    if b = 0x0F then
      match rest with
      | [] => none
      | b :: rest => (decodeOpcode2 b.toNat).map fun f => (f, rest)
    else (decodeOpcode1 b.toNat).map fun f => (f, rest)

/-! ## Operands -/

/-- The operand of a three-bit field. -/
def Prefixes.regOp (p : Prefixes) (size : Size) (ext : Bool) (field : Nat) : RegOp :=
  if size = .b1 ∧ p.rex = none ∧ 4 ≤ field then .hi (Gpr.ofVal (field - 4))
  else .lo (decodeReg ext field)

/-- The `r/m` operand: a register field or memory. -/
inductive Rm where
  | reg (field : Nat)
  | mem (m : MemOp)
  deriving DecidableEq, Repr

/-- A ModRM byte and what follows it: the register field and the `r/m` operand. -/
def decodeModrm (p : Prefixes) (bs : List UInt8) : Option (Nat × Rm × List UInt8) := do
  let (n, bs) ← readLe 1 bs
  if n / 64 = 3 then pure (n / 8 % 8, .reg (n % 8), bs)
  else
    let (m, bs) ← decodeMem (n / 64) (n % 8) p.bits.x p.bits.b bs
    pure (n / 8 % 8, .mem m, bs)

def Prefixes.rmOp (p : Prefixes) (size : Size) : Rm → Operand
  | .reg field => .reg (p.regOp size p.bits.b field)
  | .mem m => .mem m

def Prefixes.regOperand (p : Prefixes) (size : Size) (field : Nat) : Operand :=
  .reg (p.regOp size p.bits.r field)

/-- An immediate: a byte or four bytes that sign-extend, or as many bytes as the operand has. -/
def readImm (size : Size) (imm8 : Bool) (bs : List UInt8) : Option (Operand × List UInt8) :=
  if imm8 then
    (readLe 1 bs).map fun (n, rest) => (.imm ((BitVec.ofNat 8 n).signExtend size.bits).toNat, rest)
  else if size = .b8 then
    (readLe 4 bs).map fun (n, rest) => (.imm ((BitVec.ofNat 32 n).signExtend size.bits).toNat, rest)
  else (readLe size.bytes bs).map fun (n, rest) => (.imm n, rest)

/-- The operation in the register field of group 3. -/
def decodeGroup3 : Nat → Option UnOp
  | 2 => some (.unary .not)
  | 3 => some (.unary .neg)
  | 4 => some (.rax .mul)
  | 5 => some (.rax .imul)
  | 6 => some (.rax .div)
  | 7 => some (.rax .idiv)
  | _ => none

def decodeShift : Nat → Option ShiftOp
  | 4 => some .shl
  | 7 => some .sar
  | _ => none

/-! ## Instructions -/

def decodeForm (p : Prefixes) (bs : List UInt8) : Form → Option (MInstr × List UInt8)
  | .bin op wide regIsDst => do
    let size := p.size wide
    let (reg, rm, bs) ← decodeModrm p bs
    if regIsDst then pure (.bin op size (p.regOperand size reg) (p.rmOp size rm), bs)
    else pure (.bin op size (p.rmOp size rm) (p.regOperand size reg), bs)
  | .group1 wide imm8 => do
    let size := p.size wide
    let (reg, rm, bs) ← decodeModrm p bs
    let op ← decodeAlu reg
    let (imm, bs) ← readImm size imm8 bs
    pure (.bin (.alu op) size (p.rmOp size rm) imm, bs)
  | .movImm wide => do
    let size := p.size wide
    let (reg, rm, bs) ← decodeModrm p bs
    if reg ≠ 0 then none
    else
      let (imm, bs) ← readImm size false bs
      pure (.bin .mov size (p.rmOp size rm) imm, bs)
  | .movRegImm wide field => do
    let size := p.size wide
    let (n, bs) ← readLe size.bytes bs
    pure (.bin .mov size (.reg (p.regOp size p.bits.b field)) (.imm n), bs)
  | .group2 wide count => do
    let size := p.size wide
    let (reg, rm, bs) ← decodeModrm p bs
    let op ← decodeShift reg
    match count with
    | some c => pure (.shift op size (p.rmOp size rm) c, bs)
    | none =>
      let (n, bs) ← readLe 1 bs
      pure (.shift op size (p.rmOp size rm) (some n), bs)
  | .group3 wide => do
    let size := p.size wide
    let (reg, rm, bs) ← decodeModrm p bs
    let op ← decodeGroup3 reg
    pure (.un op size (p.rmOp size rm), bs)
  | .imul3 imm8 => do
    let size := p.size true
    let (reg, rm, bs) ← decodeModrm p bs
    let (imm, bs) ← readImm size imm8 bs
    pure (.imul3 size (p.regOperand size reg) (p.rmOp size rm) imm, bs)
  | .movx op srcSize => do
    let size := p.size true
    let (reg, rm, bs) ← decodeModrm p bs
    pure (.movx op size (p.regOperand size reg) srcSize (p.rmOp srcSize rm), bs)
  | .setcc cond => do
    let (_, rm, bs) ← decodeModrm p bs
    pure (.setcc cond (p.rmOp .b1 rm), bs)

/-- One instruction, and the bytes after it. -/
def decode (bs : List UInt8) : Option (MInstr × List UInt8) := do
  let (p, bs) := decodePrefixes bs
  let (form, bs) ← decodeOpcode bs
  decodeForm p bs form

end Nibble.X64
