import Nibble.X64.AddrBytes

/-!
# Machine code

`X64_elf_gen_instr` appends the bytes of one instruction to the buffer of the
current basic block. Every writer of `x64_gen/machine_code.c` puts prefixes,
opcode, ModRM and SIB byte first, then the displacement, then the immediate;
the code of an instruction is kept in these three parts because a displacement
that has to be patched is recorded between them. Jumps are only remembered:
their encoding waits until the sizes of all blocks are known.
-/

namespace Nibble.X64

open Nibble.IR (ConditionKind SymId)
open Nibble.Lib

/-- A displacement as it is written, or one that is recorded to be patched. -/
inductive Disp where
  | bytes (bs : List UInt8)
  | patched (entity : ConstAddr)
  deriving DecidableEq, Repr

/-- Four zero bytes hold the place of a displacement to be patched. -/
def Disp.toBytes : Disp → List UInt8
  | bytes bs => bs
  | patched _ => leBytes 4 0

/-- `X64_write_addr_disp`. -/
def AddrBytes.writeDisp (a : AddrBytes) : Option Disp :=
  if a.hasDisp && a.mod == 0 && a.rm == 5 then a.patchEntity.map .patched
  else some (.bytes a.dispBytes)

/-- The code of one instruction. -/
structure Code where
  head : List UInt8
  disp : Disp
  imm : List UInt8
  deriving DecidableEq, Repr

def Code.bytes (c : Code) : List UInt8 := c.head ++ c.disp.toBytes ++ c.imm

/-- Code without a memory operand. -/
def Code.plain (head : List UInt8) (imm : List UInt8) : Code := ⟨head, .bytes [], imm⟩

/-! ## Prefixes -/

/-- `X64_rex_prefix`: `0100WRXB`. -/
def rexPrefix (w r x b : Bool) : UInt8 :=
  (0x40 : UInt8) ||| (w.toUInt8 <<< 3) ||| (r.toUInt8 <<< 2) ||| (x.toUInt8 <<< 1) ||| b.toUInt8

/-- `X64_rex_nosib`. -/
def rexNosib (w : Bool) (reg rm : Nat) : UInt8 := rexPrefix w (7 < reg) false (7 < rm)

/-- `X64_rex_opcode_reg`. -/
def rexOpcodeReg (w : Bool) (reg : Nat) : UInt8 := rexPrefix w false false (7 < reg)

/-- `0x66` for 16-bit operands. -/
def opSizePrefix (size : Size) : List UInt8 := if size = .b2 then [0x66] else []

/-- The REX prefix of an instruction whose operands are registers. `no8h` asks for an empty prefix,
which disables `ah`, `ch`, `dh` and `bh`. -/
def rexRegs (w no8h : Bool) (reg rm : Nat) : List UInt8 :=
  if w || 7 < reg || 7 < rm then [rexNosib w reg rm]
  else if no8h then [rexPrefix false false false false] else []

/-- The REX prefix of an instruction with a memory operand. -/
def rexMem (w no8h : Bool) (reg : Nat) (a : AddrBytes) : List UInt8 :=
  if w || 7 < reg || a.rexB || a.rexX then [rexPrefix w (7 < reg) a.rexX a.rexB]
  else if no8h then [rexPrefix false false false false] else []

/-- Prefixes, opcode and a ModRM byte with two registers. `reg` may be an opcode extension. -/
def regForm (pre : List UInt8) (w no8h : Bool) (opcode : List UInt8) (reg rm : Nat) : List UInt8 :=
  pre ++ rexRegs w no8h reg rm ++ opcode ++ [modrmByte 3 reg rm]

/-- Prefixes, opcode, ModRM byte and SIB byte with a memory operand. -/
def memHead (pre : List UInt8) (w no8h : Bool) (opcode : List UInt8) (reg : Nat) (a : AddrBytes) :
    List UInt8 :=
  pre ++ rexMem w no8h reg a ++ opcode ++ [modrmByte a.mod reg a.rm] ++
    if a.hasSibByte then [a.sibByte] else []

/-- Code with a memory operand. -/
def memForm (pre : List UInt8) (w no8h : Bool) (opcode : List UInt8) (reg : Nat) (addr : SibdAddr)
    (imm : List UInt8) : Option Code := do
  let a ← getAddrBytes addr
  let disp ← a.writeDisp
  pure ⟨memHead pre w no8h opcode reg a, disp, imm⟩

/-! ## Families -/

/-- The one-byte and the larger opcode of an instruction. -/
def bySize (size : Size) (opcode1byte opcodeLarge : UInt8) : List UInt8 :=
  [if size = .b1 then opcode1byte else opcodeLarge]

/-- A byte register operand that needs a REX prefix to be named. -/
def is8h (size : Size) (g : Gpr) : Bool := size == .b1 && g.aliased8h

/-- `X64_write_elf_binary_instr_rm`. -/
def binaryInstrRM (opcode1byte opcodeLarge : UInt8) (size : Size) (dst : Gpr) (src : SibdAddr) :
    Option Code :=
  memForm (opSizePrefix size) (size = .b8) (is8h size dst) (bySize size opcode1byte opcodeLarge)
    dst.val src []

/-- `X64_write_elf_binary_instr_mr`. -/
def binaryInstrMR (opcode1byte opcodeLarge : UInt8) (size : Size) (dst : SibdAddr) (src : Gpr) :
    Option Code :=
  memForm (opSizePrefix size) (size = .b8) (is8h size src) (bySize size opcode1byte opcodeLarge)
    src.val dst []

/-- `X64_write_elf_binary_instr_rr`. -/
def binaryInstrRR (opcode1byte opcodeLarge : UInt8) (size : Size) (dst src : Gpr) : Code :=
  .plain (regForm (opSizePrefix size) (size = .b8) (is8h size dst || is8h size src)
    (bySize size opcode1byte opcodeLarge) src.val dst.val) []

/-- The opcode of an instruction with an immediate. -/
def immOpcode (instr1byte imm1byte immLarger : UInt8) (size : Size) (imm : BitVec 32) : List UInt8 :=
  [if size = .b1 then instr1byte else if dispIsImm8 imm then imm1byte else immLarger]

/-- `X64_write_imm_bytes(imm, is_64_bit ? 4 : dst_size)`, or one byte where it sign-extends. -/
def immBytes (size : Size) (imm : BitVec 32) : List UInt8 :=
  if dispIsImm8 imm then leBytes 1 imm.toNat
  else leBytes (if size = .b8 then 4 else size.bytes) imm.toNat

/-- `X64_write_elf_binary_instr_ri`. -/
def binaryInstrRI (instr1byte imm1byte immLarger : UInt8) (ext : Nat) (size : Size) (dst : Gpr)
    (imm : BitVec 32) : Code :=
  .plain (regForm (opSizePrefix size) (size = .b8) (is8h size dst)
    (immOpcode instr1byte imm1byte immLarger size imm) ext dst.val) (immBytes size imm)

/-- `X64_write_elf_binary_instr_mi`. -/
def binaryInstrMI (instr1byte imm1byte immLarger : UInt8) (ext : Nat) (size : Size)
    (dst : SibdAddr) (imm : BitVec 32) : Option Code :=
  memForm (opSizePrefix size) (size = .b8) false (immOpcode instr1byte imm1byte immLarger size imm)
    ext dst (immBytes size imm)

/-- An opcode extension and a register: `X64_write_elf_binary_rax_instr_r`,
`X64_write_elf_unary_neg_r` and `X64_write_elf_shift_r`. -/
def extInstrR (opcode1byte opcodeLarge : UInt8) (ext : Nat) (size : Size) (r : Gpr) : Code :=
  .plain (regForm (opSizePrefix size) (size = .b8) (is8h size r)
    (bySize size opcode1byte opcodeLarge) ext r.val) []

/-- The same with a memory operand. -/
def extInstrM (opcode1byte opcodeLarge : UInt8) (ext : Nat) (size : Size) (m : SibdAddr) :
    Option Code :=
  memForm (opSizePrefix size) (size = .b8) false (bySize size opcode1byte opcodeLarge) ext m []

/-- `X64_write_elf_shift_ri`. -/
def shiftRI (ext : Nat) (size : Size) (dst : Gpr) (imm : BitVec 8) : Code :=
  if imm = 1 then extInstrR 0xD0 0xD1 ext size dst
  else { extInstrR 0xC0 0xC1 ext size dst with imm := leBytes 1 imm.toNat }

/-- `X64_write_elf_shift_mi`. -/
def shiftMI (ext : Nat) (size : Size) (dst : SibdAddr) (imm : BitVec 8) : Option Code :=
  if imm = 1 then extInstrM 0xD0 0xD1 ext size dst
  else (extInstrM 0xC0 0xC1 ext size dst).map fun c => { c with imm := leBytes 1 imm.toNat }

/-- The mandatory prefix of scalar float instructions. -/
def fltPrefix : FloatKind → List UInt8
  | .f32 => [0xF3]
  | .f64 => [0xF2]

/-- `X64_write_elf_binary_flt_rr`. -/
def binaryFltRR (kind : FloatKind) (suffix : UInt8) (dst src : Xmm) : Code :=
  .plain (regForm (fltPrefix kind) false false [0x0F, suffix] dst src) []

/-- `X64_write_elf_binary_flt_rm`. -/
def binaryFltRM (kind : FloatKind) (suffix : UInt8) (dst : Xmm) (src : SibdAddr) : Option Code :=
  memForm (fltPrefix kind) false false [0x0F, suffix] dst src []

/-- `X64_write_elf_binary_flt_mr`. -/
def binaryFltMR (kind : FloatKind) (suffix : UInt8) (dst : SibdAddr) (src : Xmm) : Option Code :=
  memForm (fltPrefix kind) false false [0x0F, suffix] src dst []

/-- The prefix of `UCOMISD`. -/
def cmpFltPrefix : FloatKind → List UInt8
  | .f32 => []
  | .f64 => [0x66]

/-- `X64_write_elf_cmp_flt_rr`. -/
def cmpFltRR (kind : FloatKind) (suffix : UInt8) (dst src : Xmm) : Code :=
  .plain (regForm (cmpFltPrefix kind) false false [0x0F, suffix] dst src) []

/-- `X64_write_elf_cmp_flt_rm`. -/
def cmpFltRM (kind : FloatKind) (suffix : UInt8) (dst : Xmm) (src : SibdAddr) : Option Code :=
  memForm (cmpFltPrefix kind) false false [0x0F, suffix] dst src []

/-- `X64_write_elf_flt_int_cvt_rr`, on register numbers. -/
def fltIntCvtRR (kind : FloatKind) (int8bytes : Bool) (suffix : UInt8) (dst src : Nat) : Code :=
  .plain (regForm (fltPrefix kind) int8bytes false [0x0F, suffix] dst src) []

/-- `X64_write_elf_flt_int_cvt_rm`. -/
def fltIntCvtRM (kind : FloatKind) (int8bytes : Bool) (suffix : UInt8) (dst : Nat)
    (src : SibdAddr) : Option Code :=
  memForm (fltPrefix kind) int8bytes false [0x0F, suffix] dst src []

/-! ## Opcodes -/

/-- The opcode of `op r/m8, r8`. The other forms follow it. -/
def AluOp.opcode : AluOp → UInt8
  | add => 0x00
  | or => 0x08
  | and => 0x20
  | sub => 0x28
  | xor => 0x30
  | cmp => 0x38

/-- The opcode extension of `op r/m, imm`. -/
def AluOp.ext : AluOp → Nat
  | add => 0
  | or => 1
  | and => 4
  | sub => 5
  | xor => 6
  | cmp => 7

def RaxOp.ext : RaxOp → Nat
  | mul => 4
  | imul => 5
  | div => 6
  | idiv => 7

def UnaryOp.ext : UnaryOp → Nat
  | not => 2
  | neg => 3

def ShiftOp.ext : ShiftOp → Nat
  | shl => 4
  | sar => 7

/-- The second opcode byte of a zero- or sign-extending move. -/
def ExtOp.opcode (op : ExtOp) (srcSize : Size) : UInt8 :=
  match op with
  | movzx => if srcSize = .b1 then 0xB6 else 0xB7
  | movsx => if srcSize = .b1 then 0xBE else 0xBF

def FltOp.opcode : FltOp → UInt8
  | add => 0x58
  | mul => 0x59
  | sub => 0x5C
  | div => 0x5E

/-- The condition bits of `SETcc` and `Jcc` opcodes. -/
def condBits : ConditionKind → UInt8
  | .uLt => 0x2
  | .uGtEq => 0x3
  | .eq => 0x4
  | .neq => 0x5
  | .uLtEq => 0x6
  | .uGt => 0x7
  | .sLt => 0xC
  | .sGtEq => 0xD
  | .sLtEq => 0xE
  | .sGt => 0xF

/-- `x64_setcc_condition_opcodes`. -/
def setccOpcode (c : ConditionKind) : List UInt8 := [0x0F, 0x90 + condBits c]

/-! ## Instructions -/

/-- The register number of a move's source, the high byte register if it is flagged. -/
def movSrcVal (srcRH : Bool) (size : Size) (src : Gpr) : Nat :=
  if size = .b1 && srcRH then src.val8h else src.val

/-- Whether a move asks for an empty REX prefix on account of its source. -/
def movSrc8h (srcRH : Bool) (size : Size) (src : Gpr) : Bool := !srcRH && is8h size src

/-- The case `X64_Instr_Kind_MOV_RI`. -/
def genMovRI (size : Size) (dst : Gpr) (imm : BitVec 64) : Code :=
  if size = .b8 ∧ 0 ≤ imm.toInt ∧ imm.toInt ≤ 2147483647 then
    .plain ((if dst.isExt then [rexOpcodeReg false dst.val] else []) ++
      [0xB8 + UInt8.ofNat (dst.val % 8)]) (leBytes 4 imm.toNat)
  else if size = .b8 ∧ -2147483648 ≤ imm.toInt ∧ imm.toInt ≤ 2147483647 then
    .plain [rexNosib true 0 dst.val, 0xC7, modrmByte 3 0 dst.val] (leBytes 4 imm.toNat)
  else
    .plain (opSizePrefix size ++
      (if size = .b8 || dst.isExt then [rexOpcodeReg (size = .b8) dst.val]
        else if is8h size dst then [rexPrefix false false false false] else []) ++
      [(if size = .b1 then 0xB0 else 0xB8) + UInt8.ofNat (dst.val % 8)])
      (leBytes size.bytes imm.toNat)

/-- `X64_elf_gen_instr` on the instructions that are encoded at once. `none` is an assertion or
the fatal error. -/
def genCode : Instr → Option Code
  | .noop => some (.plain [] [])
  | .push r => some (.plain ((if r.isExt then [rexOpcodeReg false r.val] else []) ++
      [0x50 + UInt8.ofNat (r.val % 8)]) [])
  | .pop r => some (.plain ((if r.isExt then [rexOpcodeReg false r.val] else []) ++
      [0x58 + UInt8.ofNat (r.val % 8)]) [])
  | .jmp _ | .jmpToRet _ | .jmpcc _ _ => none
  | .ret => some (.plain [0xC3] [])
  | .call p => some ⟨[0xE8], .patched (.sym p), []⟩
  | .callR r => some (.plain (regForm [] false false [0xFF] 2 r.val) [])
  | .callM m => memForm [] false false [0xFF] 2 m []
  | .repMovsb => some (.plain [0xF3, 0xA4] [])
  | .repStosb => some (.plain [0xF3, 0xAA] [])
  | .syscall => some (.plain [0x0F, 0x05] [])
  | .aluRR op size dst src => some (binaryInstrRR op.opcode (op.opcode + 1) size dst src)
  | .aluRM op size dst src => binaryInstrRM (op.opcode + 2) (op.opcode + 3) size dst src
  | .aluMR op size dst src => binaryInstrMR op.opcode (op.opcode + 1) size dst src
  | .aluRI op size dst imm => some (binaryInstrRI 0x80 0x83 0x81 op.ext size dst imm)
  | .aluMI op size dst imm => binaryInstrMI 0x80 0x83 0x81 op.ext size dst imm
  | .setccR c dst => some (.plain (regForm [] false dst.aliased8h (setccOpcode c) 0 dst.val) [])
  | .setccM c dst => memForm [] false false (setccOpcode c) 0 dst []
  | .imulRI size dst imm =>
    if size = .b1 then none
    else
      -- `imm <= 127` compares unsigned here: a negative byte takes the longer form.
      let immIsByte := imm.toNat ≤ 127
      some (.plain (regForm (opSizePrefix size) (size = .b8) false
        [if immIsByte then 0x6B else 0x69] dst.val dst.val)
        (if immIsByte then leBytes 1 imm.toNat
          else leBytes (if size = .b8 then 4 else size.bytes) imm.toNat))
  | .imulRR size dst src =>
    if size = .b1 then none
    else some (.plain (regForm (opSizePrefix size) (size = .b8) false [0x0F, 0xAF]
      dst.val src.val) [])
  | .imulRM size dst src =>
    memForm (opSizePrefix size) (size = .b8) false [0x0F, 0xAF] dst.val src []
  | .imulMI _ _ _ => none
  | .raxR op size src => some (extInstrR 0xF6 0xF7 op.ext size src)
  | .raxM op size src => extInstrM 0xF6 0xF7 op.ext size src
  | .cwd => some (.plain [0x66, 0x99] [])
  | .cdq => some (.plain [0x99] [])
  | .cqo => some (.plain [rexNosib true 0 0, 0x99] [])
  | .shiftRR op size dst => some (extInstrR 0xD2 0xD3 op.ext size dst)
  | .shiftMR op size dst => extInstrM 0xD2 0xD3 op.ext size dst
  | .shiftRI op size dst imm => some (shiftRI op.ext size dst imm)
  | .shiftMI op size dst imm => shiftMI op.ext size dst imm
  | .unaryR op size dst => some (extInstrR 0xF6 0xF7 op.ext size dst)
  | .unaryM op size dst => extInstrM 0xF6 0xF7 op.ext size dst
  | .movExtRR op dstSize dst srcSize src =>
    some (.plain (regForm (opSizePrefix dstSize) (dstSize = .b8) (is8h srcSize src)
      [0x0F, op.opcode srcSize] dst.val src.val) [])
  | .movExtRM op dstSize dst srcSize src =>
    memForm (opSizePrefix dstSize) (dstSize = .b8) false [0x0F, op.opcode srcSize] dst.val src []
  | .movsxdRR dstSize dst srcSize src =>
    if dstSize = .b8 ∧ srcSize = .b4 then
      some (.plain (regForm [] true false [0x63] dst.val src.val) [])
    else none
  | .movsxdRM dstSize dst srcSize src =>
    if dstSize = .b8 ∧ srcSize = .b4 then memForm [] true false [0x63] dst.val src [] else none
  | .movRR srcRH size dst src =>
    some (.plain (regForm (opSizePrefix size) (size = .b8) (movSrc8h srcRH size src)
      (bySize size 0x88 0x89) (movSrcVal srcRH size src) dst.val) [])
  | .movMR srcRH size dst src =>
    memForm (opSizePrefix size) (size = .b8) (movSrc8h srcRH size src) (bySize size 0x88 0x89)
      (movSrcVal srcRH size src) dst []
  | .movRM size dst src => binaryInstrRM 0x8A 0x8B size dst src
  | .movMI size dst imm =>
    memForm (opSizePrefix size) (size = .b8) false (bySize size 0xC6 0xC7) 0 dst
      (leBytes (if size = .b8 then 4 else size.bytes) imm.toNat)
  | .movRI size dst imm => some (genMovRI size dst imm)
  | .fltRR op kind dst src => some (binaryFltRR kind op.opcode dst src)
  | .fltRM op kind dst src => binaryFltRM kind op.opcode dst src
  | .ucomisRR kind dst src => some (cmpFltRR kind 0x2E dst src)
  | .ucomisRM kind dst src => cmpFltRM kind 0x2E dst src
  | .movFltRR kind dst src => some (binaryFltRR kind 0x10 dst src)
  | .movFltRM kind dst src => binaryFltRM kind 0x10 dst src
  | .movFltMR kind dst src => binaryFltMR kind 0x11 dst src
  | .movdquRM dst src => memForm [0xF3] false false [0x0F, 0x6F] dst src []
  | .movdquMR dst src => memForm [0xF3] false false [0x0F, 0x7F] src dst []
  | .cvtFltRR srcKind dst src => some (binaryFltRR srcKind 0x5A dst src)
  | .cvtFltRM srcKind dst src => binaryFltRM srcKind 0x5A dst src
  | .cvtFltIntRR kind dst dst8bytes src => some (fltIntCvtRR kind dst8bytes 0x2C dst.val src)
  | .cvtFltIntRM kind dst dst8bytes src => fltIntCvtRM kind dst8bytes 0x2C dst.val src
  | .cvtIntFltRR kind dst src src8bytes => some (fltIntCvtRR kind src8bytes 0x2A dst src.val)
  | .cvtIntFltRM kind dst src src8bytes => fltIntCvtRM kind src8bytes 0x2A dst src
  | .lea dst src => memForm [] true false [0x8D] dst.val src []

end Nibble.X64
