import Nibble.XIR.Instr

/-!
# Constant operands in XIR

The conversions of `ir_to_xir.c` whose IR instruction has an integer operand
that may be a constant. A constant that `XIR_imm_fits_4bytes` accepts becomes
an immediate, another one is moved to a register first; an operand that has to
be in a register anyway is loaded with the shorter move if the test allows it.
-/

namespace Nibble.XIR

open Nibble.IR hiding Instr
open Nibble.X64 (Size AluOp RaxOp ShiftOp Gpr)

/-- `XIR_imm_fits_4bytes`. -/
def immFits4bytes (imm : Word) (size : Size) : Bool :=
  decide (size.bytes < 8) || decide (imm.toNat ≤ 0xFFFFFFFF)

/-- What the builder answers while one instruction is converted. -/
structure Regs where
  /-- `XIR_get_reg`. -/
  reg : Reg → XReg
  /-- `XIR_get_addr`, with the code it emits. -/
  addr : MemAddr → List XInstr × XMemAddr
  /-- `XIR_def_phys_reg`. -/
  phys : Gpr → XReg
  /-- `XIR_next_reg`. -/
  next : XReg

def sizeOf? : Nat → Option Size
  | 1 => some .b1
  | 2 => some .b2
  | 4 => some .b4
  | 8 => some .b8
  | _ => none

/-- An operand that is not an address. -/
def OpRI.toRIA : OpRI → OpRIA
  | .reg r => .reg r
  | .imm v => .imm v

def isImm : OpRIA → Bool
  | .imm _ => true
  | _ => false

namespace Regs

variable (ρ : Regs)

def addrCode (a : MemAddr) : List Instr := (ρ.addr a).1.map XInstr.toInstr

/-- The size at which `XIR_load_op_ria` loads a constant. -/
def loadSize (size : Size) (imm : Word) : Size :=
  if size = .b8 && immFits4bytes imm size then .b4 else size

/-- `XIR_load_op_ria`, and `XIR_load_op_ri` for the operands that both take. -/
def loadOp (size : Size) (dst : XReg) : OpRIA → List Instr
  | .imm c => [.movRI (loadSize size c) dst c]
  | .reg s => [.movRR size dst (ρ.reg s)]
  | .addr a => ρ.addrCode a ++ [.movRM size dst (ρ.addr a).2]

/-- The second operand of an instruction that takes registers, addresses and immediates. -/
def arithOperand (op : ArithOp) (size : Size) (r : XReg) : OpRIA → List Instr
  | .imm c =>
    if immFits4bytes c size then [.arithRI op size r c]
    else [.movRI size ρ.next c, .arithRR op size r ρ.next]
  | .reg b => [.arithRR op size r (ρ.reg b)]
  | .addr a => ρ.addrCode a ++ [.arithRM op size r (ρ.addr a).2]

/-- `XIR_DEF_CONVERT_INT_BINARY_FUNC`. -/
def convertIntBinary (op : ArithOp) (size : Size) (r : Reg) (a b : OpRIA) :
    Option (List Instr) :=
  if isImm a && isImm b then none
  else some (ρ.loadOp size (ρ.reg r) a ++ ρ.arithOperand op size (ρ.reg r) b)

/-- The operand of `mul`, `imul`, `div` and `idiv`, which is a register or in memory. -/
def raxOperand (op : RaxOp) (size : Size) (dx : Option XReg) : OpRIA → List Instr
  | .imm c => [.movRI size ρ.next c, .raxR op size dx (ρ.phys .rax) ρ.next]
  | .reg b => [.raxR op size dx (ρ.phys .rax) (ρ.reg b)]
  | .addr a => ρ.addrCode a ++ [.raxM op size dx (ρ.phys .rax) (ρ.addr a).2]

/-- The register of the upper half; byte operands have none. -/
def dx (size : Size) : Option XReg := if size = .b1 then none else some (ρ.phys .rdx)

/-- Extend `_ax` into `_dx`. -/
def extendAx (signed : Bool) (size : Size) : List Instr :=
  if size = .b1 then []
  else if signed then [.sextAxToDx size (ρ.phys .rdx) (ρ.phys .rax)]
  else [.arithRR (.alu .xor) .b8 (ρ.phys .rdx) (ρ.phys .rdx)]

/-- `XIR_convert_signed_1byte_mul_instr`. -/
def convertSigned1byteMul (r : Reg) (a b : OpRIA) : List Instr :=
  ρ.loadOp .b1 (ρ.phys .rax) a ++ ρ.raxOperand .imul .b1 none b ++
    [.movRR .b1 (ρ.reg r) (ρ.phys .rax)]

/-- `XIR_convert_int_mul_instr`. -/
def convertIntMul (signed : Bool) (size : Size) (r : Reg) (a b : OpRIA) :
    Option (List Instr) :=
  if signed && size = .b1 then some (ρ.convertSigned1byteMul r a b)
  else if signed then ρ.convertIntBinary .imul size r a b
  else some (ρ.loadOp size (ρ.phys .rax) a ++ ρ.extendAx false size ++
    ρ.raxOperand .mul size (ρ.dx size) b ++ [.movRR size (ρ.reg r) (ρ.phys .rax)])

/-- Division up to the division itself, as `div`, `mod` and `divmod` have it. -/
def divide (signed : Bool) (size : Size) (a b : OpRIA) : List Instr :=
  ρ.loadOp size (ρ.phys .rax) a ++ ρ.extendAx signed size ++
    ρ.raxOperand (if signed then .idiv else .div) size (ρ.dx size) b

/-- `XIR_convert_int_div_instr`. -/
def convertIntDiv (signed : Bool) (size : Size) (r : Reg) (a b : OpRIA) : List Instr :=
  ρ.divide signed size a b ++ [.movRR size (ρ.reg r) (ρ.phys .rax)]

/-- The remainder is in `_dx`, that of a byte division in `ah`. -/
def movRem (size : Size) (r : Reg) : Instr :=
  if size = .b1 then .movRRH (ρ.reg r) (ρ.phys .rax) else .movRR size (ρ.reg r) (ρ.phys .rdx)

/-- `XIR_convert_mod_instr`. -/
def convertMod (signed : Bool) (size : Size) (r : Reg) (a b : OpRIA) : List Instr :=
  ρ.divide signed size a b ++ [ρ.movRem size r]

/-- `XIR_convert_divmod_instr`. -/
def convertDivMod (signed : Bool) (size : Size) (q r : Reg) (a b : OpRIA) : List Instr :=
  ρ.divide signed size a b ++ [ρ.movRem size r, .movRR size (ρ.reg q) (ρ.phys .rax)]

/-- The count of a shift. Its constants are not tested for their size. -/
def shiftOperand (op : ShiftOp) (size : Size) (r : XReg) : OpRIA → List Instr
  | .imm c => [.shiftRI op size r c]
  | .reg b => [.movRR size (ρ.phys .rcx) (ρ.reg b), .shiftRR op size r (ρ.phys .rcx)]
  | .addr a => ρ.addrCode a ++
      [.movRM size (ρ.phys .rcx) (ρ.addr a).2, .shiftRR op size r (ρ.phys .rcx)]

/-- `XIR_DEF_CONVERT_SHIFT_FUNC`. -/
def convertShift (op : ShiftOp) (size : Size) (r : Reg) (a b : OpRIA) : List Instr :=
  ρ.loadOp size (ρ.reg r) a ++ ρ.shiftOperand op size (ρ.reg r) b

/-- `XIR_convert_store_instr`, for the types that are not floats. -/
def convertIntStore (size : Size) (addr : MemAddr) (a : OpRI) : List Instr :=
  ρ.addrCode addr ++ match a with
    | .imm c =>
      if immFits4bytes c size then [.movMI size (ρ.addr addr).2 c]
      else [.movRI size ρ.next c, .movMR size (ρ.addr addr).2 ρ.next]
    | .reg s => [.movMR size (ρ.addr addr).2 (ρ.reg s)]

/-- `XIR_convert_store_instr`. A float is not stored from a constant. -/
def convertStore (type : Ty) (addr : MemAddr) (a : OpRI) : Option (List Instr) :=
  match type.floatKind?, a with
  | some _, .imm _ => none
  | some k, .reg s => some (ρ.addrCode addr ++ [.movFltMR k (ρ.addr addr).2 (ρ.reg s)])
  | none, a => do
    let size ← sizeOf? type.size
    return ρ.convertIntStore size addr a

/-- The second operand of a comparison whose first is in memory. -/
def cmpMemOperand (size : Size) (a : XMemAddr) : OpRIA → List Instr
  | .imm c =>
    if immFits4bytes c size then [.cmpMI size a c]
    else [.movRI size ρ.next c, .cmpMR size a ρ.next]
  | .reg b => [.cmpMR size a (ρ.reg b)]
  | .addr b => ρ.addrCode b ++ [.movRM size ρ.next (ρ.addr b).2, .cmpMR size a ρ.next]

/-- `XIR_convert_int_cmp_instr` up to the comparison. -/
def compare (size : Size) : OpRIA → OpRIA → Option (List Instr)
  | .imm _, .imm _ => none
  | .imm c, .reg b => some [.movRI size ρ.next c, .arithRR (.alu .cmp) size ρ.next (ρ.reg b)]
  | .imm c, .addr b =>
    some (.movRI size ρ.next c :: ρ.addrCode b ++
      [.arithRM (.alu .cmp) size ρ.next (ρ.addr b).2])
  | .reg a, b => some (ρ.arithOperand (.alu .cmp) size (ρ.reg a) b)
  | .addr a, b => some (ρ.addrCode a ++ ρ.cmpMemOperand size (ρ.addr a).2 b)

/-- `XIR_convert_int_cmp_instr`. A conditional jump on the result is combined with it. -/
def convertIntCmp (size : Size) (cond : ConditionKind) (r : Reg) (a b : OpRIA)
    (next : Option IR.Instr) : Option (List Instr) := do
  let code ← ρ.compare size a b
  match next with
  | some (.condJmp _ trueBb falseBb a') =>
    if a' = r then return code ++ [.jmpcc cond trueBb falseBb]
    else return code ++ [.setcc cond (ρ.reg r)]
  | _ => return code ++ [.setcc cond (ρ.reg r)]

/-- `XIR_emit_memcpy` and `XIR_convert_memcpy_instr`. -/
def convertMemcpy (dst src : MemAddr) (size : OpRI) : List Instr :=
  ρ.addrCode dst ++ ρ.addrCode src ++
    [.lea (ρ.phys .rdi) (ρ.addr dst).2, .lea (ρ.phys .rsi) (ρ.addr src).2] ++
    ρ.loadOp .b8 (ρ.phys .rcx) (OpRI.toRIA size) ++
    [.repMovsb (ρ.phys .rdi) (ρ.phys .rsi) (ρ.phys .rcx)]

/-- `XIR_emit_memset` and `XIR_convert_memset_instr`. -/
def convertMemset (dst : MemAddr) (value size : OpRI) : List Instr :=
  ρ.addrCode dst ++ [.lea (ρ.phys .rdi) (ρ.addr dst).2] ++
    ρ.loadOp .b1 (ρ.phys .rax) (OpRI.toRIA value) ++
    ρ.loadOp .b8 (ρ.phys .rcx) (OpRI.toRIA size) ++
    [.repStosb (ρ.phys .rdi) (ρ.phys .rax) (ρ.phys .rcx)]

end Regs

/-- `syscall_arg_regs`. -/
def syscallArgRegs : List Gpr := [.rdi, .rsi, .rdx, .r10, .r8, .r9]

namespace Regs

variable (ρ : Regs)

/-- The arguments of a system call, loaded to their registers. -/
def loadArgs (args : List (Gpr × OpRIA)) : List Instr :=
  args.flatMap fun (g, a) => ρ.loadOp .b8 (ρ.phys g) a

/-- `XIR_convert_syscall_instr`. -/
def convertSyscall (nr : OpRIA) (args : List OpRIA) (r : Reg) : Option (List Instr) :=
  if args.length ≤ syscallArgRegs.length then
    some (ρ.loadOp .b8 (ρ.phys .rax) nr ++ ρ.loadArgs (syscallArgRegs.zip args) ++
      [.syscall (ρ.phys .rax) ((syscallArgRegs.take args.length).map ρ.phys) (ρ.phys .rcx)
        (ρ.phys .r11), .movRR .b8 (ρ.reg r) (ρ.phys .rax)])
  else none

/-- The conversion of an IR instruction with an integer operand that may be a constant, given the
instruction after it. -/
def convert (i : IR.Instr) (next : Option IR.Instr) : Option (List Instr) :=
  match i with
  | .intBinary op type r a b => do
    let size ← sizeOf? type.size
    match op with
    | .add => ρ.convertIntBinary (.alu .add) size r a b
    | .sub => ρ.convertIntBinary (.alu .sub) size r a b
    | .and => ρ.convertIntBinary (.alu .and) size r a b
    | .or => ρ.convertIntBinary (.alu .or) size r a b
    | .xor => ρ.convertIntBinary (.alu .xor) size r a b
    | .mul => ρ.convertIntMul type.isSigned size r a b
    | .div => return ρ.convertIntDiv type.isSigned size r a b
    | .mod => return ρ.convertMod type.isSigned size r a b
    | .sar => return ρ.convertShift .sar size r a b
    | .shl => return ρ.convertShift .shl size r a b
  | .divMod type q r a b => do
    let size ← sizeOf? type.size
    return ρ.convertDivMod type.isSigned size q r a b
  | .lImm type r imm => do
    let size ← sizeOf? type.size
    return [.movRI size (ρ.reg r) imm]
  | .store type addr a => ρ.convertStore type addr a
  | .intCmp type cond r a b => do
    let size ← sizeOf? type.size
    ρ.convertIntCmp size cond r a b next
  | .memcpy dst src size => some (ρ.convertMemcpy dst src size)
  | .memset dst value size => some (ρ.convertMemset dst value size)
  | .syscall nr args r => ρ.convertSyscall nr args r
  | _ => none

end Regs

end Nibble.XIR
