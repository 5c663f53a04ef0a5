import Nibble.X64.AddrBytes
import Nibble.X64.Decode
import Nibble.XIR.Instr

/-!
# From XIR to x64

`X64_gen_instr` of `xir_to_x64.c`, for any assignment of virtual registers to
registers and stack slots. A spilled operand that has to be in a register is
loaded to a scratch register, which is pushed before and popped after. `none`
is a failed assertion or a fatal error: the emitters of one operand form do
not know the instruction kinds of another.
-/

namespace Nibble.X64

open Nibble.IR (SymId BBlockId)
open Nibble.XIR (XReg XMemAddr ArithOp CallValue CallArg Call)

/-! ## Emitters by kind -/

inductive OperandForm where
  | rr | rm | mr | ri | mi
  deriving DecidableEq, Repr

/-- An `X64_Instr_Kind` of a two-operand integer instruction. -/
structure BinKind where
  op : BinOp
  form : OperandForm
  deriving DecidableEq, Repr

/-- The operation of an extending move. -/
inductive ExtMov where
  | movsx | movsxd | movzx
  deriving DecidableEq, Repr

structure ExtKind where
  op : ExtMov
  form : OperandForm
  deriving DecidableEq, Repr

/-- A two-operand instruction on floats. -/
inductive FltBin where
  | arith (op : FltOp)
  | mov
  deriving DecidableEq, Repr

structure FltKind where
  op : FltBin
  form : OperandForm
  deriving DecidableEq, Repr

/-- `x64_bin_int_rr_emit_funcs`. -/
def binIntRREmit : BinKind → Option (Size → Gpr → Gpr → Instr)
  | ⟨.alu op, .rr⟩ => some (.aluRR op)
  | ⟨.imul, .rr⟩ => some .imulRR
  | ⟨.mov, .rr⟩ => some (.movRR false)
  | _ => none

/-- `x64_bin_int_rm_emit_funcs`. -/
def binIntRMEmit : BinKind → Option (Size → Gpr → SibdAddr → Instr)
  | ⟨.alu op, .rm⟩ => some (.aluRM op)
  | ⟨.imul, .rm⟩ => some .imulRM
  | ⟨.mov, .rm⟩ => some .movRM
  | _ => none

/-- `x64_bin_int_ri_emit_funcs`. -/
def binIntRIEmit : BinKind → Option (Size → Gpr → BitVec 32 → Instr)
  | ⟨.alu op, .ri⟩ => some (.aluRI op)
  | ⟨.imul, .ri⟩ => some .imulRI
  | _ => none

/-- `x64_bin_int_mr_emit_funcs`. -/
def binIntMREmit : BinKind → Option (Size → SibdAddr → Gpr → Instr)
  | ⟨.alu op, .mr⟩ => some (.aluMR op)
  | ⟨.mov, .mr⟩ => some (.movMR false)
  | _ => none

/-- `x64_bin_int_mi_emit_funcs`. -/
def binIntMIEmit : BinKind → Option (Size → SibdAddr → BitVec 32 → Instr)
  | ⟨.alu op, .mi⟩ => some (.aluMI op)
  | ⟨.imul, .mi⟩ => some .imulMI
  | ⟨.mov, .mi⟩ => some .movMI
  | _ => none

/-- `x64_mov_ext_rr_emit_funcs`. -/
def movExtRREmit : ExtKind → Option (Size → Gpr → Size → Gpr → Instr)
  | ⟨.movsx, .rr⟩ => some (.movExtRR .movsx)
  | ⟨.movsxd, .rr⟩ => some .movsxdRR
  | ⟨.movzx, .rr⟩ => some (.movExtRR .movzx)
  | _ => none

/-- `x64_mov_ext_rm_emit_funcs`. -/
def movExtRMEmit : ExtKind → Option (Size → Gpr → Size → SibdAddr → Instr)
  | ⟨.movsx, .rm⟩ => some (.movExtRM .movsx)
  | ⟨.movsxd, .rm⟩ => some .movsxdRM
  | ⟨.movzx, .rm⟩ => some (.movExtRM .movzx)
  | _ => none

/-- `x64_bin_flt_rr_emit_funcs`. -/
def binFltRREmit : FltKind → Option (FloatKind → Xmm → Xmm → Instr)
  | ⟨.arith op, .rr⟩ => some (.fltRR op)
  | ⟨.mov, .rr⟩ => some .movFltRR
  | _ => none

/-- `x64_bin_flt_rm_emit_funcs`. -/
def binFltRMEmit : FltKind → Option (FloatKind → Xmm → SibdAddr → Instr)
  | ⟨.arith op, .rm⟩ => some (.fltRM op)
  | ⟨.mov, .rm⟩ => some .movFltRM
  | _ => none

/-- `x64_bin_flt_mr_emit_funcs`. -/
def binFltMREmit : FltKind → Option (FloatKind → SibdAddr → Xmm → Instr)
  | ⟨.mov, .mr⟩ => some .movFltMR
  | _ => none

/-! ## Procedure state -/

/-- `XIR_RegLoc` of an assigned virtual register whose class has the registers `R`. -/
inductive Loc (R : Type) where
  | reg (r : R)
  | stack (offset : BitVec 32)
  deriving DecidableEq, Repr

/-- `X64_RegClass`. -/
inductive RegClass where
  | int | flt
  deriving DecidableEq, Repr

/-- The part of `X64_Proc_State` that emission reads. `X64_lreg_loc` is split by the class of the
virtual register; `objRegClass` is `X64_obj_reg_class`, which reads the fields of a type. -/
structure ProcState where
  intLoc : XReg → Loc Gpr
  fltLoc : XReg → Loc Xmm
  intScratch : List Gpr
  fltScratch : List Xmm
  objRegClass : Ty → RegClass
  intLoc_ne_rsp : ∀ x, intLoc x ≠ .reg .rsp
  intScratch_ne : intScratch ≠ []
  fltScratch_ne : fltScratch ≠ []
  frame_notMem : ∀ g ∈ intScratch, g ≠ .rsp ∧ g ≠ .rbp

/-- `X64_push_reg_to_stack`. -/
def pushReg : Reg → List Instr
  | .int g => [.push g]
  | .xmm x => [.aluRI .sub .b8 .rsp 16, .movdquMR (rspOffsetAddr 0) x]

/-- `X64_pop_reg_from_stack`. -/
def popReg : Reg → List Instr
  | .int g => [.pop g]
  | .xmm x => [.movdquRM x (rspOffsetAddr 0), .aluRI .add .b8 .rsp 16]

/-- `X64_Tmp_Reg`, by its class. -/
inductive TmpReg where
  | int (reg : Gpr) (offset : BitVec 32) (size : Size) (store : Bool)
  | flt (reg : Xmm) (offset : BitVec 32) (kind : FloatKind) (store : Bool)
  deriving DecidableEq, Repr

/-- `X64_Reg_Group`: the temporary registers, latest first. -/
structure RegGroup where
  tmpRegs : List TmpReg
  usedTmpRegMask : RegMask
  deriving DecidableEq, Repr

/-- `X64_begin_reg_group`. -/
def beginRegGroup : RegGroup := ⟨[], 0⟩

/-- Save a temporary register to its slot if asked to, and restore it. -/
def TmpReg.close : TmpReg → List Instr
  | int g offset size store =>
    (if store then [.movMR false size (rbpOffsetAddr offset) g] else []) ++ popReg (.int g)
  | flt x offset kind store =>
    (if store then [.movFltMR kind (rbpOffsetAddr offset) x] else []) ++ popReg (.xmm x)

/-- `X64_end_reg_group`. -/
def endRegGroup (group : RegGroup) : List Instr := group.tmpRegs.flatMap TmpReg.close

/-- A register that is neither used in the group nor banned. -/
def RegGroup.isFree (group : RegGroup) (bannedRegs : RegMask) (r : Reg) : Bool :=
  !group.usedTmpRegMask.mem r && !bannedRegs.mem r

namespace ProcState

variable (P : ProcState)

/-- `X64_lreg_loc` for the registers of addresses. -/
def lregLoc (x : XReg) : RegLoc :=
  match P.intLoc x with
  | .reg g => .reg (.int g)
  | .stack offset => .stack offset

/-- `X64_get_reg` for the integer class, with the code it emits. -/
def getInt (group : RegGroup) (lreg : XReg) (size : Size) (store : Bool) (bannedRegs : RegMask) :
    Option (Gpr × RegGroup × List Instr) :=
  match P.intLoc lreg with
  | .reg g => some (g, group, [])
  | .stack offset => do
    let g ← P.intScratch.find? fun g => group.isFree bannedRegs (.int g)
    return (g, ⟨.int g offset size store :: group.tmpRegs, group.usedTmpRegMask.set (.int g)⟩,
      pushReg (.int g) ++ [.movRM size g (rbpOffsetAddr offset)])

/-- `X64_get_reg` for the float class. -/
def getFlt (group : RegGroup) (lreg : XReg) (kind : FloatKind) (store : Bool)
    (bannedRegs : RegMask) : Option (Xmm × RegGroup × List Instr) :=
  match P.fltLoc lreg with
  | .reg x => some (x, group, [])
  | .stack offset => do
    let x ← P.fltScratch.find? fun x => group.isFree bannedRegs (.xmm x)
    return (x, ⟨.flt x offset kind store :: group.tmpRegs, group.usedTmpRegMask.set (.xmm x)⟩,
      pushReg (.xmm x) ++ [.movFltRM kind x (rbpOffsetAddr offset)])

/-- One register in a group of its own. -/
def withInt (lreg : XReg) (size : Size) (store : Bool) (bannedRegs : RegMask)
    (body : Gpr → Option (List Instr)) : Option (List Instr) := do
  let (g, group, load) ← P.getInt beginRegGroup lreg size store bannedRegs
  let code ← body g
  return load ++ code ++ endRegGroup group

def withFlt (lreg : XReg) (kind : FloatKind) (store : Bool) (bannedRegs : RegMask)
    (body : Xmm → Option (List Instr)) : Option (List Instr) := do
  let (x, group, load) ← P.getFlt beginRegGroup lreg kind store bannedRegs
  let code ← body x
  return load ++ code ++ endRegGroup group

/-! ## Two operands -/

/-- `X64_emit_bin_int_rr_instr`. -/
def emitBinIntRR (kind : BinKind) (writesOp1 allowMR : Bool) (size : Size) (op1 op2 : XReg) :
    Option (List Instr) :=
  match P.intLoc op1, P.intLoc op2 with
  | .reg a, .reg b => do
    let emit ← binIntRREmit kind
    return [emit size a b]
  | .reg a, .stack offset2 => do
    let emit ← binIntRMEmit kind
    return [emit size a (rbpOffsetAddr offset2)]
  | .stack offset1, .reg b =>
    if allowMR then do
      let emit ← binIntMREmit kind
      return [emit size (rbpOffsetAddr offset1) b]
    else do
      let emit ← binIntRREmit kind
      return [.push .rax, .movRM size .rax (rbpOffsetAddr offset1), emit size .rax b] ++
        (if writesOp1 then [.movMR false size (rbpOffsetAddr offset1) .rax] else []) ++ [.pop .rax]
  | .stack offset1, .stack offset2 => do
    let emit ← binIntRMEmit kind
    return [.push .rax, .movRM size .rax (rbpOffsetAddr offset1),
        emit size .rax (rbpOffsetAddr offset2)] ++
      (if writesOp1 then [.movMR false size (rbpOffsetAddr offset1) .rax] else []) ++ [.pop .rax]

/-- `X64_emit_bin_flt_rr_instr`. -/
def emitBinFltRR (kind : FltKind) (fltKind : FloatKind) (op1 op2 : XReg) (allowMR : Bool) :
    Option (List Instr) :=
  match P.fltLoc op1, P.fltLoc op2 with
  | .reg a, .reg b => do
    let emit ← binFltRREmit kind
    return [emit fltKind a b]
  | .reg a, .stack offset2 => do
    let emit ← binFltRMEmit kind
    return [emit fltKind a (rbpOffsetAddr offset2)]
  | .stack offset1, .reg b =>
    if allowMR then do
      let emit ← binFltMREmit kind
      return [emit fltKind (rbpOffsetAddr offset1) b]
    else do
      let emit ← binFltRREmit kind
      return pushReg (.xmm 0) ++ [.movFltRM fltKind 0 (rbpOffsetAddr offset1),
        emit fltKind 0 b, .movFltMR fltKind (rbpOffsetAddr offset1) 0] ++ popReg (.xmm 0)
  | .stack offset1, .stack offset2 => do
    let emit ← binFltRMEmit kind
    return pushReg (.xmm 0) ++ [.movFltRM fltKind 0 (rbpOffsetAddr offset1),
      emit fltKind 0 (rbpOffsetAddr offset2), .movFltMR fltKind (rbpOffsetAddr offset1) 0] ++
      popReg (.xmm 0)

/-- `X64_emit_mov_ext_rr_instr`. -/
def emitMovExtRR (kind : ExtKind) (dstSize : Size) (dst : XReg) (srcSize : Size) (src : XReg) :
    Option (List Instr) :=
  P.withInt dst dstSize true 0 fun d =>
    match P.intLoc src with
    | .reg s => do
      let emit ← movExtRREmit kind
      return [emit dstSize d srcSize s]
    | .stack offset => do
      let emit ← movExtRMEmit kind
      return [emit dstSize d srcSize (rbpOffsetAddr offset)]

/-- `X64_emit_mov_ext_rm_instr`. -/
def emitMovExtRM (kind : ExtKind) (dstSize : Size) (dst : XReg) (srcSize : Size)
    (src : XMemAddr) : Option (List Instr) := do
  let (addr, used) ← getSibdAddr P.lregLoc src
  P.withInt dst dstSize true used fun d => do
    let emit ← movExtRMEmit kind
    return [emit dstSize d srcSize addr]

/-- `X64_emit_bin_int_rm_instr`. -/
def emitBinIntRM (kind : BinKind) (writesOp1 : Bool) (size : Size) (op1 : XReg)
    (op2 : XMemAddr) : Option (List Instr) := do
  let (addr, used) ← getSibdAddr P.lregLoc op2
  P.withInt op1 size writesOp1 used fun a => do
    let emit ← binIntRMEmit kind
    return [emit size a addr]

/-- `X64_emit_bin_flt_rm_instr`. -/
def emitBinFltRM (kind : FltKind) (writesOp1 : Bool) (fltKind : FloatKind) (op1 : XReg)
    (op2 : XMemAddr) : Option (List Instr) := do
  let (addr, used) ← getSibdAddr P.lregLoc op2
  P.withFlt op1 fltKind writesOp1 used fun a => do
    let emit ← binFltRMEmit kind
    return [emit fltKind a addr]

/-- `X64_emit_bin_int_mr_instr`. -/
def emitBinIntMR (kind : BinKind) (size : Size) (op1 : XMemAddr) (op2 : XReg) :
    Option (List Instr) := do
  let (addr, used) ← getSibdAddr P.lregLoc op1
  P.withInt op2 size false used fun b => do
    let emit ← binIntMREmit kind
    return [emit size addr b]

/-- `X64_emit_bin_flt_mr_instr`. -/
def emitBinFltMR (kind : FltKind) (fltKind : FloatKind) (op1 : XMemAddr) (op2 : XReg) :
    Option (List Instr) := do
  let (addr, used) ← getSibdAddr P.lregLoc op1
  P.withFlt op2 fltKind false used fun b => do
    let emit ← binFltMREmit kind
    return [emit fltKind addr b]

/-- `X64_emit_bin_int_mi_instr`. -/
def emitBinIntMI (kind : BinKind) (size : Size) (op1 : XMemAddr) (op2 : BitVec 64) :
    Option (List Instr) := do
  let (addr, _) ← getSibdAddr P.lregLoc op1
  let emit ← binIntMIEmit kind
  return [emit size addr (op2.setWidth 32)]

/-- `X64_emit_bin_int_ri_instr`. -/
def emitBinIntRI (kind : BinKind) (size : Size) (op1 : XReg) (op2 : BitVec 64) :
    Option (List Instr) :=
  match P.intLoc op1 with
  | .reg a => do
    let emit ← binIntRIEmit kind
    return [emit size a (op2.setWidth 32)]
  | .stack offset => do
    let emit ← binIntMIEmit kind
    return [emit size (rbpOffsetAddr offset) (op2.setWidth 32)]

/-- The cases of `X64_gen_instr` that have a register form and a memory form for one operand. -/
def emitRegMem (x : XReg) (r : Gpr → Instr) (m : SibdAddr → Instr) : List Instr :=
  match P.intLoc x with
  | .reg g => [r g]
  | .stack offset => [m (rbpOffsetAddr offset)]

/-- `XIR_InstrSar_R_R` and `XIR_InstrShl_R_R`: the count must be in `rcx`. -/
def emitShiftRR (op : ShiftOp) (size : Size) (dst src : XReg) : Option (List Instr) :=
  if P.intLoc src = .reg .rcx then some (P.emitRegMem dst (.shiftRR op size) (.shiftMR op size))
  else none

/-- `XIR_InstrMov_R_I`. -/
def emitMovRI (size : Size) (dst : XReg) (imm : BitVec 64) : Option (List Instr) :=
  P.withInt dst size true 0 fun d => some [.movRI size d imm]

/-- `XIR_InstrMov_R_RH`. -/
def emitMovRRH (dst src : XReg) : Option (List Instr) :=
  match P.intLoc src with
  | .stack _ => none
  | .reg s =>
    some (P.emitRegMem dst (.movRR true .b1 · s) (.movMR true .b1 · s))

/-- `XIR_InstrMovZX_R_R`: four bytes are extended by a move of four bytes. -/
def emitMovzxRR (dstSize : Size) (dst : XReg) (srcSize : Size) (src : XReg) :
    Option (List Instr) :=
  if srcSize ≠ .b4 then P.emitMovExtRR ⟨.movzx, .rr⟩ dstSize dst srcSize src
  else if dstSize = .b8 then P.emitBinIntRR ⟨.mov, .rr⟩ true true srcSize dst src
  else none

/-- `XIR_InstrMovZX_R_M`. -/
def emitMovzxRM (dstSize : Size) (dst : XReg) (srcSize : Size) (src : XMemAddr) :
    Option (List Instr) :=
  if srcSize ≠ .b4 then P.emitMovExtRM ⟨.movzx, .rm⟩ dstSize dst srcSize src
  else if dstSize = .b8 then P.emitBinIntRM ⟨.mov, .rm⟩ true srcSize dst src
  else none

/-- `movsx_kind`, which is of the register form for a source in memory too. -/
def movsxKind (srcSize : Size) : ExtKind :=
  if 4 ≤ srcSize.bytes then ⟨.movsxd, .rr⟩ else ⟨.movsx, .rr⟩

/-! ## Conversions -/

/-- The register of a location as a mask. -/
def intMask (x : XReg) : RegMask :=
  match P.intLoc x with
  | .reg g => RegMask.set 0 (.int g)
  | .stack _ => 0

def fltMask (x : XReg) : RegMask :=
  match P.fltLoc x with
  | .reg r => RegMask.set 0 (.xmm r)
  | .stack _ => 0

/-- An instruction that reads a float in a register or in memory. -/
def readFlt (x : XReg) (r : Xmm → Instr) (m : SibdAddr → Instr) : Option (List Instr) :=
  match P.fltLoc x with
  | .reg s => some [r s]
  | .stack offset => some [m (rbpOffsetAddr offset)]

/-- The kind of the result of `CVTSS2SD` and `CVTSD2SS`. -/
def otherKind : FloatKind → FloatKind
  | .f32 => .f64
  | .f64 => .f32

/-- `XIR_InstrCvtSS2SD_R_R` and `XIR_InstrCvtSD2SS_R_R`. -/
def emitCvtFltRR (srcKind : FloatKind) (dst src : XReg) : Option (List Instr) :=
  P.withFlt dst (otherKind srcKind) true (P.fltMask src) fun d =>
    P.readFlt src (.cvtFltRR srcKind d) (.cvtFltRM srcKind d)

def emitCvtFltRM (srcKind : FloatKind) (dst : XReg) (src : XMemAddr) : Option (List Instr) := do
  let (addr, used) ← getSibdAddr P.lregLoc src
  P.withFlt dst (otherKind srcKind) true used fun d => some [.cvtFltRM srcKind d addr]

/-- `XIR_InstrCvtSS2SI_R_R` and `XIR_InstrCvtSD2SI_R_R`. -/
def emitCvtFltIntRR (srcKind : FloatKind) (dstSize : Size) (dst src : XReg) :
    Option (List Instr) :=
  P.withInt dst (if dstSize = .b8 then .b8 else .b4) true (P.fltMask src) fun d =>
    P.readFlt src (.cvtFltIntRR srcKind d (dstSize == .b8)) (.cvtFltIntRM srcKind d (dstSize == .b8))

def emitCvtFltIntRM (srcKind : FloatKind) (dstSize : Size) (dst : XReg) (src : XMemAddr) :
    Option (List Instr) := do
  let (addr, used) ← getSibdAddr P.lregLoc src
  P.withInt dst dstSize true used fun d => some [.cvtFltIntRM srcKind d (dstSize == .b8) addr]

/-- `XIR_InstrCvtSI2SS_R_R` and `XIR_InstrCvtSI2SD_R_R`. -/
def emitCvtIntFltRR (dstKind : FloatKind) (dst : XReg) (srcSize : Size) (src : XReg) :
    Option (List Instr) :=
  if srcSize.bytes < 4 then none
  else P.withFlt dst dstKind true (P.intMask src) fun d =>
    some (P.emitRegMem src (.cvtIntFltRR dstKind d · (srcSize == .b8))
      (.cvtIntFltRM dstKind d · (srcSize == .b8)))

def emitCvtIntFltRM (dstKind : FloatKind) (dst : XReg) (srcSize : Size) (src : XMemAddr) :
    Option (List Instr) :=
  if srcSize.bytes < 4 then none
  else do
    let (addr, used) ← getSibdAddr P.lregLoc src
    P.withFlt dst dstKind true used fun d => some [.cvtIntFltRM dstKind d addr (srcSize == .b8)]

/-- `XIR_InstrUComiSS_R_R` and `XIR_InstrUComiSD_R_R`. -/
def emitUcomisRR (kind : FloatKind) (op1 op2 : XReg) : Option (List Instr) :=
  P.withFlt op1 kind false (P.fltMask op2) fun a =>
    P.readFlt op2 (.ucomisRR kind a) (.ucomisRM kind a)

def emitUcomisRM (kind : FloatKind) (op1 : XReg) (op2 : XMemAddr) : Option (List Instr) := do
  let (addr, used) ← getSibdAddr P.lregLoc op2
  P.withFlt op1 kind false used fun a => some [.ucomisRM kind a addr]

/-- `XIR_InstrLEA`. -/
def emitLea (dst : XReg) (mem : XMemAddr) : Option (List Instr) := do
  let (addr, used) ← getSibdAddr P.lregLoc mem
  P.withInt dst .b8 true used fun d => some [.lea d addr]

end ProcState

end Nibble.X64
