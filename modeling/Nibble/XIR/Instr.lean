import Nibble.X64.Instr

/-!
# XIR instructions

The instruction set of `x64_gen/xir.h`, over virtual registers. Kinds that
differ only in the operation or in the kind of float are one constructor.
-/

namespace Nibble.XIR

open Nibble.IR (Word ConditionKind BBlockId SymId)
open Nibble.X64 (Size AluOp RaxOp UnaryOp ShiftOp ExtOp FltOp Reg)

/-- The two-operand operations on integers that are not moves. -/
inductive ArithOp where
  | alu (op : AluOp)
  | imul
  deriving DecidableEq, Repr

/-- `XIR_CallValue`. -/
inductive CallValue where
  | reg (r : XReg)
  | addr (a : XMemAddr)
  deriving DecidableEq, Repr

/-- `x64_linux_arg_regs`. -/
def argRegs : List Reg :=
  [.int .rdi, .int .rsi, .int .rdx, .int .rcx, .int .r8, .int .r9,
    .xmm 0, .xmm 1, .xmm 2, .xmm 3, .xmm 4, .xmm 5, .xmm 6, .xmm 7]

/-- A register that passes arguments. -/
abbrev ArgReg := { r : Reg // r ∈ argRegs }

/-- `XIR_PrimArgSlot` and `XIR_ObjArgSlot`: where an argument has to be at the call. -/
inductive ArgSlot where
  | reg (preg : ArgReg)
  | regs (preg0 preg1 : ArgReg)
  | stack (spOffset : BitVec 32)
  deriving DecidableEq, Repr

/-- `XIR_InstrCallArg`. -/
structure CallArg where
  type : Ty
  val : CallValue
  slot : ArgSlot
  deriving DecidableEq, Repr

/-- `x64_linux_caller_saved_reg_mask`. -/
def callerSavedRegMask : BitVec 32 := 0xFFFF0FC7

/-- What `XIR_InstrCall` and `XIR_InstrCall_R` have in common. `retType` is the one of the
procedure's type, `stackSize` is `stack_info.size`; only caller-saved registers are saved. -/
structure Call where
  retType : Ty
  dst : CallValue
  args : List CallArg
  stackSize : BitVec 64
  saveRegMask : BitVec 32
  save_sub : saveRegMask &&& ~~~callerSavedRegMask = 0
  deriving DecidableEq, Repr

/-- `XIR_Instr`. -/
inductive Instr where
  | movRR (size : Size) (dst src : XReg)
  | movRM (size : Size) (dst : XReg) (src : XMemAddr)
  | movMR (size : Size) (dst : XMemAddr) (src : XReg)
  | movRI (size : Size) (dst : XReg) (src : Word)
  | movMI (size : Size) (dst : XMemAddr) (src : Word)
  | movRRH (dst src : XReg)
  | arithRR (op : ArithOp) (size : Size) (dst src : XReg)
  | arithRM (op : ArithOp) (size : Size) (dst : XReg) (src : XMemAddr)
  | arithRI (op : ArithOp) (size : Size) (dst : XReg) (src : Word)
  | cmpMR (size : Size) (op1 : XMemAddr) (op2 : XReg)
  | cmpMI (size : Size) (op1 : XMemAddr) (op2 : Word)
  /-- `dx` is `none` for byte operands. -/
  | raxR (op : RaxOp) (size : Size) (dx : Option XReg) (ax src : XReg)
  | raxM (op : RaxOp) (size : Size) (dx : Option XReg) (ax : XReg) (src : XMemAddr)
  | sextAxToDx (size : Size) (dx ax : XReg)
  | shiftRR (op : ShiftOp) (size : Size) (dst src : XReg)
  | shiftRI (op : ShiftOp) (size : Size) (dst : XReg) (src : Word)
  | unary (op : UnaryOp) (size : Size) (dst : XReg)
  | movExtRR (op : ExtOp) (dstSize : Size) (dst : XReg) (srcSize : Size) (src : XReg)
  | movExtRM (op : ExtOp) (dstSize : Size) (dst : XReg) (srcSize : Size) (src : XMemAddr)
  | fltRR (op : FltOp) (kind : FloatKind) (dst src : XReg)
  | fltRM (op : FltOp) (kind : FloatKind) (dst : XReg) (src : XMemAddr)
  | movFltRR (kind : FloatKind) (dst src : XReg)
  | movFltRM (kind : FloatKind) (dst : XReg) (src : XMemAddr)
  | movFltMR (kind : FloatKind) (dst : XMemAddr) (src : XReg)
  /-- `CvtSS2SD` and `CvtSD2SS`, by the kind of the source. -/
  | cvtFltRR (srcKind : FloatKind) (dst src : XReg)
  | cvtFltRM (srcKind : FloatKind) (dst : XReg) (src : XMemAddr)
  | cvtFltIntRR (srcKind : FloatKind) (dstSize : Size) (dst src : XReg)
  | cvtFltIntRM (srcKind : FloatKind) (dstSize : Size) (dst : XReg) (src : XMemAddr)
  | cvtIntFltRR (dstKind : FloatKind) (dst : XReg) (srcSize : Size) (src : XReg)
  | cvtIntFltRM (dstKind : FloatKind) (dst : XReg) (srcSize : Size) (src : XMemAddr)
  | lea (dst : XReg) (mem : XMemAddr)
  | ucomisRR (kind : FloatKind) (op1 op2 : XReg)
  | ucomisRM (kind : FloatKind) (op1 : XReg) (op2 : XMemAddr)
  | jmp (target : BBlockId)
  | jmpcc (cond : ConditionKind) (trueBb : Option BBlockId) (falseBb : BBlockId)
  | setcc (cond : ConditionKind) (dst : XReg)
  | repMovsb (rdi rsi rcx : XReg)
  | repStosb (rdi al rcx : XReg)
  | syscall (nr : XReg) (args : List XReg) (rcx r11 : XReg)
  | ret (ax dx : Option XReg)
  | call (sym : SymId) (c : Call)
  | callR (procLoc : XReg) (c : Call)
  deriving DecidableEq, Repr

/-- The call of a call instruction. -/
def Instr.call? : Instr → Option Call
  | call _ c | callR _ c => some c
  | _ => none

/-- The code of an address as instructions. -/
def XInstr.toInstr : XInstr → Instr
  | imulRI dst imm => .arithRI .imul .b8 dst imm
  | addRR dst src => .arithRR (.alu .add) .b8 dst src

end Nibble.XIR
