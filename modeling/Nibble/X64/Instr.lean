import Nibble.XIR.Addr
import Mathlib.Algebra.GroupWithZero.Nat

/-!
# x64 instructions

The registers, addresses and instructions of `x64_gen/regs.h` and
`x64_gen/x64_instrs.h`. An operand that the instruction's family restricts to
one register class has that class as its type. The fields `base_reg` and
`index_reg` of an address are bytes, as in the source: two modules disagree on
the byte that stands for "no register".
-/

namespace Nibble.X64

open Nibble.IR (ConditionKind SymId)

/-- The general-purpose registers of `X64_Reg`, in `enum` order. -/
inductive Gpr where
  | rax | rcx | rdx | rbx | rsp | rbp | rsi | rdi
  | r8 | r9 | r10 | r11 | r12 | r13 | r14 | r15
  deriving DecidableEq, Repr

/-- The vector registers `X64_XMM0` to `X64_XMM15`. -/
abbrev Xmm := Fin 16

instance neZeroXmm : NeZero 16 := ⟨by decide⟩

/-- `X64_Reg`. -/
inductive Reg where
  | int (g : Gpr)
  | xmm (x : Xmm)
  deriving DecidableEq, Repr

namespace Gpr

/-- `x64_reg_val` on the general-purpose registers. -/
def val : Gpr → Nat
  | rax => 0 | rcx => 1 | rdx => 2 | rbx => 3 | rsp => 4 | rbp => 5 | rsi => 6 | rdi => 7
  | r8 => 8 | r9 => 9 | r10 => 10 | r11 => 11 | r12 => 12 | r13 => 13 | r14 => 14 | r15 => 15

/-- The register with a given number. -/
def ofVal : Nat → Gpr
  | 0 => rax | 1 => rcx | 2 => rdx | 3 => rbx | 4 => rsp | 5 => rbp | 6 => rsi | 7 => rdi
  | 8 => r8 | 9 => r9 | 10 => r10 | 11 => r11 | 12 => r12 | 13 => r13 | 14 => r14 | _ => r15

@[simp] theorem val_rsp : rsp.val = 4 := rfl
@[simp] theorem val_rbp : rbp.val = 5 := rfl

theorem val_lt (g : Gpr) : g.val < 16 := by cases g <;> decide

@[simp] theorem ofVal_val (g : Gpr) : ofVal g.val = g := by cases g <;> rfl

theorem val_ofVal : ∀ n < 16, (ofVal n).val = n := by decide

theorem val_inj {g h : Gpr} (e : g.val = h.val) : g = h := by
  rw [← ofVal_val g, e, ofVal_val]

/-- `x64_reg_8h_val`: the number of the high byte register; 0 where there is none. -/
def val8h : Gpr → Nat
  | rax => 4 | rcx => 5 | rdx => 6 | rbx => 7 | _ => 0

/-- `X64_reg_aliased_8h`. -/
def aliased8h (g : Gpr) : Bool := rax.val8h ≤ g.val && g.val ≤ rbx.val8h

/-- Registers `R8` to `R15`, which need a bit of the REX prefix. -/
def isExt (g : Gpr) : Bool := 7 < g.val

end Gpr

/-- The number of a register in `X64_Reg`. -/
def Reg.num : Reg → Nat
  | int g => g.val
  | xmm x => 16 + x

/-- `X64_REG_COUNT`. -/
def regCount : Nat := 32

theorem Reg.num_lt (r : Reg) : r.num < regCount := by
  cases r with
  | int g => exact Nat.lt_of_lt_of_le g.val_lt (by decide)
  | xmm x => simp only [num, regCount]; omega

theorem Reg.num_inj {r s : Reg} (h : r.num = s.num) : r = s := by
  cases r with
  | int g =>
    cases s with
    | int g' => rw [Gpr.val_inj h]
    | xmm x => have := g.val_lt; simp only [num] at h; omega
  | xmm x =>
    cases s with
    | int g => have := g.val_lt; simp only [num] at h; omega
    | xmm y =>
      simp only [num] at h
      rw [Fin.ext (by omega : x.val = y.val)]

/-- `x64_reg_val`. Reading past the end of the table is undefined. -/
def regVal (n : Nat) : Option Nat :=
  if n < 16 then some n else if n < regCount then some (n - 16) else none

@[simp] theorem regVal_gpr (g : Gpr) : regVal g.val = some g.val := by
  simp [regVal, g.val_lt]

theorem regVal_regCount : regVal regCount = none := rfl

/-- The sizes of integer operands. -/
inductive Size where
  | b1 | b2 | b4 | b8
  deriving DecidableEq, Repr

def Size.bytes : Size → Nat
  | b1 => 1
  | b2 => 2
  | b4 => 4
  | b8 => 8

def Size.bits (s : Size) : Nat := 8 * s.bytes

/-- `X64_SIBD_Addr`. -/
inductive SibdAddr where
  | global (s : SymId)
  | loc (baseReg indexReg : Nat) (scale : BitVec 8) (disp : BitVec 32)
  | strLit (id : Nat)
  | floatLit (id : Nat)
  deriving DecidableEq, Repr

/-- `X64_get_rbp_offset_addr`. The scale is left zero. -/
def rbpOffsetAddr (offset : BitVec 32) : SibdAddr := .loc Gpr.rbp.val regCount 0 offset

/-- `X64_get_rsp_offset_addr`. -/
def rspOffsetAddr (offset : BitVec 32) : SibdAddr := .loc Gpr.rsp.val regCount 0 offset

/-- The two-operand integer instructions that share their encoders. -/
inductive AluOp where
  | add | sub | and | or | xor | cmp
  deriving DecidableEq, Repr

/-- The one-operand instructions on `rdx:rax`. -/
inductive RaxOp where
  | mul | imul | div | idiv
  deriving DecidableEq, Repr

inductive UnaryOp where
  | neg | not
  deriving DecidableEq, Repr

inductive ShiftOp where
  | shl | sar
  deriving DecidableEq, Repr

inductive ExtOp where
  | movzx | movsx
  deriving DecidableEq, Repr

inductive FltOp where
  | add | sub | mul | div
  deriving DecidableEq, Repr

/-- `X64_Instr`. Kinds that differ only in the operation are one constructor. -/
inductive Instr where
  | noop
  | push (reg : Gpr)
  | pop (reg : Gpr)
  | jmp (target : Nat)
  | jmpToRet (target : Nat)
  | jmpcc (target : Nat) (cond : ConditionKind)
  | setccR (cond : ConditionKind) (dst : Gpr)
  | setccM (cond : ConditionKind) (dst : SibdAddr)
  | ret
  | call (procSym : SymId)
  | callR (reg : Gpr)
  | callM (mem : SibdAddr)
  | repMovsb
  | repStosb
  | syscall
  | aluRR (op : AluOp) (size : Size) (dst src : Gpr)
  | aluRM (op : AluOp) (size : Size) (dst : Gpr) (src : SibdAddr)
  | aluMR (op : AluOp) (size : Size) (dst : SibdAddr) (src : Gpr)
  | aluRI (op : AluOp) (size : Size) (dst : Gpr) (imm : BitVec 32)
  | aluMI (op : AluOp) (size : Size) (dst : SibdAddr) (imm : BitVec 32)
  | imulRR (size : Size) (dst src : Gpr)
  | imulRM (size : Size) (dst : Gpr) (src : SibdAddr)
  | imulRI (size : Size) (dst : Gpr) (imm : BitVec 32)
  | imulMI (size : Size) (dst : SibdAddr) (imm : BitVec 32)
  | raxR (op : RaxOp) (size : Size) (src : Gpr)
  | raxM (op : RaxOp) (size : Size) (src : SibdAddr)
  | cwd
  | cdq
  | cqo
  | shiftRR (op : ShiftOp) (size : Size) (dst : Gpr)
  | shiftMR (op : ShiftOp) (size : Size) (dst : SibdAddr)
  | shiftRI (op : ShiftOp) (size : Size) (dst : Gpr) (imm : BitVec 8)
  | shiftMI (op : ShiftOp) (size : Size) (dst : SibdAddr) (imm : BitVec 8)
  | unaryR (op : UnaryOp) (size : Size) (dst : Gpr)
  | unaryM (op : UnaryOp) (size : Size) (dst : SibdAddr)
  /-- `srcRH` is `X64_INSTR_MOV_SRC_RH_MASK`: the source is the high byte register. -/
  | movRR (srcRH : Bool) (size : Size) (dst src : Gpr)
  | movRM (size : Size) (dst : Gpr) (src : SibdAddr)
  | movMR (srcRH : Bool) (size : Size) (dst : SibdAddr) (src : Gpr)
  | movRI (size : Size) (dst : Gpr) (imm : BitVec 64)
  | movMI (size : Size) (dst : SibdAddr) (imm : BitVec 32)
  | movExtRR (op : ExtOp) (dstSize : Size) (dst : Gpr) (srcSize : Size) (src : Gpr)
  | movExtRM (op : ExtOp) (dstSize : Size) (dst : Gpr) (srcSize : Size) (src : SibdAddr)
  | movsxdRR (dstSize : Size) (dst : Gpr) (srcSize : Size) (src : Gpr)
  | movsxdRM (dstSize : Size) (dst : Gpr) (srcSize : Size) (src : SibdAddr)
  | fltRR (op : FltOp) (kind : FloatKind) (dst src : Xmm)
  | fltRM (op : FltOp) (kind : FloatKind) (dst : Xmm) (src : SibdAddr)
  | movFltRR (kind : FloatKind) (dst src : Xmm)
  | movFltRM (kind : FloatKind) (dst : Xmm) (src : SibdAddr)
  | movFltMR (kind : FloatKind) (dst : SibdAddr) (src : Xmm)
  | movdquRM (dst : Xmm) (src : SibdAddr)
  | movdquMR (dst : SibdAddr) (src : Xmm)
  /-- `CVTSS2SD` and `CVTSD2SS`, by the kind of the source. -/
  | cvtFltRR (srcKind : FloatKind) (dst src : Xmm)
  | cvtFltRM (srcKind : FloatKind) (dst : Xmm) (src : SibdAddr)
  /-- `CVTTSS2SI` and `CVTTSD2SI`. -/
  | cvtFltIntRR (kind : FloatKind) (dst : Gpr) (dst8bytes : Bool) (src : Xmm)
  | cvtFltIntRM (kind : FloatKind) (dst : Gpr) (dst8bytes : Bool) (src : SibdAddr)
  /-- `CVTSI2SS` and `CVTSI2SD`. -/
  | cvtIntFltRR (kind : FloatKind) (dst : Xmm) (src : Gpr) (src8bytes : Bool)
  | cvtIntFltRM (kind : FloatKind) (dst : Xmm) (src : SibdAddr) (src8bytes : Bool)
  /-- `UCOMISS` and `UCOMISD`. -/
  | ucomisRR (kind : FloatKind) (dst src : Xmm)
  | ucomisRM (kind : FloatKind) (dst : Xmm) (src : SibdAddr)
  | lea (dst : Gpr) (src : SibdAddr)
  deriving DecidableEq, Repr

end Nibble.X64
