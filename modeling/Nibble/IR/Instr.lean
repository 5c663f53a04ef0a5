import Nibble.Types

/-!
# IR instructions

The instruction set of `bytecode/module.h`. An instruction is named by its
position in the procedure's instruction numbering (`ino / 2`), a basic block,
a memory object and a register by their index. Jump targets that
`IR_patch_jmp_target` fills in later are `none` until then.
-/

namespace Nibble.IR

abbrev Word := BitVec 64

abbrev Reg := Nat
abbrev InstrId := Nat
abbrev BBlockId := Nat
abbrev MemObjId := Nat
abbrev SymId := Nat

inductive ConditionKind where
  | uLt | sLt | uLtEq | sLtEq | uGt | sGt | uGtEq | sGtEq | eq | neq
  deriving DecidableEq, Repr

/-- `ir_opposite_cond`. -/
def oppositeCond : ConditionKind → ConditionKind
  | .uLt => .uGtEq
  | .sLt => .sGtEq
  | .uLtEq => .uGt
  | .sLtEq => .sGt
  | .uGt => .uLtEq
  | .sGt => .sLtEq
  | .uGtEq => .uLt
  | .sGtEq => .sLt
  | .eq => .neq
  | .neq => .eq

@[simp] theorem oppositeCond_oppositeCond (c : ConditionKind) :
    oppositeCond (oppositeCond c) = c := by cases c <;> rfl

theorem oppositeCond_ne (c : ConditionKind) : oppositeCond c ≠ c := by cases c <;> decide

inductive MemBase where
  | none
  | reg (r : Reg)
  | obj (o : MemObjId)
  | strLit (id : Nat)
  | floatLit (id : Nat)
  deriving DecidableEq, Repr

/-- `MemAddr`. `indexReg = none` is `IR_REG_COUNT`. -/
structure MemAddr where
  base : MemBase
  indexReg : Option Reg
  scale : BitVec 8
  disp : BitVec 32
  deriving DecidableEq, Repr

/-- `MemObj`. An anonymous object is named by its place in the frame. -/
inductive MemObj where
  | none
  | anonObj (id : Nat)
  | sym (s : SymId)
  | addr (a : MemAddr)
  | alias (o : MemObjId)
  deriving DecidableEq, Repr

inductive OpRI where
  | reg (r : Reg)
  | imm (v : Word)
  deriving DecidableEq, Repr

inductive OpRA where
  | reg (r : Reg)
  | addr (a : MemAddr)
  deriving DecidableEq, Repr

inductive OpRIA where
  | reg (r : Reg)
  | imm (v : Word)
  | addr (a : MemAddr)
  deriving DecidableEq, Repr

/-- The instructions that share `IR_InstrIntBinary` and `IR_InstrShift`. -/
inductive IntBinOp where
  | add | sub | mul | div | mod | and | or | xor | sar | shl
  deriving DecidableEq, Repr

inductive FltBinOp where
  | add | sub | mul | div
  deriving DecidableEq, Repr

inductive UnaryOp where
  | not | neg
  deriving DecidableEq, Repr

inductive ConvertOp where
  | trunc | zext | sext
  deriving DecidableEq, Repr

/-- `IR_Value`: a register for a scalar, an address for an object. -/
inductive ValueLoc where
  | none
  | reg (r : Reg)
  | addr (a : MemAddr)
  deriving DecidableEq, Repr

structure Value where
  type : Ty
  loc : ValueLoc
  deriving DecidableEq, Repr

structure PhiArg where
  bblock : BBlockId
  ireg : Reg
  deriving DecidableEq, Repr

structure CaseRange where
  start : BitVec 32
  stop : BitVec 32
  deriving DecidableEq, Repr

inductive Instr where
  | intBinary (op : IntBinOp) (type : Ty) (r : Reg) (a b : OpRIA)
  | fltBinary (op : FltBinOp) (fkind : FloatKind) (r : Reg) (a b : OpRA)
  | divMod (type : Ty) (q r : Reg) (a b : OpRIA)
  | unary (op : UnaryOp) (type : Ty) (r a : Reg)
  | convert (op : ConvertOp) (dstType srcType : Ty) (r a : Reg)
  | flt2Int (srcKind : FloatKind) (dstKind : IntegerKind) (dst : Reg) (src : OpRA)
  | int2Flt (srcKind : IntegerKind) (dstKind : FloatKind) (dst : Reg) (src : OpRA)
  | flt2Flt (srcKind dstKind : FloatKind) (dst : Reg) (src : OpRA)
  | lImm (type : Ty) (r : Reg) (imm : Word)
  | load (type : Ty) (r : Reg) (addr : MemAddr)
  | lAddr (type : Ty) (r : Reg) (addr : MemAddr)
  | store (type : Ty) (addr : MemAddr) (a : OpRI)
  | intCmp (type : Ty) (cond : ConditionKind) (r : Reg) (a b : OpRIA)
  | fltCmp (fkind : FloatKind) (cond : ConditionKind) (r a : Reg) (b : OpRA)
  | jmp (src : BBlockId) (target : Option BBlockId)
  | condJmp (src : BBlockId) (trueBb : Option BBlockId) (falseBb : BBlockId) (a : Reg)
  | switchCaseJmp (src : BBlockId) (val : OpRIA) (targets : List BBlockId)
      (caseRanges : List CaseRange)
  | ret (val : Value)
  | call (sym : SymId) (r : Value) (args : List Value)
  | callIndirect (procType : Ty) (loc : Reg) (r : Value) (args : List Value)
  | memcpy (dst src : MemAddr) (size : OpRI)
  | memset (dst : MemAddr) (value size : OpRI)
  | syscall (nr : OpRIA) (args : List OpRIA) (r : Reg)
  | phi (type : Ty) (r : Reg) (args : List PhiArg)
  deriving DecidableEq, Repr

namespace Instr

/-- The instructions after which `IR_bblock_add_instr` closes the block. -/
def closes : Instr → Bool
  | jmp _ _ | condJmp _ _ _ _ | ret _ => true
  | _ => false

/-- The instructions that transfer control. -/
def isControl : Instr → Bool
  | jmp _ _ | condJmp _ _ _ _ | switchCaseJmp _ _ _ _ | ret _ => true
  | _ => false

/-- The comparison with the opposite condition; other instructions are unchanged. -/
def flipCond : Instr → Instr
  | intCmp t c r a b => intCmp t (oppositeCond c) r a b
  | fltCmp k c r a b => fltCmp k (oppositeCond c) r a b
  | i => i

/-- The result register of a comparison. -/
def cmpReg? : Instr → Option Reg
  | intCmp _ _ r _ _ => some r
  | fltCmp _ _ r _ _ => some r
  | _ => none

@[simp] theorem flipCond_flipCond (i : Instr) : i.flipCond.flipCond = i := by
  cases i <;> simp [flipCond]

@[simp] theorem cmpReg?_flipCond (i : Instr) : i.flipCond.cmpReg? = i.cmpReg? := by
  cases i <;> rfl

@[simp] theorem closes_flipCond (i : Instr) : i.flipCond.closes = i.closes := by
  cases i <;> rfl

theorem not_closes_of_cmpReg? {i : Instr} {r : Reg} (h : i.cmpReg? = some r) :
    i.closes = false := by
  cases i <;> simp_all [cmpReg?, closes]

end Instr

end Nibble.IR
