import Nibble.X64.Emit

/-!
# Calls and procedures

The call case of `X64_gen_instr`, with the placing of arguments and of the
result, and `X64_gen_proc_instrs` around the instructions of a procedure. A
call pushes the registers that live across it, makes room for the arguments
that go on the stack, and subtracts another word first if these are an odd
number of words.
-/

namespace Nibble.X64

open Nibble.IR (SymId BBlockId)
open Nibble.XIR (XReg XMemAddr CallValue ArgReg ArgSlot CallArg Call)

/-- A primitive size. -/
def sizeOf? : Nat → Option Size
  | 1 => some .b1
  | 2 => some .b2
  | 4 => some .b4
  | 8 => some .b8
  | _ => none

/-- `X64_flt_kind_from_size`. -/
def fltKindFromSize : Nat → Option FloatKind
  | 8 => some .f64
  | 4 => some .f32
  | _ => none

/-- `X64_is_obj_retarg_large`. -/
def isObjRetargLarge (size : Nat) : Bool := 16 < size

/-- Move the displacement of a local address; those of other addresses share its bytes. -/
def SibdAddr.addDisp : SibdAddr → Nat → Option SibdAddr
  | .loc base index scale disp, n => some (.loc base index scale (disp + BitVec.ofNat 32 n))
  | _, _ => none

/-- A register loaded from memory, as `X64_load_prim_from_mem` with the size of a type. -/
def loadPrim (size : Nat) : Reg → SibdAddr → Option Instr
  | .int g, addr => (sizeOf? size).map fun s => .movRM s g addr
  | .xmm x, addr => (fltKindFromSize size).map fun k => .movFltRM k x addr

/-- The registers of a mask, by number. -/
def RegMask.regs (mask : RegMask) : List Reg :=
  ((List.range 16).map fun n => Reg.int (Gpr.ofVal n)).filter mask.mem ++
    ((List.finRange 16).map Reg.xmm).filter mask.mem

namespace ProcState

variable (P : ProcState)

/-- Copy eight-byte chunks of an object to registers. -/
def copyToRegs : List ArgReg → SibdAddr → Option (List Instr)
  | [], _ => some []
  | r :: rs, addr => do
    let load ← loadPrim 8 r.val addr
    let next ← addr.addDisp 8
    let code ← copyToRegs rs next
    return load :: code

/-- The location of a primitive argument that goes to `preg`. -/
def placePrimInReg (size : Nat) (val : XReg) : Reg → Option (List Instr)
  | .int g =>
    match P.intLoc val with
    | .stack offset => (loadPrim size (.int g) (rbpOffsetAddr offset)).map ([·])
    | .reg g' => if g' = g then some [] else none
  | .xmm x =>
    match P.fltLoc val with
    | .stack offset => (loadPrim size (.xmm x) (rbpOffsetAddr offset)).map ([·])
    | .reg x' => if x' = x then some [] else none

/-- One argument of `X64_place_args_in_regs`. -/
def placeArgInReg (arg : CallArg) : Option (List Instr) :=
  match arg.val, arg.slot with
  | _, .stack _ => some []
  | .addr a, .reg r =>
    if arg.type.isObjLike then do
      let (addr, _) ← getSibdAddr P.lregLoc a
      copyToRegs [r] addr
    else none
  | .addr a, .regs r0 r1 =>
    if arg.type.isObjLike then do
      let (addr, _) ← getSibdAddr P.lregLoc a
      copyToRegs [r0, r1] addr
    else none
  | .reg v, .reg r => if arg.type.isObjLike then none else P.placePrimInReg arg.type.size v r.val
  | .reg _, .regs _ _ => none

/-- `X64_place_args_in_regs`. -/
def placeArgsInRegs (args : List CallArg) : Option (List Instr) := do
  let codes ← args.mapM P.placeArgInReg
  return codes.flatten

/-- An object argument that is copied to its place on the stack, above three pushed words. -/
def copyStructArg (arg : CallArg) : Option (List Instr) :=
  match arg.val, arg.slot with
  | .addr a, .stack spOffset =>
    if arg.type.isObjLike then do
      let (addr, _) ← getSibdAddr P.lregLoc a
      match addr with
      | .loc .. => return [.lea .rdi (rspOffsetAddr (spOffset + 24)), .lea .rsi addr,
          .movRI .b8 .rcx (BitVec.ofNat 64 arg.type.size), .repMovsb]
      | _ => none
    else none
  | _, _ => some []

/-- `X64_place_struct_args_in_stack`. -/
def placeStructArgsInStack (args : List CallArg) : Option (List Instr) := do
  let codes ← args.mapM P.copyStructArg
  if codes.flatten.isEmpty then return []
  else return [.push .rdi, .push .rsi, .push .rcx] ++ codes.flatten ++
    [.pop .rcx, .pop .rsi, .pop .rdi]

/-- A primitive argument in a register that goes on the stack. -/
def placeRegArgInStack (arg : CallArg) : Option (List Instr) :=
  match arg.val, arg.slot with
  | .reg v, .stack spOffset =>
    match arg.type.floatKind? with
    | some k =>
      match P.fltLoc v with
      | .reg x => some [.movFltMR k (rspOffsetAddr spOffset) x]
      | .stack _ => some []
    | none =>
      match P.intLoc v with
      | .reg g => (sizeOf? arg.type.size).map fun s =>
          [Instr.movMR false s (rspOffsetAddr spOffset) g]
      | .stack _ => some []
  | _, _ => some []

/-- The slot of a spilled primitive argument. -/
def spilledArg (type : Ty) (v : XReg) : Option (BitVec 32) :=
  match type.floatKind?, P.fltLoc v, P.intLoc v with
  | some _, .stack offset, _ => some offset
  | none, _, .stack offset => some offset
  | _, _, _ => none

/-- A spilled primitive argument that goes on the stack, through `rax`. -/
def placeSpilledArgInStack (arg : CallArg) : Option (List Instr) :=
  match arg.val, arg.slot with
  | .reg v, .stack spOffset =>
    match P.spilledArg arg.type v with
    | some offset => (sizeOf? arg.type.size).map fun s =>
        [Instr.movRM s .rax (rbpOffsetAddr offset),
          Instr.movMR false s (rspOffsetAddr spOffset) .rax]
    | none => some []
  | _, _ => some []

/-- `X64_place_args_in_stack`: objects, then what is in registers, then what is spilled. -/
def placeArgsInStack (args : List CallArg) : Option (List Instr) := do
  let structs ← P.placeStructArgsInStack args
  let regs ← args.mapM P.placeRegArgInStack
  let spilled ← args.mapM P.placeSpilledArgInStack
  return structs ++ regs.flatten ++ spilled.flatten

/-! ## The result -/

/-- `pow2_sizes`. -/
def pow2Size : Nat → Size
  | 1 => .b1
  | 2 | 3 => .b2
  | _ => .b4

/-- Fewer than eight bytes of a register, in chunks: store, and shift the stored bits out. -/
def fillChunks : Nat → SibdAddr → Gpr → Nat → Option (List Instr)
  | _, _, _, 0 => some []
  | 0, _, _, _ => none
  | fuel + 1, dst, src, rem =>
    let s := pow2Size rem
    if rem = s.bytes then some [.movMR false s dst src]
    else do
      let next ← dst.addDisp s.bytes
      let code ← fillChunks fuel next src (rem - s.bytes)
      return [.movMR false s dst src, .shiftRI .sar .b8 src (BitVec.ofNat 8 (8 * s.bytes))] ++ code

/-- `X64_fill_mem_from_reg`, with the number of bytes that remain. -/
def fillMemFromReg (dst : SibdAddr) (src : Reg) (size : Nat) : Option (List Instr × Nat) :=
  match src with
  | .int g =>
    if 8 ≤ size then some ([.movMR false .b8 dst g], size - 8)
    else (fillChunks size dst g size).map (·, 0)
  | .xmm x =>
    if 8 ≤ size then some ([.movFltMR .f64 dst x], size - 8)
    else if size = 4 then some ([.movFltMR .f32 dst x], 0)
    else none

/-- `ret_regs`. -/
def retRegs : RegClass → Reg × Reg
  | .int => (.int .rax, .int .rdx)
  | .flt => (.xmm 0, .xmm 1)

/-- `X64_cpy_ret_small_obj`. -/
def cpyRetSmallObj (retType : Ty) (dst : XMemAddr) : Option (List Instr) :=
  if isObjRetargLarge retType.size then some []
  else do
    let (addr, _) ← getSibdAddr P.lregLoc dst
    let (low, rem) ← fillMemFromReg addr (retRegs (P.objRegClass retType)).1 retType.size
    if rem = 0 then return low
    else do
      let next ← addr.addDisp 8
      let (high, rem) ← fillMemFromReg next (retRegs (P.objRegClass retType)).2 rem
      if rem = 0 then return low ++ high else none

/-- Move the result to where it belongs. -/
def moveResult (retType : Ty) (dst : CallValue) : Option (List Instr) :=
  match retType, dst with
  | .void, _ => some []
  | _, .addr a => if retType.isObjLike then P.cpyRetSmallObj retType a else none
  | _, .reg r =>
    if retType.isObjLike then none
    else match retType.floatKind? with
      | some k =>
        match P.fltLoc r with
        | .stack offset => some [.movFltMR k (rbpOffsetAddr offset) 0]
        | .reg x => some (if x = 0 then [] else [.movFltRR k x 0])
      | none =>
        (sizeOf? retType.size).map fun s =>
          match P.intLoc r with
          | .stack offset => [.movMR false s (rbpOffsetAddr offset) .rax]
          | .reg g => if g = .rax then [] else [.movRR false s g .rax]

/-! ## The call -/

/-- `X64_save_reg_to_group` for the registers of `save_reg_mask`, lowest first. -/
def saveRegs (mask : RegMask) : List Instr := mask.regs.flatMap pushReg

/-- `X64_end_reg_group` after `saveRegs`. -/
def restoreRegs (mask : RegMask) : List Instr := mask.regs.reverse.flatMap popReg

/-- The address of a large result, as the first argument. -/
def passRetAddr (retType : Ty) (dst : CallValue) : Option (List Instr) :=
  if retType.isObjLike && isObjRetargLarge retType.size then
    match dst with
    | .addr a => do
      let (addr, _) ← getSibdAddr P.lregLoc a
      return [.lea .rdi addr]
    | .reg _ => none
  else some []

/-- `sub rsp, n` and `add rsp, n`. -/
def subRsp (n : BitVec 64) : List Instr :=
  if n = 0 then [] else [.aluRI .sub .b8 .rsp (n.setWidth 32)]

def addRsp (n : BitVec 64) : List Instr :=
  if n = 0 then [] else [.aluRI .add .b8 .rsp (n.setWidth 32)]

/-- `total_stack_size`, where every saved register counts as one word. -/
def totalStackSize (c : Call) : BitVec 64 :=
  c.stackSize + BitVec.ofNat 64 (RegMask.regs c.saveRegMask).length * 8

/-- `align_stack_size`. -/
def alignStackSize (c : Call) : BitVec 64 := if totalStackSize c &&& 15 = 0 then 0 else 8

/-- What precedes the call instruction. -/
def beforeCall (c : Call) : Option (List Instr) := do
  let ret ← P.passRetAddr c.retType c.dst
  let regs ← P.placeArgsInRegs c.args
  let stack ← if c.stackSize = 0 then some [] else P.placeArgsInStack c.args
  if (totalStackSize c + alignStackSize c) &&& 15 = 0 then
    return (if alignStackSize c = 0 then [.noop] else subRsp (alignStackSize c)) ++
      saveRegs c.saveRegMask ++ ret ++ subRsp c.stackSize ++ regs ++ stack
  else none

/-- What follows it. -/
def afterCall (c : Call) : Option (List Instr) := do
  let result ← P.moveResult c.retType c.dst
  if (RegMask.regs c.saveRegMask).isEmpty then
    return result ++ addRsp (c.stackSize + alignStackSize c)
  else
    return result ++ addRsp c.stackSize ++ restoreRegs c.saveRegMask ++ addRsp (alignStackSize c)

/-- The call case of `X64_gen_instr`. -/
def emitCall (call : Instr) (c : Call) : Option (List Instr) := do
  let before ← P.beforeCall c
  let after ← P.afterCall c
  return before ++ call :: after

/-- The call instruction through a register or a slot. -/
def callThrough (procLoc : XReg) : Instr :=
  match P.intLoc procLoc with
  | .reg g => .callR g
  | .stack offset => .callM (rbpOffsetAddr offset)

/-- `X64_emit_instr_sext_ax_into_dx`. -/
def sextAxIntoDx : Size → Option Instr
  | .b2 => some .cwd
  | .b4 => some .cdq
  | .b8 => some .cqo
  | .b1 => none

/-- Registers and stack slots that are the same make a move redundant. -/
def sameOps {R : Type} [DecidableEq R] (a b : Loc R) : Bool := decide (a = b)

/-- `X64_gen_instr`. -/
def genInstr (isLastInstr : Bool) (bblockId : BBlockId) : XIR.Instr → Option (List Instr)
  | .movRR size dst src =>
    if sameOps (P.intLoc dst) (P.intLoc src) then some []
    else P.emitBinIntRR ⟨.mov, .rr⟩ true true size dst src
  | .movRM size dst src => P.emitBinIntRM ⟨.mov, .rm⟩ true size dst src
  | .movMR size dst src => P.emitBinIntMR ⟨.mov, .mr⟩ size dst src
  | .movRI size dst src => P.emitMovRI size dst src
  | .movMI size dst src => P.emitBinIntMI ⟨.mov, .mi⟩ size dst src
  | .movRRH dst src => P.emitMovRRH dst src
  | .arithRR (.alu op) size dst src =>
    P.emitBinIntRR ⟨.alu op, .rr⟩ (op != .cmp) true size dst src
  | .arithRR .imul size dst src => P.emitBinIntRR ⟨.imul, .rr⟩ true false size dst src
  | .arithRM (.alu op) size dst src => P.emitBinIntRM ⟨.alu op, .rm⟩ (op != .cmp) size dst src
  | .arithRM .imul size dst src => P.emitBinIntRM ⟨.imul, .rm⟩ true size dst src
  | .arithRI (.alu op) size dst src => P.emitBinIntRI ⟨.alu op, .ri⟩ size dst src
  | .arithRI .imul size dst src => P.emitBinIntRI ⟨.imul, .ri⟩ size dst src
  | .cmpMR size op1 op2 => P.emitBinIntMR ⟨.alu .cmp, .mr⟩ size op1 op2
  | .cmpMI size op1 op2 => P.emitBinIntMI ⟨.alu .cmp, .mi⟩ size op1 op2
  | .raxR op size _ _ src => some (P.emitRegMem src (.raxR op size) (.raxM op size))
  | .raxM op size _ _ src => do
    let (addr, _) ← getSibdAddr P.lregLoc src
    return [.raxM op size addr]
  | .sextAxToDx size _ _ => do
    let i ← sextAxIntoDx size
    return [i]
  | .shiftRR op size dst src => P.emitShiftRR op size dst src
  | .shiftRI op size dst src =>
    some (P.emitRegMem dst (.shiftRI op size · (src.setWidth 8))
      (.shiftMI op size · (src.setWidth 8)))
  | .unary op size dst => some (P.emitRegMem dst (.unaryR op size) (.unaryM op size))
  | .movExtRR .movsx dstSize dst srcSize src =>
    P.emitMovExtRR (movsxKind srcSize) dstSize dst srcSize src
  | .movExtRR .movzx dstSize dst srcSize src => P.emitMovzxRR dstSize dst srcSize src
  | .movExtRM .movsx dstSize dst srcSize src =>
    P.emitMovExtRM (movsxKind srcSize) dstSize dst srcSize src
  | .movExtRM .movzx dstSize dst srcSize src => P.emitMovzxRM dstSize dst srcSize src
  | .fltRR op kind dst src => P.emitBinFltRR ⟨.arith op, .rr⟩ kind dst src false
  | .fltRM op kind dst src => P.emitBinFltRM ⟨.arith op, .rm⟩ true kind dst src
  | .movFltRR kind dst src =>
    if sameOps (P.fltLoc dst) (P.fltLoc src) then some []
    else P.emitBinFltRR ⟨.mov, .rr⟩ kind dst src true
  | .movFltRM kind dst src => P.emitBinFltRM ⟨.mov, .rm⟩ true kind dst src
  | .movFltMR kind dst src => P.emitBinFltMR ⟨.mov, .mr⟩ kind dst src
  | .cvtFltRR srcKind dst src => P.emitCvtFltRR srcKind dst src
  | .cvtFltRM srcKind dst src => P.emitCvtFltRM srcKind dst src
  | .cvtFltIntRR srcKind dstSize dst src => P.emitCvtFltIntRR srcKind dstSize dst src
  | .cvtFltIntRM srcKind dstSize dst src => P.emitCvtFltIntRM srcKind dstSize dst src
  | .cvtIntFltRR dstKind dst srcSize src => P.emitCvtIntFltRR dstKind dst srcSize src
  | .cvtIntFltRM dstKind dst srcSize src => P.emitCvtIntFltRM dstKind dst srcSize src
  | .lea dst mem => P.emitLea dst mem
  | .ucomisRR kind op1 op2 => P.emitUcomisRR kind op1 op2
  | .ucomisRM kind op1 op2 => P.emitUcomisRM kind op1 op2
  | .jmp target => some (if target = bblockId + 1 then [] else [.jmp target])
  | .jmpcc cond trueBb _ => trueBb.map fun t => [.jmpcc t cond]
  | .setcc cond dst => some (P.emitRegMem dst (.setccR cond) (.setccM cond))
  | .repMovsb _ _ _ => some [.repMovsb]
  | .repStosb _ _ _ => some [.repStosb]
  | .syscall _ _ _ _ => some [.syscall]
  | .ret _ _ => some (if isLastInstr then [] else [.jmpToRet 0])
  | .call sym c => P.emitCall (.call sym) c
  | .callR procLoc c => P.emitCall (P.callThrough procLoc) c

/-! ## The procedure -/

end ProcState

/-- `ALIGN_UP` to `X64_STACK_ALIGN`, in 32 bits. -/
def alignUp16 (n : BitVec 32) : BitVec 32 := (n + 15) &&& ~~~15

/-- `X64_spill_reg`, for a parameter at its offset in the frame. -/
structure ParamSpill where
  size : Nat
  offset : BitVec 32
  preg : ArgReg

/-- `X64_save_prim_to_mem`. -/
def savePrim (size : Nat) (addr : SibdAddr) : Reg → Option Instr
  | .int g => (sizeOf? size).map fun s => .movMR false s addr g
  | .xmm x => (fltKindFromSize size).map fun k => .movFltMR k addr x

def ParamSpill.code (s : ParamSpill) : Option Instr :=
  savePrim s.size (rbpOffsetAddr s.offset) s.preg.val

/-- The callee-saved registers that are pushed. -/
def pushedCalleeRegs (usedCalleeRegs : RegMask) : List Reg :=
  usedCalleeRegs.regs.filter fun r => r ≠ .int .rbp ∧ r ≠ .int .rsp

/-- What `X64_gen_proc_instrs` emits before the instructions of the procedure. `stackOffset` is the
size of the frame before the allocator aligns it. -/
def prologue (spills : List ParamSpill) (stackOffset : BitVec 32) (usedCalleeRegs : RegMask) :
    Option (List Instr) := do
  let spilled ← spills.mapM ParamSpill.code
  return [.push .rbp, .movRR false .b8 .rbp .rsp] ++
    (if alignUp16 stackOffset = 0 then [.noop]
      else [.aluRI .sub .b8 .rsp (alignUp16 stackOffset)]) ++
    spilled ++ (pushedCalleeRegs usedCalleeRegs).flatMap pushReg

end Nibble.X64
