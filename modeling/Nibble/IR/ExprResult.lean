import Nibble.IR.Exec

/-!
# Expression results

`IR_ExprResult`: what emitting an expression leaves behind. Most kinds are
operands whose value is still to be loaded; a deferred comparison is a list of
pending short-circuit jumps and a final jump. Here are the conversions of a
result that is not a deferred comparison into an operand.
-/

namespace Nibble.IR

/-- `IR_DeferredCmp`. -/
structure DeferredCmp where
  firstScJmp : Option NodeId
  lastScJmp : Option NodeId
  finalJmp : DeferredJmpcc
  deriving DecidableEq, Repr

inductive ResultKind where
  | none
  | imm (v : Word)
  | reg (r : Reg)
  | memAddr (a : MemAddr)
  | derefAddr (a : MemAddr)
  | deferredCmp (c : DeferredCmp)
  | var (s : SymId)
  | tmpObj (o : MemObjId)
  | strLit (id : Nat)
  | floatLit (id : Nat)
  | proc (s : SymId)
  deriving DecidableEq, Repr

structure ExprResult where
  type : Ty
  kind : ResultKind
  deriving DecidableEq, Repr

/-- `IR_tmp_obj_as_addr`. -/
def tmpObjAsAddr (o : MemObjId) : MemAddr := ⟨.obj o, none, 0, 0⟩

/-- `IR_strlit_as_addr`. -/
def strLitAsAddr (id : Nat) : MemAddr := ⟨.strLit id, none, 0, 0⟩

/-- `IR_floatlit_as_addr`. -/
def floatLitAsAddr (id : Nat) : MemAddr := ⟨.floatLit id, none, 0, 0⟩

/-- `IR_type_fits_in_reg`. -/
def typeFitsInReg (t : Ty) : Bool := t.size ≤ ptrSize

/-- Emit an instruction that defines a fresh register. -/
def emitDef (b : BBlockId) (mk : Reg → Instr) : Build Reg := do
  let r ← nextReg
  let _ ← addInstr b (mk r)
  pure r

/-- `IR_execute_lea`. -/
def executeLea (b : BBlockId) (t : Ty) (a : MemAddr) : Build Reg :=
  match a.base, (if a.scale = 0 then none else a.indexReg) with
  | .reg r, none => if a.disp = 0 then pure r else emitDef b (.lAddr t · a)
  | _, _ => emitDef b (.lAddr t · a)

/-- `IR_expr_result_to_reg` for every kind but a deferred comparison. -/
def valueToReg (b : BBlockId) (er : ExprResult) : Build Reg :=
  match er.kind with
  | .reg r => pure r
  | .memAddr a => executeLea b er.type a
  | .derefAddr a => emitDef b (.load er.type · a)
  | .imm v => emitDef b (.lImm er.type · v)
  | .proc s => do
    let a ← symAsAddr s
    emitDef b (.lAddr er.type · a)
  | .tmpObj o => do
    check (typeFitsInReg er.type)
    emitDef b (.load er.type · (tmpObjAsAddr o))
  | .strLit i => do
    check (typeFitsInReg er.type)
    emitDef b (.load er.type · (strLitAsAddr i))
  | .floatLit i => emitDef b (.load er.type · (floatLitAsAddr i))
  | .var s => do
    let a ← symAsAddr s
    emitDef b (.load er.type · a)
  | .none | .deferredCmp _ => failure

/-- `IR_expr_result_to_op_ria` for every kind but a deferred comparison. -/
def valueToOpRIA (b : BBlockId) (er : ExprResult) : Build OpRIA :=
  match er.kind with
  | .reg r => pure (.reg r)
  | .imm v => pure (.imm v)
  | .var s => do
    let a ← symAsAddr s
    pure (.addr a)
  | .derefAddr a => pure (.addr a)
  | .tmpObj o => pure (.addr (tmpObjAsAddr o))
  | .strLit i => pure (.addr (strLitAsAddr i))
  | .floatLit i => pure (.addr (floatLitAsAddr i))
  | .memAddr _ | .proc _ => do
    let r ← valueToReg b er
    pure (.reg r)
  | .none | .deferredCmp _ => failure

/-- `IR_expr_result_to_op_ra` for every kind but a deferred comparison. -/
def valueToOpRA (b : BBlockId) (er : ExprResult) : Build OpRA :=
  match er.kind with
  | .reg r => pure (.reg r)
  | .var s => do
    let a ← symAsAddr s
    pure (.addr a)
  | .derefAddr a => pure (.addr a)
  | .tmpObj o => pure (.addr (tmpObjAsAddr o))
  | .strLit i => pure (.addr (strLitAsAddr i))
  | .floatLit i => pure (.addr (floatLitAsAddr i))
  | .memAddr _ | .proc _ | .imm _ => do
    let r ← valueToReg b er
    pure (.reg r)
  | .none | .deferredCmp _ => failure

/-- The value of a result that is not a deferred comparison, at a machine state. -/
def ExprResult.value (env : Env) (objs : List MemObj) (σ : MState) (er : ExprResult) : Option Word :=
  let load (a : MemAddr) := (addrOf env objs σ.regs a).map (loadN σ.store.mem · er.type.size)
  match er.kind with
  | .imm v => some v
  | .reg r => some (σ.regs r)
  | .memAddr a => addrOf env objs σ.regs a
  | .derefAddr a => load a
  | .var s => some (loadN σ.store.mem (env.symAddr s) er.type.size)
  | .tmpObj o => load (tmpObjAsAddr o)
  | .strLit i => load (strLitAsAddr i)
  | .floatLit i => load (floatLitAsAddr i)
  | .proc s => some (env.symAddr s)
  | .none | .deferredCmp _ => none

end Nibble.IR
