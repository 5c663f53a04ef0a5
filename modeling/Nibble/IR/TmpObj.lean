import Nibble.IR.Instr

/-!
# Temporary objects

The storage of temporaries in `bytecode/procs.c`. While a statement is emitted
its temporaries are kept in a list; `IR_emit_assign` makes some of them stand for
what they would be copied to. When the statement ends, the others get anonymous
objects of the procedure, from the first one on.

An expression is given by what its emission does with the list of temporaries.
The instructions that it emits access the temporaries of the list, and may do so in
any way. The freelist of `IR_TmpObj` is left out: an object that comes from it is
initialised like a new one.
-/

namespace Nibble.IR

/-- `IR_TmpObj`. -/
structure TmpObj where
  size : Nat
  align : Nat
  memObj : MemObjId
  deriving DecidableEq, Repr

/-- `IR_TmpObjList`. -/
abbrev TmpObjList := List TmpObj

/-- `AnonObj`, of those in `tmp_objs`. -/
structure AnonObj where
  id : Int
  size : Nat
  align : Nat
  deriving DecidableEq, Repr

/-- What the storage of temporaries depends on: the memory objects, and the anonymous objects of
the procedure. `currTmpObj` is the number of those that the iterator has passed. -/
structure TmpState where
  memObjs : List MemObj
  tmpObjs : List AnonObj
  numTmpObjs : Nat
  currTmpObj : Nat
  deriving DecidableEq, Repr

/-- `IR_get_tmp_obj`. -/
def getTmpObj (size align : Nat) (st : TmpState) (list : TmpObjList) : TmpState × TmpObjList :=
  ({ st with memObjs := st.memObjs ++ [.none] }, list ++ [⟨size, align, st.memObjs.length⟩])

/-! ### Assignments -/

/-- The base of an address that a temporary is assigned to. -/
inductive DstBase where
  | tmp (k : Nat)
  | sym (s : SymId)
  | reg (r : Reg)
  deriving DecidableEq, Repr

/-- The left side of an assignment from a temporary. A temporary is named by its place in the
list. -/
inductive TmpDst where
  | tmp (k : Nat)
  | var (s : SymId)
  | deref (base : DstBase) (indexReg : Option Reg) (scale : BitVec 8) (disp : BitVec 32)
  deriving DecidableEq, Repr

/-- The memory object that the temporary on the right side becomes. An address with the base of a
variable has a memory object of its own, from `IR_sym_as_addr`. -/
def TmpDst.memObj (st : TmpState) (list : TmpObjList) : TmpDst → Option (TmpState × MemObj)
  | .tmp k => list[k]?.map fun t => (st, .alias t.memObj)
  | .var s => some (st, .sym s)
  | .deref (.tmp k) x scale disp => list[k]?.map fun t => (st, .addr ⟨.obj t.memObj, x, scale, disp⟩)
  | .deref (.sym s) x scale disp =>
    some ({ st with memObjs := st.memObjs ++ [.sym s] },
      .addr ⟨.obj st.memObjs.length, x, scale, disp⟩)
  | .deref (.reg r) x scale disp => some (st, .addr ⟨.reg r, x, scale, disp⟩)

/-- `IR_emit_assign` where the right side is a temporary, which must not have storage yet. -/
def emitAssignTmp (lhs : TmpDst) (rhs : Nat) (st : TmpState) (list : TmpObjList) :
    Option TmpState :=
  match list[rhs]? with
  | some t =>
    if st.memObjs[t.memObj]? = some .none then
      (lhs.memObj st list).map fun (st, obj) => { st with memObjs := st.memObjs.set t.memObj obj }
    else none
  | none => none

/-- What the emission of an expression does with the list. -/
inductive TmpOp where
  | get (size align : Nat)
  | assign (lhs : TmpDst) (rhs : Nat)
  deriving DecidableEq, Repr

def emitTmpOps : List TmpOp → TmpState → TmpObjList → Option (TmpState × TmpObjList)
  | [], st, list => some (st, list)
  | .get size align :: ops, st, list =>
    let (st, list) := getTmpObj size align st list
    emitTmpOps ops st list
  | .assign lhs rhs :: ops, st, list =>
    match emitAssignTmp lhs rhs st list with
    | some st => emitTmpOps ops st list
    | none => none

/-! ### Anonymous objects -/

/-- The object is reused: it keeps the largest size and alignment. -/
def AnonObj.enlarge (obj : AnonObj) (size align : Nat) : AnonObj :=
  { obj with
    size := if obj.size < size then size else obj.size
    align := if obj.align < align then align else obj.align }

/-- `IR_alloc_tmp_anon_obj`, with the place of the object in `tmp_objs`. -/
def allocTmpAnonObj (size align : Nat) (st : TmpState) : TmpState × Nat :=
  match st.tmpObjs[st.currTmpObj]? with
  | none =>
    ({ st with
        tmpObjs := st.tmpObjs ++ [⟨-st.numTmpObjs - 1, size, align⟩]
        numTmpObjs := st.numTmpObjs + 1
        currTmpObj := st.tmpObjs.length + 1 }, st.tmpObjs.length)
  | some obj =>
    ({ st with
        tmpObjs := st.tmpObjs.set st.currTmpObj (obj.enlarge size align)
        currTmpObj := st.currTmpObj + 1 }, st.currTmpObj)

/-- `IR_reset_proc_tmp_obj_iterator`. -/
def resetProcTmpObjIterator (st : TmpState) : TmpState := { st with currTmpObj := 0 }

/-- `IR_process_deferred_tmp_objs`. -/
def processDeferredTmpObjs : TmpObjList → TmpState → TmpState
  | [], st => st
  | t :: list, st =>
    if st.memObjs[t.memObj]? = some .none then
      let (st, i) := allocTmpAnonObj t.size t.align st
      processDeferredTmpObjs list { st with memObjs := st.memObjs.set t.memObj (.anonObj i) }
    else processDeferredTmpObjs list st

/-! ### Statements -/

/-- The condition of a statement: a compile-time constant, or an expression. -/
inductive TmpCond where
  | const (val : Bool)
  | expr (ops : List TmpOp)
  deriving DecidableEq, Repr

/-- The expression of a `switch`: a constant with the case that it selects, or an expression. -/
inductive TmpSelector where
  | const (target : Option Nat)
  | expr (ops : List TmpOp)
  deriving DecidableEq, Repr

/-- The statements, each with what its own expressions do. The operations of a `return` without an
expression are none. The default case of a `switch` is one of its cases. -/
inductive TmpStmt where
  | blockStmt (stmts : List TmpStmt)
  | returnStmt (ops : List TmpOp)
  | declStmt (ops : List TmpOp)
  | exprStmt (ops : List TmpOp)
  | exprAssignStmt (ops : List TmpOp)
  | ifStmt (cond : TmpCond) (ifBody : TmpStmt) (elseBody : Option TmpStmt)
  | switchStmt (expr : TmpSelector) (cases : List (List TmpStmt))
  | whileStmt (cond : TmpCond) (body : TmpStmt)
  | doWhileStmt (cond : TmpCond) (body : TmpStmt)
  | forStmt (init : Option TmpStmt) (cond : Option TmpCond) (body : TmpStmt)
      (next : Option TmpStmt)
  | breakStmt
  | continueStmt
  | staticAssertStmt

/-- The code of a statement: where it evaluates expressions, with the temporaries that the
instructions there access, and where control may go. -/
inductive TmpCode where
  | skip
  | eval (list : TmpObjList)
  | ret (list : TmpObjList)
  | brk
  | cont
  | seq (c d : TmpCode)
  | choice (c d : TmpCode)
  | loop (cond : Option TmpObjList) (body next : TmpCode)
  | doWhile (body : TmpCode) (cond : TmpObjList)
  deriving Repr

abbrev TmpM := StateT TmpState Option

/-- The code of a statement, and whether control comes to its end: the block that
`IR_emit_stmt` returns is not `NULL`. -/
structure Emitted where
  code : TmpCode
  live : Bool

/-- What an expression does with the list of its statement. -/
def emitExpr (ops : List TmpOp) : TmpM TmpObjList := fun st =>
  (emitTmpOps ops st []).map fun (st, list) => (list, st)

/-- What `IR_emit_stmt` does behind the code of a statement. -/
def closeStmt (body : TmpM (Emitted × TmpObjList)) : TmpM Emitted := do
  let (e, list) ← body
  modify fun st => resetProcTmpObjIterator (processDeferredTmpObjs list st)
  pure e

/-- A statement that evaluates its expression. -/
def emitEval (ops : List TmpOp) : TmpM (Emitted × TmpObjList) := do
  let list ← emitExpr ops
  pure (⟨.eval list, true⟩, list)

/-- `IR_emit_stmt_if`, with the emission of the bodies. -/
def emitStmtIf (cond : TmpCond) (ifBody : TmpM Emitted) (elseBody : Option (TmpM Emitted)) :
    TmpM (Emitted × TmpObjList) := do
  match cond with
  | .const val =>
    match (if val then some ifBody else elseBody) with
    | some body => do
      let e ← body
      pure (e, [])
    | none => failure
  | .expr ops => do
    let list ← emitExpr ops
    let e₁ ← ifBody
    match elseBody with
    | some elseBody => do
      let e₂ ← elseBody
      pure (⟨.seq (.eval list) (.choice e₁.code e₂.code), e₁.live || e₂.live⟩, list)
    | none => pure (⟨.seq (.eval list) (.choice e₁.code .skip), true⟩, list)

/-- `IR_emit_stmt_switch`, with the emission of the cases. -/
def emitStmtSwitch (sel : TmpSelector) (cases : List (TmpM Emitted)) (all : TmpM TmpCode) :
    TmpM (Emitted × TmpObjList) := do
  match sel with
  | .const none => pure (⟨.skip, true⟩, [])
  | .const (some i) =>
    match cases[i]? with
    | some body => do
      let e ← body
      pure (e, [])
    | none => failure
  | .expr ops => do
    let list ← emitExpr ops
    let c ← all
    pure (⟨.seq (.eval list) c, true⟩, list)

/-- `IR_emit_inf_loop`. -/
def emitInfLoop (body next : TmpM Emitted) : TmpM (Emitted × TmpObjList) := do
  let e₁ ← body
  let e₂ ← next
  pure (⟨.loop none e₁.code e₂.code, true⟩, [])

/-- `IR_emit_cond_loop`. The condition is emitted behind the body and `next`. -/
def emitCondLoop (cond : Option TmpCond) (body next : TmpM Emitted) :
    TmpM (Emitted × TmpObjList) := do
  match cond with
  | none => emitInfLoop body next
  | some (.const val) => if val then emitInfLoop body next else pure (⟨.skip, true⟩, [])
  | some (.expr ops) => do
    let e₁ ← body
    let e₂ ← next
    let list ← emitExpr ops
    pure (⟨.loop (some list) e₁.code e₂.code, true⟩, list)

/-- `IR_emit_stmt_do_while`. No condition is emitted where the body does not come to its end. -/
def emitStmtDoWhile (cond : TmpCond) (body : TmpM Emitted) : TmpM (Emitted × TmpObjList) := do
  match cond with
  | .const val => if val then emitInfLoop body (pure ⟨.skip, true⟩) else pure (⟨.skip, true⟩, [])
  | .expr ops => do
    let e ← body
    if e.live then
      let list ← emitExpr ops
      pure (⟨.doWhile e.code list, true⟩, list)
    else pure (⟨.loop none e.code .skip, true⟩, [])

mutual

/-- `IR_emit_stmt`. -/
def emitStmt : TmpStmt → TmpM Emitted
  | .blockStmt stmts => closeStmt do
    let e ← emitStmtBlockBody stmts
    pure (e, [])
  | .returnStmt ops => closeStmt do
    let list ← emitExpr ops
    pure (⟨.ret list, false⟩, list)
  | .declStmt ops | .exprStmt ops | .exprAssignStmt ops => closeStmt (emitEval ops)
  | .ifStmt cond ifBody none => closeStmt (emitStmtIf cond (emitStmt ifBody) none)
  | .ifStmt cond ifBody (some elseBody) =>
    closeStmt (emitStmtIf cond (emitStmt ifBody) (some (emitStmt elseBody)))
  | .switchStmt sel cases => closeStmt (emitStmtSwitch sel (caseEmitters cases) (emitCases cases))
  | .whileStmt cond body =>
    closeStmt (emitCondLoop (some cond) (emitStmt body) (pure ⟨.skip, true⟩))
  | .doWhileStmt cond body => closeStmt (emitStmtDoWhile cond (emitStmt body))
  | .forStmt init cond body next => closeStmt do
    let e₁ ← emitOptStmt init
    let (e₂, list) ← emitCondLoop cond (emitStmt body) (emitOptStmt next)
    pure (⟨.seq e₁.code e₂.code, e₂.live⟩, list)
  | .breakStmt => closeStmt (pure (⟨.brk, false⟩, []))
  | .continueStmt => closeStmt (pure (⟨.cont, false⟩, []))
  | .staticAssertStmt => closeStmt (pure (⟨.skip, true⟩, []))

/-- A statement of a `for` that may be missing. -/
def emitOptStmt : Option TmpStmt → TmpM Emitted
  | none => pure ⟨.skip, true⟩
  | some s => emitStmt s

/-- `IR_emit_stmt_block_body`. -/
def emitStmtBlockBody : List TmpStmt → TmpM Emitted
  | [] => pure ⟨.skip, true⟩
  | [s] => emitStmt s
  | s :: stmts => do
    let e₁ ← emitStmt s
    let e₂ ← emitStmtBlockBody stmts
    pure ⟨.seq e₁.code e₂.code, e₂.live⟩

/-- The cases of a `switch`, one after the other. -/
def emitCases : List (List TmpStmt) → TmpM TmpCode
  | [] => pure .skip
  | stmts :: cases => do
    let e ← emitStmtBlockBody stmts
    let c ← emitCases cases
    pure (.choice e.code c)

def caseEmitters : List (List TmpStmt) → List (TmpM Emitted)
  | [] => []
  | stmts :: cases => emitStmtBlockBody stmts :: caseEmitters cases

end

/-- The emission of `IR_build_proc`. -/
def buildProc (stmts : List TmpStmt) : Option (Emitted × TmpState) :=
  emitStmtBlockBody stmts ⟨[], [], 0, 0⟩

end Nibble.IR
