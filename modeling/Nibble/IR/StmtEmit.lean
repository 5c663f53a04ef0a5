import Nibble.Ast.Stmt
import Nibble.IR.CfgCond
import Nibble.IR.SwitchJump

/-!
# Statements

`IR_emit_stmt` and the functions for the kinds of statements, and the body of
`IR_build_proc`: the blocks and jumps of `if`, `switch` and the loops, the
lists of jumps that `break` and `continue` leave behind, and the blocks that
are missing (`NULL`) behind a statement that always leaves. What is emitted for
expressions and declarations is given, with what it does.

The temporary objects of a statement and the scopes are left out.
-/

namespace Nibble.IR.Lowering

open Nibble.Ast Nibble.Lib Nibble.Lib.Structured Nibble.Resolve

/-! ## The parts of statements -/

/-- A condition: an immediate (`is_constexpr && is_imm`), or an expression that is tested. -/
inductive CfgCond where
  | const (imm : Word)
  | expr (e : BExpr)

/-- A statement without control flow. Behind a statement that leaves it gets no block. -/
structure Effect where
  emit : Option BBlockId → Build (Option BBlockId)
  sem : Env → Store → Store
  ok : ∀ b B F, Arena B F → B.IsOpen b → ∃ b' B' F', emit (some b) B = some (some b', B') ∧
    Uses F B F' [] B' ∧ ValSpec (fun env st => (sem env st, ())) b B b' B' fun _ _ _ => True

/-- A local declaration. There is no code for a constant or an uninitialized variable. -/
inductive LocalDecl where
  | const
  | uninit
  | var (init : Effect)

/-- The expression of a `return`: a scalar in a register, or the address of an object. -/
structure RetExpr where
  emit : BBlockId → Build (BBlockId × Value)
  sem : Env → Store → Store × Word
  ok : ∀ b B F, Arena B F → B.IsOpen b → ∃ b' v B' F', emit b B = some ((b', v), B') ∧
    Uses F B F' [] B' ∧
    ValSpec sem b B b' B' fun env σ w => Settled B' σ (fun objs σ => v.read env objs σ) w

/-- The expression of a `switch` and its operand, as an instruction of 64 bits reads it. -/
structure SwitchExpr where
  emit : BBlockId → Build (BBlockId × OpRIA)
  sem : Env → Store → Store × Word
  ok : ∀ b B F, Arena B F → B.IsOpen b → ∃ b' v B' F', emit b B = some ((b', v), B') ∧
    Uses F B F' [] B' ∧ ValSpec sem b B b' B' fun env σ w => Settled B' σ (readWord v env) w

inductive SwitchValue where
  | const (imm : Scalar)
  | expr (e : SwitchExpr)

/-- What the resolver keeps of a `switch` besides the statements of its cases. -/
structure SwitchHead where
  isSigned : Bool
  value : SwitchValue
  caseInfos : Array CaseInfo
  defaultCase : Option Nat
  length_lt : caseInfos.size < 2 ^ 32
  ends : caseInfos.toList.Pairwise fun a b => a.stopKey isSigned < b.key isSigned
  proper : ∀ c ∈ caseInfos.toList, c.Proper isSigned

abbrev irParts : StmtParts where
  Cond := CfgCond
  Expr := Effect
  ExprAssign := Effect
  Decl := LocalDecl
  Ret := RetExpr
  SwitchHead := SwitchHead
  StaticAssert := Unit

/-- The case of a word: the one whose range has it, or the default case. -/
def SwitchHead.target (head : SwitchHead) (w : Word) : Option Nat :=
  match head.caseInfos.toList.find? fun c =>
      c.key head.isSigned ≤ Scalar.view w head.isSigned ∧
        Scalar.view w head.isSigned ≤ c.stopKey head.isSigned with
  | some c => some c.index
  | none => head.defaultCase

/-- What the statements do. A `return` without a value gives zero. -/
def irMeaning (env : Env) : Meaning irParts Store Word where
  simple s := match s with
    | .expr e | .exprAssign e | .decl (.var e) => e.sem env
    | .decl .const | .decl .uninit => id
  cond c := match c with
    | .const imm => fun st => (st, imm != 0)
    | .expr e => e.sem env
  ret e := match e with
    | none => fun st => (st, 0)
    | some e => e.sem env
  select head := match head.value with
    | .const imm => fun st => (st, head.target imm)
    | .expr e => fun st => ((e.sem env st).1, head.target (e.sem env st).2)

/-! ## Blocks and jumps -/

/-- The lists `break_ujmps` and `cont_ujmps`, which are missing outside of loops. -/
structure UJmps where
  brk : Option (List InstrId)
  cont : Option (List InstrId)
  deriving DecidableEq, Repr

namespace UJmps

/-- The lists of a statement outside of loops, of the first statement of a `for` and of its
`next`. -/
def missing : UJmps := ⟨none, none⟩

/-- The lists of a loop. -/
def empty : UJmps := ⟨some [], some []⟩

end UJmps

/-- A block that an instruction is added to must not be missing. -/
def theBlock : Option BBlockId → Build BBlockId
  | some b => pure b
  | none => failure

/-- `IR_add_ujmp` -/
def addUJmp (list : Option (List InstrId)) (j : InstrId) : Build (Option (List InstrId)) :=
  match list with
  | some js => pure (some (js ++ [j]))
  | none => failure

/-- `IR_patch_ujmp_list`. The freelist of its nodes is left out. -/
def patchUJmpList : List InstrId → BBlockId → Build Unit
  | [], _ => pure ()
  | j :: js, target => do
    patchJmpTarget j target
    patchUJmpList js target

/-- The flag `BBLOCK_IS_LOOP_HDR`. -/
def markLoopHdr (b : BBlockId) : Build Unit :=
  modify fun B => { B with bblocks := B.bblocks.modify b fun bb => { bb with isLoopHdr := true } }

/-- A jump at the end of a block, unless it is missing. -/
def emitJmpFrom (b : Option BBlockId) (target : BBlockId) : Build Unit :=
  match b with
  | some b => do
    let _ ← emitInstrJmp b (some target)
    pure ()
  | none => pure ()

/-- `n` blocks in a row. -/
def allocBBlocks : Nat → Build (List BBlockId)
  | 0 => pure []
  | n + 1 => do
    let b ← allocBBlock
    let bs ← allocBBlocks n
    pure (b :: bs)

/-! ## Kinds of statements -/

/-- From a block and the lists of jumps to the block where control goes on and the lists. -/
abbrev StmtEmitter := Option BBlockId → UJmps → Build (Option BBlockId × UJmps)

/-- `IR_emit_stmt_expr`, `IR_emit_stmt_expr_assign` and `IR_emit_stmt_decl` -/
def emitSimple (s : SimpleStmt irParts) : StmtEmitter := fun b u =>
  match s with
  | .expr e | .exprAssign e | .decl (.var e) => do
    let b ← e.emit b
    pure (b, u)
  | .decl .const | .decl .uninit => pure (b, u)

/-- The value of a `return`, which has the type `void` when there is no expression. -/
def emitRetValue (e : Option RetExpr) (b : BBlockId) : Build (BBlockId × Value) :=
  match e with
  | some e => e.emit b
  | none => pure (b, ⟨.void, .none⟩)

/-- `IR_emit_stmt_return` -/
def emitStmtReturn (e : Option RetExpr) : StmtEmitter := fun b u => do
  let b ← theBlock b
  let (b, v) ← emitRetValue e b
  let _ ← addInstr b (.ret v)
  pure (none, u)

/-- The case `CST_StmtBreak` of `IR_emit_stmt`. -/
def emitBreak : StmtEmitter := fun b u => do
  let b ← theBlock b
  let j ← emitInstrJmp b none
  let brk ← addUJmp u.brk j
  pure (none, { u with brk := brk })

/-- The case `CST_StmtContinue`. -/
def emitContinue : StmtEmitter := fun b u => do
  let b ← theBlock b
  let j ← emitInstrJmp b none
  let cont ← addUJmp u.cont j
  pure (none, { u with cont := cont })

/-- `IR_process_cfg_cond` on a condition that is not an immediate. -/
def emitCond (e : BExpr) (b : Option BBlockId) (jmpResult : Bool) (jmpBb : BBlockId) :
    Build BBlockId := do
  let b ← theBlock b
  processCfgCond e.size (emitBExpr e.size e) b jmpResult jmpBb

/-- `IR_emit_stmt_if`. Of a constant only one branch is emitted, which may be missing. -/
def emitStmtIf (c : CfgCond) (ifBody : StmtEmitter) (elseBody : Option StmtEmitter) :
    StmtEmitter := fun b u =>
  match c with
  | .const imm =>
    match (if imm != 0 then some ifBody else elseBody) with
    | some body => body b u
    | none => failure
  | .expr e => do
    let lastBb ← allocBBlock
    match elseBody with
    | none =>
      let trueBb ← emitCond e b false lastBb
      let (trueEnd, u) ← ifBody (some trueBb) u
      emitJmpFrom trueEnd lastBb
      pure (some lastBb, u)
    | some elseBody =>
      let falseBb ← allocBBlock
      let trueBb ← emitCond e b false falseBb
      let (trueEnd, u) ← ifBody (some trueBb) u
      emitJmpFrom trueEnd lastBb
      let (falseEnd, u) ← elseBody (some falseBb) u
      emitJmpFrom falseEnd lastBb
      pure (if trueEnd.isNone && falseEnd.isNone then none else some lastBb, u)

/-- The bodies of the targets of a `switch`, each in its block. -/
def emitTargets (lastBb : BBlockId) : List (BBlockId × Option StmtEmitter) → UJmps → Build UJmps
  | [], u => pure u
  | (_, none) :: _, _ => failure
  | (target, some body) :: rest, u => do
    let (caseEnd, u) ← body (some target) u
    emitJmpFrom caseEnd lastBb
    emitTargets lastBb rest u

/-- The bodies in the order of the targets: the cases in order, then the default case. -/
def targetBodies (head : SwitchHead) (cases : List StmtEmitter) : List (Option StmtEmitter) :=
  head.caseInfos.toList.map (cases[·.index]?) ++ (head.defaultCase.map (cases[·]?)).toList

/-- The block behind a `switch`: without a default case it is the last target. -/
def switchEnd (head : SwitchHead) (targets : List BBlockId) : Build BBlockId :=
  match head.defaultCase with
  | some _ => allocBBlock
  | none => theBlock targets.getLast?

/-- `IR_emit_stmt_switch` -/
def emitStmtSwitch (head : SwitchHead) (cases : List StmtEmitter) : StmtEmitter := fun b u =>
  match head.value with
  | .const imm =>
    let hi := BitVec.ofNat 32 head.caseInfos.size - 1
    match searchCases head.isSigned head.caseInfos imm 0 hi.toNat with
    | .error _ => failure
    | .ok found =>
      match (if found.isNone then head.defaultCase else found) with
      | none => pure (b, u)
      | some i =>
        match cases[i]? with
        | some body => body b u
        | none => failure
  | .expr e => do
    let targets ← allocBBlocks (head.caseInfos.size + 1)
    let lastBb ← switchEnd head targets
    let b ← theBlock b
    let (b, val) ← e.emit b
    emitSwitchDispatch head.isSigned head.caseInfos b val targets
    let u ← emitTargets lastBb (targets.zip (targetBodies head cases)) u
    pure (some lastBb, u)

/-- The `next` of a loop in its own block, behind the body. -/
def emitNext (next : Option (BBlockId × StmtEmitter)) (bodyEnd : Option BBlockId) :
    Build (Option BBlockId) :=
  match next with
  | none => pure bodyEnd
  | some (nxtBb, next) => do
    emitJmpFrom bodyEnd nxtBb
    let (nextEnd, _) ← next (some nxtBb) .missing
    check nextEnd.isSome
    pure nextEnd

/-- The jump back, unless control does not get there. -/
def closeLoop (bodyEnd : Option BBlockId) (hdrBb : BBlockId) : Build Unit :=
  match bodyEnd with
  | some b => do
    let _ ← emitInstrJmp b (some hdrBb)
    markLoopHdr hdrBb
  | none => pure ()

/-- The body of a loop, its `next` and the jump back to `hdrBb`. The lists of the body are new
ones. -/
def emitLoopBody (body : StmtEmitter) (next : Option (BBlockId × StmtEmitter))
    (bodyBb hdrBb : BBlockId) : Build UJmps := do
  let (bodyEnd, u) ← body (some bodyBb) .empty
  let bodyEnd ← emitNext next bodyEnd
  closeLoop bodyEnd hdrBb
  pure u

/-- The block of `next`, if there is one. -/
def allocNext : Option StmtEmitter → Build (Option (BBlockId × StmtEmitter))
  | none => pure none
  | some next => do
    let nxtBb ← allocBBlock
    pure (some (nxtBb, next))

/-- The jumps of the body go behind the loop and to where it goes on. -/
def patchLoop (u : UJmps) (lastBb contBb : BBlockId) : Build Unit := do
  patchUJmpList (u.brk.getD []) lastBb
  patchUJmpList (u.cont.getD []) contBb

/-- `IR_emit_inf_loop` -/
def emitInfLoop (body : StmtEmitter) (next : Option StmtEmitter) (b : Option BBlockId) :
    Build (Option BBlockId) := do
  let hdrBb ← allocBBlock
  let lastBb ← allocBBlock
  let next ← allocNext next
  let b ← theBlock b
  let _ ← emitInstrJmp b (some hdrBb)
  let u ← emitLoopBody body next hdrBb hdrBb
  patchLoop u lastBb ((next.map Prod.fst).getD hdrBb)
  pure (some lastBb)

/-- `IR_emit_cond_loop` -/
def emitCondLoop (cond : Option CfgCond) (body : StmtEmitter) (next : Option StmtEmitter)
    (b : Option BBlockId) : Build (Option BBlockId) :=
  match cond with
  | none => emitInfLoop body next b
  | some (.const imm) => if imm != 0 then emitInfLoop body next b else pure b
  | some (.expr e) => do
    let bodyBb ← allocBBlock
    let condBb ← allocBBlock
    let next ← allocNext next
    let b ← theBlock b
    let _ ← emitInstrJmp b (some condBb)
    let u ← emitLoopBody body next bodyBb condBb
    let lastBb ← emitCond e (some condBb) true bodyBb
    patchLoop u lastBb ((next.map Prod.fst).getD condBb)
    pure (some lastBb)

/-- The condition of a `do` loop, and the block behind the loop. -/
def emitDoCond (e : BExpr) (bodyEnd : Option BBlockId) (bodyBb : BBlockId) : Build BBlockId :=
  match bodyEnd with
  | some b => do
    markLoopHdr bodyBb
    emitCond e (some b) true bodyBb
  | none => allocBBlock

/-- `IR_emit_stmt_do_while`. With the constant zero nothing is emitted, not even the body. -/
def emitStmtDoWhile (cond : CfgCond) (body : StmtEmitter) (b : Option BBlockId) :
    Build (Option BBlockId) :=
  match cond with
  | .const imm => if imm != 0 then emitInfLoop body none b else pure b
  | .expr e => do
    let bodyBb ← allocBBlock
    let b ← theBlock b
    let _ ← emitInstrJmp b (some bodyBb)
    let (bodyEnd, u) ← body (some bodyBb) .empty
    patchUJmpList (u.cont.getD []) bodyBb
    let lastBb ← emitDoCond e bodyEnd bodyBb
    patchUJmpList (u.brk.getD []) lastBb
    pure (some lastBb)

/-- A loop leaves the lists of the statements around it alone. -/
def keepUJmps (emit : Option BBlockId → Build (Option BBlockId)) : StmtEmitter := fun b u => do
  let b ← emit b
  pure (b, u)

/-- The first statement of a `for`. -/
def emitInit (init : Option (SimpleStmt irParts)) (b : Option BBlockId) :
    Build (Option BBlockId) :=
  match init with
  | some init => do
    let (b, _) ← emitSimple init b .missing
    pure b
  | none => pure b

/-- `IR_emit_stmt_for` -/
def emitStmtFor (init : Option (SimpleStmt irParts)) (cond : Option CfgCond) (body : StmtEmitter)
    (next : Option (SimpleStmt irParts)) (b : Option BBlockId) : Build (Option BBlockId) := do
  let b ← emitInit init b
  emitCondLoop cond body (next.map emitSimple) b

mutual

/-- `IR_emit_stmt`. An empty statement is not supported. -/
def emitStmt : Stmt irParts → StmtEmitter
  | .noOp => fun _ _ => failure
  | .staticAssert _ => fun b u => pure (b, u)
  | .simple s => emitSimple s
  | .ret e => emitStmtReturn e
  | .brk => emitBreak
  | .cont => emitContinue
  | .block stmts => emitStmtBlockBody stmts
  | .ifStmt cond ifBody none => emitStmtIf cond (emitStmt ifBody) none
  | .ifStmt cond ifBody (some elseBody) =>
    emitStmtIf cond (emitStmt ifBody) (some (emitStmt elseBody))
  | .switchStmt head cases => emitStmtSwitch head (emitCases cases)
  | .whileStmt cond body => keepUJmps (emitCondLoop (some cond) (emitStmt body) none)
  | .doWhileStmt cond body => keepUJmps (emitStmtDoWhile cond (emitStmt body))
  | .forStmt init cond body next => keepUJmps (emitStmtFor init cond (emitStmt body) next)

/-- `IR_emit_stmt_block_body` -/
def emitStmtBlockBody : List (Stmt irParts) → StmtEmitter
  | [] => fun b u => pure (b, u)
  | s :: stmts => fun b u => do
    let (b, u) ← emitStmt s b u
    emitStmtBlockBody stmts b u

def emitCases : List (List (Stmt irParts)) → List StmtEmitter
  | [] => []
  | stmts :: cases => emitStmtBlockBody stmts :: emitCases cases

end

/-- `IR_build_proc` up to the removal of blocks, for a procedure with a body. `returns` is the
resolver's. -/
def buildProcBody (returns isVoid : Bool) (stmts : List (Stmt irParts)) : Build Unit := do
  let startBb ← allocBBlock
  let (lastBb, _) ← emitStmtBlockBody stmts (some startBb) .missing
  if !returns then do
    check isVoid
    let lastBb ← theBlock lastBb
    let _ ← addInstr lastBb (.ret ⟨.void, .none⟩)
    pure ()

/-- A builder without blocks. -/
def emptyProc : ProcBuilder := ⟨[], [], [], 0, [], none, []⟩

end Nibble.IR.Lowering
