import Nibble.IR.Instr

/-!
# The procedure builder

The part of `IR_ProcBuilder` and of the procedure symbol that emission reads
and writes: the instructions in emission order, the basic blocks, the memory
objects, the register counter and the arena of short-circuit jump nodes with
its freelist. `patched` is a history variable: it records every time a jump
receives its target.

A failed assertion, a dereference of a missing block and a fatal exit are all
`none` in `Build`.
-/

namespace Nibble.IR

abbrev NodeId := Nat

/-- `IR_DeferredJmpcc`: taking `jmp` means the expression's value is `result`. -/
structure DeferredJmpcc where
  result : Bool
  jmp : Option InstrId
  cmp : InstrId
  next : Option NodeId
  deriving DecidableEq, Repr

structure BBlock where
  instrs : List InstrId
  preds : List BBlockId
  closed : Bool
  isLoopHdr : Bool
  deriving DecidableEq, Repr

structure ProcBuilder where
  instrs : List Instr
  bblocks : List BBlock
  memObjs : List MemObj
  numRegs : Nat
  scJmps : List DeferredJmpcc
  scJmpFreelist : Option NodeId
  patched : List InstrId
  deriving DecidableEq, Repr

abbrev Build := StateT ProcBuilder Option

theorem statePure_run {σ α : Type} (a : α) (s : σ) :
    (StateT.pure a : StateT σ Option α) s = some (a, s) := rfl

/-- `assert`. -/
def check (b : Bool) : Build Unit := if b then pure () else failure

/-- `IR_next_reg`. -/
def nextReg : Build Reg := fun B => some (B.numRegs, { B with numRegs := B.numRegs + 1 })

/-- `IR_alloc_bblock`. -/
def allocBBlock : Build BBlockId := fun B =>
  some (B.bblocks.length, { B with bblocks := B.bblocks ++ [⟨[], [], false, false⟩] })

/-- `IR_bblock_add_instr` on a block that is still open. -/
def BBlock.addInstr (bb : BBlock) (id : InstrId) (i : Instr) : BBlock :=
  { bb with instrs := bb.instrs ++ [id], closed := i.closes }

/-- `IR_new_instr` and `IR_add_instr`: the instruction gets the next number and is appended to
the block, which must be open. -/
def addInstr (b : BBlockId) (i : Instr) : Build InstrId := fun B =>
  match B.bblocks[b]? with
  | some bb =>
    if bb.closed then none
    else some (B.instrs.length,
      { B with
        instrs := B.instrs ++ [i]
        bblocks := B.bblocks.set b (bb.addInstr B.instrs.length i) })
  | none => none

/-- `IR_connect_bblocks`. -/
def connectBBlocks (pred succ : BBlockId) : Build Unit := fun B =>
  match B.bblocks[succ]? with
  | some bb => some ((), { B with bblocks := B.bblocks.set succ { bb with preds := bb.preds ++ [pred] } })
  | none => none

/-- Record in the history that `j` got a target. -/
def notePatched (j : InstrId) : Build Unit := fun B =>
  some ((), { B with patched := B.patched ++ [j] })

/-- Overwrite instruction `j`. -/
def setInstr (j : InstrId) (i : Instr) : Build Unit := fun B =>
  some ((), { B with instrs := B.instrs.set j i })

/-- `IR_patch_jmp_target`. -/
def patchJmpTarget (j : InstrId) (target : BBlockId) : Build Unit := do
  match (← get).instrs[j]? with
  | some (.jmp src _) =>
    setInstr j (.jmp src (some target))
    notePatched j
    connectBBlocks src target
  | some (.condJmp src _ f a) =>
    setInstr j (.condJmp src (some target) f a)
    notePatched j
    connectBBlocks src target
  | _ => failure

/-- `IR_emit_instr_jmp`. -/
def emitInstrJmp (b : BBlockId) (target : Option BBlockId) : Build InstrId := do
  let j ← addInstr b (.jmp b target)
  match target with
  | some t =>
    notePatched j
    connectBBlocks b t
  | none => pure ()
  pure j

/-- `IR_emit_instr_cond_jmp`. -/
def emitInstrCondJmp (b : BBlockId) (trueBb : Option BBlockId) (falseBb : BBlockId) (a : Reg) :
    Build InstrId := do
  let j ← addInstr b (.condJmp b trueBb falseBb a)
  match trueBb with
  | some t =>
    notePatched j
    connectBBlocks b t
  | none => pure ()
  connectBBlocks b falseBb
  pure j

/-- `IR_sym_as_addr`. -/
def symAsAddr (s : SymId) : Build MemAddr := fun B =>
  some (⟨.obj B.memObjs.length, none, 0, 0⟩, { B with memObjs := B.memObjs ++ [.sym s] })

end Nibble.IR
