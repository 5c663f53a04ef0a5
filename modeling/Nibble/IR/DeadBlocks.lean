import Nibble.Lib.Flow
import Nibble.IR.Builder

/-!
# Removing dead blocks

`IR_rm_dead_bblocks` goes through the array of blocks of a procedure from its
end. It removes empty blocks and blocks that only jump; predecessors of the
latter jump to its target instead. Then `IR_build_proc` sorts the array by the
first instructions and renumbers blocks and instructions.

A block is a pointer: it keeps its instructions and predecessors when it is no
longer in the array. `graph` has only the blocks in the array: a jump to a
removed block leads nowhere.
-/

namespace Nibble.IR

open Nibble.Lib.Flow

/-- `array_remove_swap`. -/
def removeSwap {α : Type} (l : List α) (i : Nat) : List α :=
  match l.getLast? with
  | some x => (l.set i x).dropLast
  | none => l

/-- `bb->last`. -/
def ProcBuilder.lastInstr (B : ProcBuilder) (b : BBlockId) : Option (InstrId × Instr) := do
  let bb ← B.bblocks[b]?
  let j ← bb.instrs.getLast?
  let i ← B.instrs[j]?
  some (j, i)

/-- The loop over the predecessors that looks for a fall-through into `bb`. -/
def canRemove (B : ProcBuilder) (bb : BBlockId) : List BBlockId → Option Bool
  | [] => some true
  | p :: preds =>
    match B.lastInstr p with
    | none => none
    | some (_, .condJmp _ _ falseBb _) => if falseBb = bb then some false else canRemove B bb preds
    | some _ => canRemove B bb preds

/-- A predecessor of `bb` jumps to `target` instead. -/
def retargetPred (bb target p : BBlockId) : Build Unit := do
  match (← get).lastInstr p with
  | some (j, .jmp src t) =>
    check (t = some bb)
    setInstr j (.jmp src (some target))
  | some (j, .condJmp src t f a) =>
    check (t = some bb)
    setInstr j (.condJmp src (some target) f a)
  | _ => failure
  connectBBlocks p target

/-- All predecessors, as they were before the loop. -/
def retargetPreds (bb target : BBlockId) : List BBlockId → Build Unit
  | [] => pure ()
  | p :: preds => do
    retargetPred bb target p
    retargetPreds bb target preds

/-- Remove `bb` from `target->preds`; if it is not found, the first one. -/
def removePred (target bb : BBlockId) : Build Unit := fun B =>
  match B.bblocks[target]? with
  | some blk =>
    let i := (blk.preds.findIdx? (· = bb)).getD 0
    some ((), { B with bblocks := B.bblocks.set target { blk with preds := removeSwap blk.preds i } })
  | none => none

/-- The body of the loop of `IR_rm_dead_bblocks`. -/
def rmDeadBBlock (i : Nat) (arr : List BBlockId) : Build (List BBlockId) := do
  let B ← get
  match arr[i]? with
  | none => failure
  | some bb =>
    match B.bblocks[bb]? with
    | none => failure
    | some blk =>
      match blk.instrs with
      | [] => pure (removeSwap arr i)
      | [j] =>
        match B.instrs[j]? with
        | some (.jmp _ target) =>
          if blk.preds = [] then pure arr
          else
            match canRemove B bb blk.preds with
            | none => failure
            | some false => pure arr
            | some true =>
              match target with
              | none => failure
              | some t => do
                retargetPreds bb t blk.preds
                removePred t bb
                pure (removeSwap arr i)
        | some _ => pure arr
        | none => failure
      | _ => pure arr

/-- `IR_rm_dead_bblocks`, for the positions below `i`. -/
def rmDeadBBlocks : Nat → List BBlockId → Build (List BBlockId)
  | 0, arr => pure arr
  | i + 1, arr => do
    let arr ← rmDeadBBlock i arr
    rmDeadBBlocks i arr

/-! ## Sorting and renumbering -/

/-- `bb->first->ino`, halved. -/
def ProcBuilder.firstIno (B : ProcBuilder) (b : BBlockId) : Option InstrId := do
  let bb ← B.bblocks[b]?
  bb.instrs.head?

/-- The inner loop of the sort: `curr` moves up while it is greater. -/
def sortPass (key : BBlockId → Option InstrId) (curr : BBlockId) :
    List BBlockId → Option (List BBlockId)
  | [] => some [curr]
  | next :: rest =>
    match key curr, key next with
    | some a, some b =>
      if b < a then (sortPass key curr rest).map (next :: ·)
      else (sortPass key next rest).map (curr :: ·)
    | _, _ => none

/-- The sort: as many passes as there are blocks. -/
def sortBBlocks (key : BBlockId → Option InstrId) : Nat → List BBlockId → Option (List BBlockId)
  | 0, arr => some arr
  | _, [] => some []
  | n + 1, b :: arr => (sortPass key b arr).bind (sortBBlocks key n)

/-- `bb->id` after renumbering. A block that is not in the array keeps its old id. -/
def bblockId (arr : List BBlockId) (b : BBlockId) : Nat := if b ∈ arr then arr.idxOf b else b

/-- `instr->ino` after renumbering. -/
def instrIno (B : ProcBuilder) (arr : List BBlockId) (j : InstrId) : Nat :=
  2 * (arr.flatMap fun b => ((B.bblocks[b]?).map (·.instrs)).getD []).idxOf j

/-- The end of `IR_build_proc`. -/
def finishProc : Build (List BBlockId) := do
  let n := (← get).bblocks.length
  let arr ← rmDeadBBlocks n (List.range n)
  let B ← get
  match sortBBlocks B.firstIno arr.length arr with
  | some arr => pure arr
  | none => failure

/-! ## Paths -/

/-- Where control goes after the last instruction of a block. -/
def Instr.exit : Instr → Exit BBlockId
  | jmp _ t => .jump t
  | condJmp _ t f _ => .branch [t, some f]
  | switchCaseJmp _ _ ts _ => .branch (ts.map some)
  | ret _ => .ret
  | _ => .fall

def Instr.isJump : Instr → Bool
  | jmp .. | condJmp .. | switchCaseJmp .. => true
  | _ => false

/-- What a block does. A jump is no part of the body. -/
def ProcBuilder.node (B : ProcBuilder) (bb : BBlock) : Node BBlockId InstrId :=
  match bb.instrs.getLast?.bind fun j => B.instrs[j]? with
  | some i => ⟨if i.isJump then bb.instrs.dropLast else bb.instrs, i.exit⟩
  | none => ⟨bb.instrs, .fall⟩

/-- The blocks in the array. -/
def ProcBuilder.graph (B : ProcBuilder) (arr : List BBlockId) : FlowGraph BBlockId InstrId := fun b =>
  if b ∈ arr then (B.bblocks[b]?).map B.node else none

end Nibble.IR
