import Nibble.IR.ExprResult

/-!
# Short-circuit conditions

`IR_emit_short_circuit_cmp` and its helpers, `IR_emit_expr_unary` at `!`,
`IR_process_cfg_cond` and `IR_execute_deferred_cmp`. The pending jumps of a
deferred comparison are a singly linked list in the node arena of the builder.

A loop over such a list takes `fuel`: running out of it stands for a loop that
does not end. The emission of the operands is a parameter.
-/

namespace Nibble.IR

/-- Link node `id` behind `last` and fill it in. -/
def linkNewNode (nodes : List DeferredJmpcc) (last : Option NodeId) (id : NodeId) (cmp : InstrId)
    (result : Bool) (jmp : InstrId) : List DeferredJmpcc :=
  let nodes := nodes.modify id fun n => { n with next := none }
  let nodes :=
    match last with
    | some l => nodes.modify l fun n => { n with next := some id }
    | none => nodes
  nodes.modify id fun n => { n with cmp := cmp, result := result, jmp := some jmp }

/-- Pop a node off the freelist, or create one: its id, the arena and the rest of the freelist. -/
def popScNode (B : ProcBuilder) : Option (NodeId × List DeferredJmpcc × Option NodeId) :=
  match B.scJmpFreelist with
  | some id => B.scJmps[id]?.map fun node => (id, B.scJmps, node.next)
  | none => some (B.scJmps.length, B.scJmps ++ [⟨false, none, 0, none⟩], none)

/-- `IR_new_deferred_sc_jmp`: the new node is linked at the end of the list of `c`. -/
def newDeferredScJmp (c : DeferredCmp) (cmp : InstrId) (result : Bool) (jmp : InstrId) :
    Build DeferredCmp := fun B => do
  let (id, nodes, freelist) ← popScNode B
  let first :=
    match c.lastScJmp with
    | some _ => c.firstScJmp
    | none => some id
  some ({ c with firstScJmp := first, lastScJmp := some id },
    { B with
      scJmps := linkNewNode nodes c.lastScJmp id cmp result jmp
      scJmpFreelist := freelist })

/-- `IR_del_deferred_sc_jmp`. -/
def delDeferredScJmp (c : DeferredCmp) (prev : Option NodeId) (id : NodeId) : Build DeferredCmp :=
  fun B => do
    let node ← B.scJmps[id]?
    let (nodes, c) :=
      match prev with
      | some p => (B.scJmps.modify p fun n => { n with next := node.next }, c)
      | none => (B.scJmps, { c with firstScJmp := node.next })
    let c := if c.lastScJmp = some id then { c with lastScJmp := prev } else c
    let nodes := nodes.modify id fun n => { n with next := B.scJmpFreelist }
    some (c, { B with scJmps := nodes, scJmpFreelist := some id })

/-- `IR_mov_deferred_sc_jmp_list`. -/
def movDeferredScJmpList (dst src : DeferredCmp) : Build DeferredCmp := do
  match dst.firstScJmp with
  | none =>
    check dst.lastScJmp.isNone
    pure { dst with firstScJmp := src.firstScJmp, lastScJmp := src.lastScJmp }
  | some _ =>
    match src.firstScJmp with
    | some f =>
      check src.lastScJmp.isSome
      match dst.lastScJmp with
      | some l =>
        modify fun B => { B with scJmps := B.scJmps.modify l fun n => { n with next := some f } }
        pure { dst with lastScJmp := src.lastScJmp }
      | none => failure
    | none => pure dst

/-- `IR_fix_sc_jmp_path`. -/
def fixScJmpPath (d : DeferredJmpcc) (desired : Bool) : Build DeferredJmpcc :=
  if d.result ≠ desired then do
    match (← get).instrs[d.cmp]? with
    | some i =>
      setInstr d.cmp i.flipCond
      pure { d with result := desired }
    | none => failure
  else pure d

/-- The result register of a comparison instruction. -/
def cmpReg (cmp : InstrId) : Build Reg := do
  match (← get).instrs[cmp]? with
  | some i =>
    match i.cmpReg? with
    | some r => pure r
    | none => failure
  | none => failure

/-- `IR_copy_sc_jmp`: the copy with the desired polarity, its jump created if it had none, and the
block that follows the jump. -/
def copyScJmp (b : BBlockId) (src : DeferredJmpcc) (desired : Bool) :
    Build (DeferredJmpcc × BBlockId) := do
  let dst ← fixScJmpPath src desired
  match dst.jmp with
  | some _ => pure (dst, b)
  | none =>
    let last ← allocBBlock
    let r ← cmpReg dst.cmp
    let j ← emitInstrCondJmp b none last r
    pure ({ dst with jmp := some j }, last)

/-- `IR_cmp_to_zero`. The float zero is the literal `zeroFlt`. -/
def cmpToZero (b : BBlockId) (er : ExprResult) (cond : ConditionKind) (zeroFlt : Nat) :
    Build InstrId := do
  if er.type.isIntScalar then
    let a ← valueToOpRIA b er
    let r ← nextReg
    addInstr b (.intCmp er.type cond r a (.imm 0))
  else
    match er.type.floatKind? with
    | some k =>
      let a ← valueToReg b er
      let r ← nextReg
      addInstr b (.fltCmp k cond r a (.addr (floatLitAsAddr zeroFlt)))
    | none => failure

/-- `IR_emit_binary_cmp`. -/
def emitBinaryCmp (b : BBlockId) (cond : ConditionKind) (left right : ExprResult) :
    Build InstrId := do
  check (left.type = right.type)
  if left.type.isIntScalar then
    let x ← valueToOpRIA b left
    let y ← valueToOpRIA b right
    let r ← nextReg
    addInstr b (.intCmp left.type cond r x y)
  else
    match left.type.floatKind? with
    | some k =>
      let x ← valueToReg b left
      let y ← valueToOpRA b right
      let r ← nextReg
      addInstr b (.fltCmp k cond r x y)
    | none => failure

/-- The type of a condition. -/
abbrev boolTy : Ty := .integer .bool

/-- A deferred comparison that has no jumps yet. -/
def DeferredCmp.ofCmp (cmp : InstrId) : DeferredCmp := ⟨none, none, ⟨true, none, cmp, none⟩⟩

/-- The loop `for (it = first; it; it = it->next)`: the nodes in list order. -/
def scJmpList (nodes : List DeferredJmpcc) : Nat → Option NodeId → Option (List (NodeId × DeferredJmpcc))
  | _, none => some []
  | 0, some _ => none
  | fuel + 1, some id => do
    let node ← nodes[id]?
    let rest ← scJmpList nodes fuel node.next
    some ((id, node) :: rest)

/-- Patch the jumps of a node list, each to the target for its result. -/
def patchScJmps (tgt : Bool → Option BBlockId) : List (NodeId × DeferredJmpcc) → Build Unit
  | [] => pure ()
  | (_, n) :: rest => do
    match tgt n.result, n.jmp with
    | some t, some j => patchJmpTarget j t
    | some _, none => failure
    | none, _ => pure ()
    patchScJmps tgt rest

/-- The loop of `IR_emit_short_circuit_cmp` that patches and removes the jumps of the opposite
short-circuit value. `prev` is set from `it` after `it` has already advanced, as in the source. -/
def patchOppositeScJmps (target : BBlockId) (scVal : Bool) :
    Nat → DeferredCmp → Option NodeId → Option NodeId → Build DeferredCmp
  | _, c, _, none => pure c
  | 0, _, _, some _ => failure
  | fuel + 1, c, prev, some it => do
    match (← get).scJmps[it]? with
    | some node =>
      if node.result ≠ scVal then
        match node.jmp with
        | some j =>
          patchJmpTarget j target
          let c ← delDeferredScJmp c prev it
          patchOppositeScJmps target scVal fuel c node.next node.next
        | none => failure
      else patchOppositeScJmps target scVal fuel c node.next node.next
    | none => failure

/-- Flip the polarity of the listed nodes: `it->result = !it->result`. -/
def negScJmps : List (NodeId × DeferredJmpcc) → Build Unit
  | [] => pure ()
  | (id, _) :: rest => do
    modify fun B => { B with scJmps := B.scJmps.modify id fun n => { n with result := !n.result } }
    negScJmps rest

/-- The pending jumps of `c`, in list order. -/
def deferredScJmps (fuel : Nat) (c : DeferredCmp) : Build (List (NodeId × DeferredJmpcc)) := do
  match scJmpList (← get).scJmps fuel c.firstScJmp with
  | some l => pure l
  | none => failure

/-- What `IR_emit_short_circuit_cmp` does with a left or right operand that is not a deferred
comparison: compare it to zero and create a jump that is taken when its value is `desired`. -/
def jmpOnValue (b : BBlockId) (er : ExprResult) (desired : Bool) :
    Build (DeferredJmpcc × BBlockId) := do
  let a ← valueToReg b er
  let cmp ← cmpToZero b ⟨er.type, .reg a⟩ (if desired then .neq else .eq) 0
  let r ← cmpReg cmp
  let next ← allocBBlock
  let j ← emitInstrCondJmp b none next r
  pure (⟨desired, some j, cmp, none⟩, next)

/-- Merge a left operand that is a deferred comparison: its final jump becomes a short-circuit
jump, and its jumps of the opposite value go to the right operand. -/
def mergeLeft (fuel : Nat) (scVal : Bool) (leftEnd : BBlockId) (left : DeferredCmp) :
    Build (DeferredCmp × BBlockId) := do
  let (j, rightBb) ← copyScJmp leftEnd left.finalJmp scVal
  match j.jmp with
  | some jmp =>
    let c ← newDeferredScJmp left j.cmp j.result jmp
    let c ← patchOppositeScJmps rightBb scVal fuel c none c.firstScJmp
    pure (c, rightBb)
  | none => failure

/-- The left operand: its short-circuit jumps, and the block for the right operand. -/
def leftOperand (fuel : Nat) (scVal : Bool) (leftEnd : BBlockId) (left : ExprResult) :
    Build (DeferredCmp × BBlockId) :=
  match left.kind with
  | .deferredCmp lc => mergeLeft fuel scVal leftEnd lc
  | _ => do
    let (j, rightBb) ← jmpOnValue leftEnd left scVal
    match j.jmp with
    | some jmp =>
      let c ← newDeferredScJmp ⟨none, none, j⟩ j.cmp scVal jmp
      pure (c, rightBb)
    | none => failure

/-- The right operand: its short-circuit jumps are kept, and its final jump goes to the "false"
control path. -/
def rightOperand (c : DeferredCmp) (rightEnd : BBlockId) (right : ExprResult) :
    Build (BBlockId × ExprResult) :=
  match right.kind with
  | .deferredCmp rc => do
    let c ← movDeferredScJmpList c rc
    let (j, last) ← copyScJmp rightEnd rc.finalJmp false
    pure (last, ⟨boolTy, .deferredCmp { c with finalJmp := j }⟩)
  | _ => do
    let (j, last) ← jmpOnValue rightEnd right false
    pure (last, ⟨boolTy, .deferredCmp { c with finalJmp := j }⟩)

/-- `IR_emit_short_circuit_cmp`, for `&&` with `scVal = false` and for `||` with `scVal = true`. -/
def emitShortCircuitCmp (fuel : Nat) (scVal : Bool)
    (emitLeft emitRight : BBlockId → Build (BBlockId × ExprResult)) (b : BBlockId) :
    Build (BBlockId × ExprResult) := do
  let (leftEnd, left) ← emitLeft b
  check left.type.isBool
  let (c, rightBb) ← leftOperand fuel scVal leftEnd left
  let (rightEnd, right) ← emitRight rightBb
  check right.type.isBool
  rightOperand c rightEnd right

/-- `IR_emit_expr_unary` at `!`, on the emitted operand. -/
def emitLogicNot (fuel : Nat) (b : BBlockId) (er : ExprResult) : Build (BBlockId × ExprResult) :=
  match er.kind with
  | .deferredCmp c => do
    negScJmps (← deferredScJmps fuel c)
    let finalJmp := { c.finalJmp with result := !c.finalJmp.result }
    pure (b, ⟨boolTy, .deferredCmp { c with finalJmp := finalJmp }⟩)
  | _ => do
    let cmp ← cmpToZero b er .eq 0
    pure (b, ⟨boolTy, .deferredCmp (.ofCmp cmp)⟩)

/-- `IR_process_cfg_cond`: jump to `jmpBb` when the condition is `jmpResult`, else fall through to
the returned block. -/
def processCfgCond (fuel : Nat) (emit : BBlockId → Build (BBlockId × ExprResult)) (hdrBb : BBlockId)
    (jmpResult : Bool) (jmpBb : BBlockId) : Build BBlockId := do
  let (b, er) ← emit hdrBb
  match er.kind with
  | .deferredCmp c =>
    let d ← fixScJmpPath c.finalJmp jmpResult
    let b ←
      match d.jmp with
      | some j => do
        patchJmpTarget j jmpBb
        pure b
      | none => do
        let last ← allocBBlock
        let r ← cmpReg d.cmp
        let _ ← emitInstrCondJmp b (some jmpBb) last r
        pure last
    patchScJmps (fun r => some (if r = jmpResult then jmpBb else b)) (← deferredScJmps fuel c)
    pure b
  | _ =>
    let cmp ← cmpToZero b er (if jmpResult then .neq else .eq) 0
    let r ← cmpReg cmp
    let last ← allocBBlock
    let _ ← emitInstrCondJmp b (some jmpBb) last r
    pure last

/-- `IR_execute_deferred_cmp`: the block where control goes on and the register of the value. -/
def executeDeferredCmp (fuel : Nat) (b : BBlockId) (t : Ty) (c : DeferredCmp) :
    Build (BBlockId × Reg) := do
  check t.isBool
  if c.firstScJmp.isNone && c.finalJmp.jmp.isNone then
    let r ← cmpReg c.finalJmp.cmp
    pure (b, r)
  else
    let d ← fixScJmpPath c.finalJmp false
    let f ← allocBBlock
    let e ← allocBBlock
    let scJmps ← deferredScJmps fuel c
    patchScJmps (fun r => if r then some b else none) scJmps
    let oneReg ← emitDef b (.lImm t · 1)
    let _ ← emitInstrJmp b (some e)
    match d.jmp with
    | some j => patchJmpTarget j f
    | none => failure
    patchScJmps (fun r => if r then none else some f) scJmps
    let zeroReg ← emitDef f (.lImm t · 0)
    let _ ← emitInstrJmp f (some e)
    let dst ← emitDef e (.phi t · [⟨b, oneReg⟩, ⟨f, zeroReg⟩])
    pure (e, dst)

/-- `IR_expr_result_to_reg`. -/
def exprResultToReg (fuel : Nat) (b : BBlockId) (er : ExprResult) : Build (BBlockId × Reg) :=
  match er.kind with
  | .deferredCmp c => executeDeferredCmp fuel b er.type c
  | _ => do
    let r ← valueToReg b er
    pure (b, r)

end Nibble.IR
