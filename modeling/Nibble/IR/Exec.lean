import Mathlib.Logic.Relation
import Mathlib.Logic.Function.Basic
import Nibble.IR.Builder

/-!
# Execution of IR

The meaning of the instructions on registers and a byte memory. A register
holds a 64-bit word; an instruction of a type of `n` bytes reads the low `n`
bytes of its operands. What lies outside a procedure (where symbols and
literals live, what a call does, float arithmetic) is in `Env`.

A configuration is a block, a position in it and a machine state. `step` runs
one instruction of the blocks of a builder; a jump whose target has not been
patched does not step.
-/

namespace Nibble.IR

abbrev Mem := Word → BitVec 8

/-- What a procedure shares with the rest of the program. -/
structure Store where
  mem : Mem
  world : List Word

structure MState where
  regs : Reg → Word
  store : Store
  /-- The block control came from; `phi` selects on it. -/
  prev : BBlockId

def MState.setReg (σ : MState) (r : Reg) (v : Word) : MState :=
  { σ with regs := Function.update σ.regs r v }

def MState.setMem (σ : MState) (m : Mem) : MState := { σ with store := { σ.store with mem := m } }

@[simp] theorem MState.setReg_store (σ : MState) (r : Reg) (v : Word) :
    (σ.setReg r v).store = σ.store := rfl
@[simp] theorem MState.setReg_prev (σ : MState) (r : Reg) (v : Word) :
    (σ.setReg r v).prev = σ.prev := rfl
@[simp] theorem MState.setReg_self (σ : MState) (r : Reg) (v : Word) :
    (σ.setReg r v).regs r = v := by simp [setReg]

theorem MState.setReg_other (σ : MState) {r s : Reg} (v : Word) (h : s ≠ r) :
    (σ.setReg r v).regs s = σ.regs s := by simp [setReg, h]

/-- The little-endian value of `n` bytes at `a`. -/
def loadN (m : Mem) (a : Word) : Nat → Word
  | 0 => 0
  | n + 1 => (loadN m (a + 1) n) <<< 8 ||| (m a).setWidth 64

/-- Write the low `n` bytes of `v` at `a`. -/
def storeN (m : Mem) (a v : Word) : Nat → Mem
  | 0 => m
  | n + 1 => storeN (Function.update m a (v.setWidth 8)) (a + 1) (v >>> 8) n

/-- `n` bytes copied from `src` to `dst`, first byte first. -/
def copyN (m : Mem) (dst src : Word) : Nat → Mem
  | 0 => m
  | n + 1 => copyN (Function.update m dst (m src)) (dst + 1) (src + 1) n

def fillN (m : Mem) (dst : Word) (v : BitVec 8) : Nat → Mem
  | 0 => m
  | n + 1 => fillN (Function.update m dst v) (dst + 1) v n

/-- The outcome of `ucomiss`/`ucomisd`. -/
inductive FltOrder where
  | less | equal | greater | unordered
  deriving DecidableEq, Repr

/-- What a procedure's code depends on and does not define. -/
structure Env where
  symAddr : SymId → Word
  anonAddr : Nat → Word
  strLitAddr : Nat → Word
  floatLitAddr : Nat → Word
  fltOrder : FloatKind → Word → Word → FltOrder
  /-- A call: the callee, its argument words and the address of an object result. -/
  call : SymId → List Word → Option Word → Store → Store × Word
  /-- Float arithmetic and conversions, indirect calls and system calls. -/
  outside : Instr → MState → Option MState

/-- An integer condition at `w` bits. -/
def ConditionKind.eval {w : Nat} (c : ConditionKind) (a b : BitVec w) : Bool :=
  match c with
  | .uLt => a.ult b
  | .sLt => a.slt b
  | .uLtEq => a.ule b
  | .sLtEq => a.sle b
  | .uGt => b.ult a
  | .sGt => b.slt a
  | .uGtEq => b.ule a
  | .sGtEq => b.sle a
  | .eq => a == b
  | .neq => a != b

/-- A float condition. `flt_cond_map` uses the unsigned variants, which test the carry and zero
flags; an unordered comparison sets both. -/
def ConditionKind.evalFlt (c : ConditionKind) (o : FltOrder) : Bool :=
  match c with
  | .uLt | .sLt => o = .less || o = .unordered
  | .uLtEq | .sLtEq => o ≠ .greater
  | .uGt | .sGt => o = .greater
  | .uGtEq | .sGtEq => o = .greater || o = .equal
  | .eq => o = .equal || o = .unordered
  | .neq => o = .less || o = .greater

theorem eval_oppositeCond {w : Nat} (c : ConditionKind) (a b : BitVec w) :
    (oppositeCond c).eval a b = !c.eval a b := by
  cases c <;> simp [oppositeCond, ConditionKind.eval, bne, BitVec.ule_eq_not_ult, BitVec.sle_eq_not_slt]

theorem evalFlt_oppositeCond (c : ConditionKind) (o : FltOrder) :
    (oppositeCond c).evalFlt o = !c.evalFlt o := by
  cases c <;> cases o <;> rfl

/-- The word of a truth value. -/
def boolWord (b : Bool) : Word := if b then 1 else 0

@[simp] theorem boolWord_true : boolWord true = 1 := rfl
@[simp] theorem boolWord_false : boolWord false = 0 := rfl

/-- The low `8 * size` bits of a word. -/
def lowBytes (size : Nat) (v : Word) : BitVec (8 * size) := v.setWidth (8 * size)

/-- Base + index * scale + displacement, with the given addresses of memory objects. -/
def MemAddr.evalWith (env : Env) (objBase : MemObjId → Option Word) (regs : Reg → Word)
    (a : MemAddr) : Option Word :=
  let base : Option Word :=
    match a.base with
    | .none => some 0
    | .reg r => some (regs r)
    | .obj o => objBase o
    | .strLit i => some (env.strLitAddr i)
    | .floatLit i => some (env.floatLitAddr i)
  let index : Word :=
    match a.indexReg with
    | some r => regs r * a.scale.setWidth 64
    | none => 0
  base.map (· + index + a.disp.signExtend 64)

/-- The address of a memory object, through at most `n` aliases and addresses. -/
def objAddr (env : Env) (objs : List MemObj) (regs : Reg → Word) : Nat → MemObjId → Option Word
  | 0, _ => none
  | n + 1, o =>
    match objs[o]? with
    | some (.sym s) => some (env.symAddr s)
    | some (.anonObj i) => some (env.anonAddr i)
    | some (.alias o') => objAddr env objs regs n o'
    | some (.addr a) => a.evalWith env (objAddr env objs regs n) regs
    | _ => none

/-- The address a `MemAddr` designates. A chain of objects is no longer than the object table. -/
def addrOf (env : Env) (objs : List MemObj) (regs : Reg → Word) (a : MemAddr) : Option Word :=
  a.evalWith env (objAddr env objs regs (objs.length + 1)) regs

section Operands

variable (env : Env) (objs : List MemObj) (σ : MState)

def OpRI.read : OpRI → Word
  | reg r => σ.regs r
  | imm v => v

def OpRA.read (size : Nat) : OpRA → Option Word
  | reg r => some (σ.regs r)
  | addr a => (addrOf env objs σ.regs a).map (loadN σ.store.mem · size)

def OpRIA.read (size : Nat) : OpRIA → Option Word
  | reg r => some (σ.regs r)
  | imm v => some v
  | addr a => (addrOf env objs σ.regs a).map (loadN σ.store.mem · size)

/-- An argument of a call: a scalar, or the address of an object. -/
def Value.read (v : Value) : Option Word :=
  match v.loc with
  | .none => some 0
  | .reg r => some (σ.regs r)
  | .addr a => addrOf env objs σ.regs a

end Operands

/-- The integer instructions at `w` bits; a division that the processor faults on has no result. -/
def IntBinOp.eval {w : Nat} (op : IntBinOp) (signed : Bool) (a b : BitVec w) : Option (BitVec w) :=
  match op with
  | .add => some (a + b)
  | .sub => some (a - b)
  | .mul => some (a * b)
  | .div =>
    if b = 0 ∨ signed ∧ a = BitVec.intMin w ∧ b = -1 then none
    else some (if signed then a.sdiv b else a / b)
  | .mod =>
    if b = 0 ∨ signed ∧ a = BitVec.intMin w ∧ b = -1 then none
    else some (if signed then a.srem b else a % b)
  | .and => some (a &&& b)
  | .or => some (a ||| b)
  | .xor => some (a ^^^ b)
  | .sar => some (a.sshiftRight (b.toNat % (if w = 64 then 64 else 32)))
  | .shl => some (a <<< (b.toNat % (if w = 64 then 64 else 32)))

def UnaryOp.eval {w : Nat} (op : UnaryOp) (a : BitVec w) : BitVec w :=
  match op with
  | .not => ~~~a
  | .neg => -a

/-- `trunc`, `zext` and `sext` from `src` to `dst` bytes. -/
def ConvertOp.eval (op : ConvertOp) (dst src : Nat) (v : Word) : Word :=
  match op with
  | .trunc | .zext => ((lowBytes src v).setWidth (8 * dst)).setWidth 64
  | .sext => ((lowBytes src v).signExtend (8 * dst)).setWidth 64

/-- An instruction that does not transfer control. -/
def execInstr (env : Env) (objs : List MemObj) (i : Instr) (σ : MState) : Option MState :=
  match i with
  | .intBinary op t r a b => do
    let x ← a.read env objs σ t.size
    let y ← b.read env objs σ t.size
    let v ← op.eval t.isSigned (lowBytes t.size x) (lowBytes t.size y)
    some (σ.setReg r (v.setWidth 64))
  | .unary op t r a =>
    some (σ.setReg r ((op.eval (lowBytes t.size (σ.regs a))).setWidth 64))
  | .convert op dt st r a =>
    some (σ.setReg r (op.eval dt.size st.size (σ.regs a)))
  | .lImm _ r v => some (σ.setReg r v)
  | .load t r a => do
    let p ← addrOf env objs σ.regs a
    some (σ.setReg r (loadN σ.store.mem p t.size))
  | .lAddr _ r a => do
    let p ← addrOf env objs σ.regs a
    some (σ.setReg r p)
  | .store t a v => do
    let p ← addrOf env objs σ.regs a
    some (σ.setMem (storeN σ.store.mem p (v.read σ) t.size))
  | .intCmp t c r a b => do
    let x ← a.read env objs σ t.size
    let y ← b.read env objs σ t.size
    some (σ.setReg r (boolWord (c.eval (lowBytes t.size x) (lowBytes t.size y))))
  | .fltCmp k c r a b => do
    let y ← b.read env objs σ (floatKindSize k)
    some (σ.setReg r (boolWord (c.evalFlt (env.fltOrder k (σ.regs a) y))))
  | .call s r args => do
    let xs ← args.mapM (·.read env objs σ)
    match r.loc with
    | .none => some { σ with store := (env.call s xs none σ.store).1 }
    | .reg d =>
      let (st, v) := env.call s xs none σ.store
      some ({ σ with store := st }.setReg d v)
    | .addr a => do
      let p ← addrOf env objs σ.regs a
      some { σ with store := (env.call s xs (some p) σ.store).1 }
  | .memcpy d s n => do
    let p ← addrOf env objs σ.regs d
    let q ← addrOf env objs σ.regs s
    some (σ.setMem (copyN σ.store.mem p q (n.read σ).toNat))
  | .memset d v n => do
    let p ← addrOf env objs σ.regs d
    some (σ.setMem (fillN σ.store.mem p ((v.read σ).setWidth 8) (n.read σ).toNat))
  | .phi _ r args => do
    let arg ← args.find? (·.bblock = σ.prev)
    some (σ.setReg r (σ.regs arg.ireg))
  | .jmp .. | .condJmp .. | .switchCaseJmp .. | .ret _ => none
  | i => env.outside i σ

/-- The target of a switch jump on a normalised value: the case range that holds it, else the
last target. -/
def switchTarget (targets : List BBlockId) (ranges : List CaseRange) (v : BitVec 32) :
    Option BBlockId :=
  targets[(ranges.findIdx fun c => c.start ≤ v && v ≤ c.stop)]?

structure Config where
  bb : BBlockId
  pos : Nat
  st : MState

/-- Control enters block `t` from `src`. -/
def MState.enter (σ : MState) (src t : BBlockId) : Config := ⟨t, 0, { σ with prev := src }⟩

@[simp] theorem MState.enter_bb (σ : MState) (s t : BBlockId) : (σ.enter s t).bb = t := rfl
@[simp] theorem MState.enter_pos (σ : MState) (s t : BBlockId) : (σ.enter s t).pos = 0 := rfl
@[simp] theorem MState.enter_regs (σ : MState) (s t : BBlockId) :
    (σ.enter s t).st.regs = σ.regs := rfl
@[simp] theorem MState.enter_store (σ : MState) (s t : BBlockId) :
    (σ.enter s t).st.store = σ.store := rfl

/-- The instruction at a position of a block. -/
def ProcBuilder.instrAt (B : ProcBuilder) (b : BBlockId) (pos : Nat) : Option (InstrId × Instr) := do
  let bb ← B.bblocks[b]?
  let id ← bb.instrs[pos]?
  let i ← B.instrs[id]?
  some (id, i)

/-- One instruction. -/
def step (B : ProcBuilder) (env : Env) (c : Config) : Option Config := do
  let (_, i) ← B.instrAt c.bb c.pos
  match i with
  | .jmp _ target => do
    let t ← target
    some (c.st.enter c.bb t)
  | .condJmp _ target f a =>
    if lowBytes 1 (c.st.regs a) ≠ 0 then do
      let t ← target
      some (c.st.enter c.bb t)
    else some (c.st.enter c.bb f)
  | .switchCaseJmp _ val targets ranges => do
    let v ← val.read env B.memObjs c.st 8
    let t ← switchTarget targets ranges (v.setWidth 32)
    some (c.st.enter c.bb t)
  | i => do
    let σ ← execInstr env B.memObjs i c.st
    some ⟨c.bb, c.pos + 1, σ⟩

/-- Zero or more instructions. -/
abbrev Steps (B : ProcBuilder) (env : Env) : Config → Config → Prop :=
  Relation.ReflTransGen fun c d => step B env c = some d

/-- Two runs to configurations that do not step end in the same one. -/
theorem Steps.unique {B : ProcBuilder} {env : Env} {c d d' : Config} (h : Steps B env c d)
    (h' : Steps B env c d') (hd : step B env d = none) (hd' : step B env d' = none) : d = d' := by
  have hdet : Relator.RightUnique fun c d => step B env c = some d := fun c d d' h h' =>
    Option.some.inj (h.symm.trans h')
  have hend : ∀ {d d'}, step B env d = none → Steps B env d d' → d = d' := by
    intro d d' hd hs
    rcases Relation.ReflTransGen.cases_head hs with rfl | ⟨e, he, -⟩
    · rfl
    · rw [hd] at he
      cases he
  rcases Relation.ReflTransGen.total_of_right_unique hdet h h' with hs | hs
  · exact hend hd hs
  · exact (hend hd' hs).symm

theorem Steps.one {B : ProcBuilder} {env : Env} {c d : Config} (h : step B env c = some d) :
    Steps B env c d := Relation.ReflTransGen.single h

end Nibble.IR
