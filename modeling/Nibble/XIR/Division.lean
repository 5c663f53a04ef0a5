import Nibble.Lib.WideDiv
import Nibble.XIR.Const
import Nibble.XIR.AddrExact
import Nibble.X64.Move

/-!
# Division

`XIR_convert_int_div_instr`, `XIR_convert_mod_instr` and
`XIR_convert_divmod_instr` with the meaning of the instructions they emit. The
dividend is extended from `_ax` to `_dx`, except for bytes: there the processor
divides `ax`, and nothing has been written to `ah`.
-/

namespace Nibble.XIR

open Nibble.IR hiding Instr
open Nibble.Lib
open Nibble.X64 (Size RaxOp)

/-- The low part of a word. -/
def lowBits (s : Size) (w : Word) : BitVec s.bits := w.setWidth s.bits

/-! ## Meaning -/

/-- Write the low part of a register. -/
def setReg (v : XReg → Word) (s : Size) (d : XReg) (n : Nat) : XReg → Word :=
  Function.update v d (s.setReg (v d) n)

/-- The upper half of a dividend. That of a byte is the next byte of `_ax`. -/
def dividendHigh (s : Size) (dx : Option XReg) (ax : XReg) (v : XReg → Word) : BitVec s.bits :=
  match dx with
  | some d => lowBits s (v d)
  | none => lowBits s (v ax >>> s.bits)

/-- Quotient and remainder go where the halves of the dividend were. -/
def writeDivision (s : Size) (dx : Option XReg) (ax : XReg) (v : XReg → Word)
    (q r : BitVec s.bits) : XReg → Word :=
  match dx with
  | some d => setReg (setReg v s ax q.toNat) s d r.toNat
  | none => setReg v .b2 ax (r.toNat * 2 ^ s.bits + q.toNat)

/-- `div` and `idiv`; none where the processor faults. -/
def divideBy (signed : Bool) (s : Size) (dx : Option XReg) (ax : XReg) (d : Word)
    (v : XReg → Word) : Option (XReg → Word) :=
  (wideDiv signed (dividendHigh s dx ax v) (lowBits s (v ax)) (lowBits s d)).map fun (q, r) =>
    writeDivision s dx ax v q r

section

variable (env : Env) (load : Word → Option Word)

/-- The instructions of a division. `load` is what memory holds at the size of its operands, none
where nothing is mapped. -/
def exec (v : XReg → Word) : Instr → Option (XReg → Word)
  | .movRR s d x => some (setReg v s d (v x).toNat)
  | .movRM s d a => (load (a.eval env v)).map fun w => setReg v s d w.toNat
  | .movRI s d c => some (setReg v s d c.toNat)
  | .movRRH d x => some (setReg v .b1 d ((v x).toNat / 2 ^ 8))
  | .arithRI .imul .b8 d c => some (Function.update v d (v d * c))
  | .arithRR (.alu .add) .b8 d x => some (Function.update v d (v d + v x))
  | .arithRR (.alu .xor) .b8 d x => some (Function.update v d (v d ^^^ v x))
  | .sextAxToDx s d x => some (setReg v s d (extension true (lowBits s (v x))).toNat)
  | .raxR .div s dx ax x => divideBy false s dx ax (v x) v
  | .raxR .idiv s dx ax x => divideBy true s dx ax (v x) v
  | .raxM .div s dx ax a => (load (a.eval env v)).bind (divideBy false s dx ax · v)
  | .raxM .idiv s dx ax a => (load (a.eval env v)).bind (divideBy true s dx ax · v)
  | _ => none

def run (code : List Instr) (v : XReg → Word) : Option (XReg → Word) :=
  code.foldlM (exec env load) v

/-- The value of an operand of the IR instruction. -/
def operandVal (objs : List MemObj) (regs : Reg → Word) : OpRIA → Option Word
  | .reg r => some (regs r)
  | .imm c => some c
  | .addr a => (addrOf env objs regs a).bind load

end

/-! ## The claim of a division -/

/-- The IR instructions that divide, with their destinations. -/
inductive DivOp where
  | div (r : Reg)
  | mod (r : Reg)
  | divMod (q r : Reg)
  deriving DecidableEq, Repr

def DivOp.dsts : DivOp → List Reg
  | div r | mod r => [r]
  | divMod q r => [q, r]

def DivOp.convert (ρ : Regs) (signed : Bool) (size : Size) (a b : OpRIA) : DivOp → List Instr
  | div r => ρ.convertIntDiv signed size r a b
  | mod r => ρ.convertMod signed size r a b
  | divMod q r => ρ.convertDivMod signed size q r a b

/-- The destinations hold the quotient and the remainder. -/
def DivOp.Holds (ρ : Regs) (size : Size) (v : XReg → Word) (quot rem : BitVec size.bits) :
    DivOp → Prop
  | div r => lowBits size (v (ρ.reg r)) = quot
  | mod r => lowBits size (v (ρ.reg r)) = rem
  | divMod q r => lowBits size (v (ρ.reg q)) = quot ∧ lowBits size (v (ρ.reg r)) = rem

/-- The registers that a division takes for itself. -/
def Regs.scratch (ρ : Regs) : List XReg := [ρ.phys .rax, ρ.phys .rdx, ρ.next]

/-- `ρ` is what the builder answers until it is `Y`, which knows the registers of the operands. The
destinations are new registers, as those of the fixed registers are. -/
structure Answers (fr : Frame) (objs : List MemObj) (Y : XBuilder) (ρ : Regs) (op : DivOp)
    (a b : OpRIA) : Prop where
  reg : ∀ r, OpRIA.reg r = a ∨ OpRIA.reg r = b → Y.vreg r = some (ρ.reg r)
  addr : ∀ src, OpRIA.addr src = a ∨ OpRIA.addr src = b →
    ∃ X X', getAddr fr objs src X = some ((ρ.addr src).2, X') ∧
      (ρ.addr src).1 = X'.code.drop X.code.length ∧ Ext X' Y
  nodup : (ρ.scratch ++ op.dsts.map ρ.reg).Nodup
  new : ∀ z ∈ ρ.scratch ++ op.dsts.map ρ.reg, z ≠ Y.lregRbp ∧ ∀ r, Y.vreg r ≠ some z

/-- From every state of the machine the code ends with quotient and remainder where they belong
and all registers of the IR as they were, for all values that have a quotient. -/
def DividesRight (fr : Frame) (objs : List MemObj) (Y : XBuilder) (ρ : Regs) (op : DivOp)
    (signed : Bool) (size : Size) (a b : OpRIA) : Prop :=
  ∀ env load regs v x y, Agree fr Y env regs v →
    operandVal env load objs regs a = some x → operandVal env load objs regs b = some y →
    Divides signed (lowBits size x) (lowBits size y) →
    ∃ v', run env load (op.convert ρ signed size a b) v = some v' ∧
      op.Holds ρ size v' (quotient signed (lowBits size x) (lowBits size y))
        (remainder signed (lowBits size x) (lowBits size y)) ∧
      (∀ r z, Y.vreg r = some z → v' z = v z) ∧ v' Y.lregRbp = v Y.lregRbp

/-- The quotient and the remainder are those of the IR. -/
theorem eval_div_mod {w : Nat} {signed : Bool} {x y : BitVec w} (h : Divides signed x y) :
    IntBinOp.div.eval signed x y = some (quotient signed x y) ∧
      IntBinOp.mod.eval signed x y = some (remainder signed x y) := by
  have hno : ¬ (y = 0 ∨ signed = true ∧ x = BitVec.intMin w ∧ y = -1) := by
    rintro (hy | ⟨hs, hx, hy⟩)
    · exact h.1 hy
    · rcases h.2 hs with hne | hne
      · exact hne hx
      · exact hne hy
  constructor
  · simp only [IntBinOp.eval, if_neg hno, quotient]
  · simp only [IntBinOp.eval, if_neg hno, remainder]

end Nibble.XIR
