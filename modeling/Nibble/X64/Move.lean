import Nibble.X64.Encoding
import Nibble.X64.Emit

/-!
# Moves between registers and the frame

What `mov`, `push` and `pop` do: registers are 64 bits wide, a move of four
bytes clears the upper half of a register and leaves that of a stack slot.
Moves are run as their bytes are read.
-/

namespace Nibble.X64

open Nibble.IR (Word)

/-- What the moves act on. Slots are named by their offset from `rbp`, and `pushed` is what lies
below the frame. -/
structure Machine where
  reg : Gpr → BitVec 64
  slot : BitVec 32 → BitVec 64
  pushed : List (BitVec 64)

/-- Replace the low part. -/
def Size.setLow (size : Size) (old : BitVec 64) (v : Nat) : BitVec 64 :=
  BitVec.ofNat 64 (old.toNat / 2 ^ size.bits * 2 ^ size.bits + v % 2 ^ size.bits)

/-- Writing four bytes clears the rest of a register. -/
def Size.setReg (size : Size) (old : BitVec 64) (v : Nat) : BitVec 64 :=
  size.setLow (if size = .b4 then 0 else old) v

/-- The low part. -/
def Size.low (size : Size) (w : BitVec 64) : Nat := w.toNat % 2 ^ size.bits

namespace Machine

/-- The value of an operand in a register, in a slot of the frame, or in the instruction. -/
def readOp (σ : Machine) (size : Size) : Operand → Option Nat
  | .reg (.lo g) => some (size.low (σ.reg g))
  | .mem (.sib (some .rbp) none disp) => some (size.low (σ.slot disp))
  | .imm n => some n
  | _ => none

def writeOp (σ : Machine) (size : Size) (v : Nat) : Operand → Option Machine
  | .reg (.lo g) => some { σ with reg := Function.update σ.reg g (size.setReg (σ.reg g) v) }
  | .mem (.sib (some .rbp) none disp) =>
    some { σ with slot := Function.update σ.slot disp (size.setLow (σ.slot disp) v) }
  | _ => none

/-- A move, as its bytes are read; `push` and `pop`. -/
def exec (σ : Machine) : Instr → Option Machine
  | .push g => some { σ with pushed := σ.reg g :: σ.pushed }
  | .pop g =>
    match σ.pushed with
    | w :: ws => some { σ with reg := Function.update σ.reg g w, pushed := ws }
    | [] => none
  | i =>
    match i.decoded with
    | some (.bin .mov size dst src) => do
      let v ← σ.readOp size src
      σ.writeOp size v dst
    | _ => none

def execAll (code : List Instr) (σ : Machine) : Option Machine := code.foldlM exec σ

/-- What the location of an integer register holds at a size. -/
def value (σ : Machine) (size : Size) : Loc Gpr → Nat
  | .reg g => size.low (σ.reg g)
  | .stack offset => size.low (σ.slot offset)

end Machine

/-! ## Low parts -/

theorem Size.setLow_lt (s : Size) (old : BitVec 64) (v : Nat) :
    old.toNat / 2 ^ s.bits * 2 ^ s.bits + v % 2 ^ s.bits < 2 ^ 64 := by
  have := old.isLt
  cases s <;> simp only [Size.bits, Size.bytes] <;> omega

theorem Size.toNat_setLow (s : Size) (old : BitVec 64) (v : Nat) :
    (s.setLow old v).toNat = old.toNat / 2 ^ s.bits * 2 ^ s.bits + v % 2 ^ s.bits := by
  rw [setLow, BitVec.toNat_ofNat, Nat.mod_eq_of_lt (s.setLow_lt old v)]

theorem Size.low_setLow (s : Size) (old : BitVec 64) (v : Nat) :
    s.low (s.setLow old v) = v % 2 ^ s.bits := by
  rw [low, toNat_setLow, Nat.mul_add_mod', Nat.mod_mod]

theorem Size.low_setReg (s : Size) (old : BitVec 64) (v : Nat) :
    s.low (s.setReg old v) = v % 2 ^ s.bits := s.low_setLow _ v

theorem Size.setLow_mod (s : Size) (old : BitVec 64) (v : Nat) :
    s.setLow old (v % 2 ^ s.bits) = s.setLow old v := by rw [setLow, setLow, Nat.mod_mod]

/-- A small constant is the same in four bytes and in eight. -/
theorem setReg_short (old : BitVec 64) {v : Nat} (h : v < 2 ^ 32) :
    Size.setReg .b4 old v = Size.setReg .b8 old v := by
  apply BitVec.eq_of_toNat_eq
  have := old.isLt
  simp only [Size.setReg, Size.toNat_setLow, Size.bits, Size.bytes]
  simp
  omega

/-! ## Moves of a constant -/

namespace Machine

theorem exec_movRI (σ : Machine) (s : Size) (g : Gpr) (imm : Word) :
    σ.exec (.movRI s g imm) =
      some { σ with reg := Function.update σ.reg g (s.setReg (σ.reg g) imm.toNat) } := by
  by_cases h : isShortMov s imm = true
  · simp only [exec, Instr.decoded, h, ite_true, readOp, writeOp, Option.bind_eq_bind,
      Option.bind_some]
    simp only [isShortMov, Bool.and_eq_true, beq_iff_eq, decide_eq_true_eq] at h
    obtain ⟨⟨rfl, h0⟩, h31⟩ := h
    rw [setReg_short]
    rw [BitVec.toInt_eq_toNat_cond] at h0 h31
    have := imm.isLt
    split at h0 <;> omega
  · simp only [exec, Instr.decoded, h, Bool.false_eq_true, ite_false, Instr.machine, readOp,
      writeOp, Option.bind_eq_bind, Option.bind_some, BitVec.toNat_setWidth, Size.setReg,
      Size.setLow_mod]

theorem memOp_rbpOffsetAddr (offset : BitVec 32) :
    (rbpOffsetAddr offset).memOp = some (.sib (some .rbp) none offset) := rfl

theorem exec_movRM (σ : Machine) (s : Size) (g : Gpr) (offset : BitVec 32) :
    σ.exec (.movRM s g (rbpOffsetAddr offset)) =
      some { σ with reg := Function.update σ.reg g (s.setReg (σ.reg g) (s.low (σ.slot offset))) } := by
  simp only [exec, Instr.decoded, Instr.machine, memOp_rbpOffsetAddr, Option.map_some, readOp,
    writeOp, Option.bind_eq_bind, Option.bind_some]

theorem exec_movMR (σ : Machine) (s : Size) (g : Gpr) (offset : BitVec 32) :
    σ.exec (.movMR false s (rbpOffsetAddr offset) g) =
      some { σ with
        slot := Function.update σ.slot offset (s.setLow (σ.slot offset) (s.low (σ.reg g))) } := by
  simp only [exec, Instr.decoded, Instr.machine, memOp_rbpOffsetAddr, Option.map_some, movSrcOp,
    Bool.and_false, Bool.false_eq_true, ite_false, readOp, writeOp, Option.bind_eq_bind,
    Option.bind_some]

/-- A constant moved to a register. -/
theorem execAll_movRI_reg (σ : Machine) (s : Size) (g : Gpr) (imm : Word) :
    execAll [.movRI s g imm] σ =
      some { σ with reg := Function.update σ.reg g (s.setReg (σ.reg g) imm.toNat) } := by
  simp [execAll, exec_movRI]

/-- A constant moved to a stack slot, through a register that is restored. -/
theorem execAll_movRI_stack (σ : Machine) (s : Size) (g : Gpr) (offset : BitVec 32)
    (imm : Word) :
    execAll [.push g, .movRM s g (rbpOffsetAddr offset), .movRI s g imm,
        .movMR false s (rbpOffsetAddr offset) g, .pop g] σ =
      some { σ with
        slot := Function.update σ.slot offset (s.setLow (σ.slot offset) imm.toNat) } := by
  have hpush : σ.exec (.push g) = some { σ with pushed := σ.reg g :: σ.pushed } := rfl
  simp only [execAll, List.foldlM_cons, List.foldlM_nil, hpush, exec_movRM, exec_movRI,
    exec_movMR, Option.bind_eq_bind, Option.bind_some, Function.update_self,
    Function.update_idem, Size.low_setReg, Size.setLow_mod]
  simp [exec]

end Machine

end Nibble.X64
