import Nibble.X64.Move
import Nibble.X64.EmitCall
import Nibble.XIR.ConstUse

/-!
# Which constants arrive

A constant of an IR instruction arrives if the X64 instruction that takes it
works on its value modulo the operand size: the immediate that its bytes are
read as, or what the location of the register holds after the move. An
immediate of an eight-byte instruction is extended from 32 bits with its sign,
while the test accepts all unsigned values of 32 bits; and the four-byte move
of a small constant leaves the upper half of a stack slot as it was.
-/

namespace Nibble.X64

open Nibble.IR (Word)
open Nibble.XIR
open Nibble.Lib

/-! ## Arriving -/

/-- The immediate operand. -/
def MInstr.immValue : MInstr → Option Nat
  | .bin _ _ _ (.imm n) | .imul3 _ _ _ (.imm n) => some n
  | .shift _ _ _ (some n) => some n
  | _ => none

/-- The bytes of each instruction are read as the machine instruction that `exec` runs. -/
def ReadBack (code : List Instr) : Prop :=
  ∀ i ∈ code, ∀ m, i.decoded = some m → DecodesTo (genCode i) m

namespace ProcState

variable (P : ProcState)

/-- `x` is emitted as `code`, wherever it stands. -/
def Emits (x : XIR.Instr) (code : List Instr) : Prop :=
  ∀ isLastInstr bblockId, P.genInstr isLastInstr bblockId x = some code

/-- `x` is one instruction, encoded with the constant `c` as its immediate. -/
def ImmArrives (size : Size) (c : Word) (x : XIR.Instr) : Prop :=
  ∃ i m, P.Emits x [i] ∧ i.machine = some m ∧ DecodesTo (genCode i) m ∧
    m.immValue = some (size.low c)

/-- After the move of `v` at size `s`, the location holds the constant `c`, whatever it held. -/
def MoveArrives (size : Size) (c : Word) (s : Size) (dst : XReg) (v : Word) : Prop :=
  ∃ code, P.Emits (.movRI s dst v) code ∧ ReadBack code ∧
    ∀ σ : Machine, ∃ σ', σ.execAll code = some σ' ∧
      σ'.value size (P.intLoc dst) = size.low c

/-- The constant `c` of an operand arrives through the XIR instruction that carries it. -/
def Arrives (size : Size) (c : Word) : XIR.Instr → Prop
  | .movRI s dst v => P.MoveArrives size c s dst v
  | x => P.ImmArrives size c x

/-- The constant operands of `i`, in order, have their code among `l`, and arrive. -/
def UsesConstants (ρ : Regs) (i : IR.Instr) (l : List XIR.Instr) : Prop :=
  (ρ.constUses i).map ConstUse.sized = constants i ∧
    ∀ u ∈ ρ.constUses i, u.code <:+: l ∧ P.Arrives u.size u.imm u.carrier

/-- A stack slot. -/
def spilled (x : XReg) : Bool :=
  match P.intLoc x with
  | .reg _ => false
  | .stack _ => true

/-- The address has an encoding. -/
def hasOperand (a : XMemAddr) : Bool := ((getSibdAddr P.lregLoc a).bind (·.1.memOp)).isSome

end ProcState

/-- An immediate of 32 bits that stands for a negative number of eight bytes. -/
def negImm (size : Size) (c : Word) : Bool := size == .b8 && decide (2147483648 ≤ c.toNat)

/-- When a constant operand arrives. -/
def ProcState.keepsConst (P : ProcState) : ConstUse → Bool
  | .load size dst c => !(size == .b8 && immFits4bytes c size && P.spilled dst)
  | .move _ _ _ => true
  | .arith _ size dst c _ => !immFits4bytes c size || !negImm size c && !P.spilled dst
  | .cmpMem size a c _ | .store size a c _ =>
    !immFits4bytes c size || !negImm size c && P.hasOperand a
  | .shift _ size _ c => size.low c < 256

/-! ## Immediates -/

theorem lt_of_immFits4bytes {c : Word} (h : immFits4bytes c .b8 = true) : c.toNat < 2 ^ 32 := by
  have h' : c.toNat ≤ 0xFFFFFFFF := by simpa [immFits4bytes, Size.bytes] using h
  omega

/-- The sign of 32 bits does not show in a smaller operand. -/
theorem toNat_signExtend_small {size : Size} (h : size ≠ .b8) (c : Word) :
    ((c.setWidth 32).signExtend size.bits).toNat = size.low c := by
  have hw : size.bits ≤ 32 := by cases size <;> simp_all [Size.bits, Size.bytes]
  rw [BitVec.signExtend_eq_setWidth_of_le _ hw, BitVec.setWidth_setWidth_of_le _ hw,
    BitVec.toNat_setWidth, Size.low]

/-- In eight bytes the immediate is the constant exactly if its bit 31 is clear. -/
theorem toNat_signExtend_b8 {c : Word} (h : c.toNat < 2 ^ 32) :
    ((c.setWidth 32).signExtend 64).toNat = c.toNat ↔ c.toNat < 2147483648 := by
  have hlow : (c.setWidth 32).toNat = c.toNat := by
    rw [BitVec.toNat_setWidth, Nat.mod_eq_of_lt h]
  have h64 : ((c.setWidth 32).setWidth 64).toNat = c.toNat := by
    rw [BitVec.toNat_setWidth, hlow, Nat.mod_eq_of_lt c.isLt]
  rw [BitVec.toNat_signExtend, h64, BitVec.msb_eq_decide, hlow]
  by_cases hc : 2147483648 ≤ c.toNat
  · simp [hc]
  · simp [hc, Nat.lt_of_not_le hc]

theorem immOperand_iff {size : Size} {c : Word} (h : immFits4bytes c size = true) :
    ((c.setWidth 32).signExtend size.bits).toNat = size.low c ↔ negImm size c = false := by
  by_cases hs : size = .b8
  · subst hs
    have hlt := lt_of_immFits4bytes h
    have hlow : Size.low .b8 c = c.toNat := Nat.mod_eq_of_lt c.isLt
    rw [hlow, show Size.bits .b8 = 64 by rfl, toNat_signExtend_b8 hlt]
    simp [negImm]
  · simp [toNat_signExtend_small hs, negImm, hs]

namespace ProcState

variable {P : ProcState} {size : Size} {c : Word}

theorem loc_cases (P : ProcState) (x : XReg) :
    (∃ g, P.intLoc x = .reg g) ∨ ∃ offset, P.intLoc x = .stack offset := by
  cases h : P.intLoc x with
  | reg g => exact .inl ⟨g, rfl⟩
  | stack offset => exact .inr ⟨offset, rfl⟩

theorem spilled_reg {x : XReg} {g : Gpr} (h : P.intLoc x = .reg g) : P.spilled x = false := by
  simp [spilled, h]

theorem spilled_stack {x : XReg} {offset : BitVec 32} (h : P.intLoc x = .stack offset) :
    P.spilled x = true := by
  simp [spilled, h]

theorem immArrives_iff_immValue {x : XIR.Instr} {i : Instr} {m : MInstr} (hx : P.Emits x [i])
    (hm : i.machine = some m) (hd : DecodesTo (genCode i) m) :
    P.ImmArrives size c x ↔ m.immValue = some (size.low c) := by
  constructor
  · rintro ⟨i', m', hx', hm', -, h⟩
    have heq := (hx false 0).symm.trans (hx' false 0)
    simp only [Option.some.injEq, List.cons.injEq, and_true] at heq
    subst heq
    rw [hm, Option.some.injEq] at hm'
    subst hm'
    exact h
  · exact fun h => ⟨i, m, hx, hm, hd, h⟩

theorem not_immArrives {x : XIR.Instr}
    (h : ∀ i, P.genInstr false 0 x = some [i] → i.machine = none) :
    ¬ P.ImmArrives size c x := by
  rintro ⟨i, m, hx, hm, -⟩
  rw [h i (hx false 0)] at hm
  cases hm

/-- An immediate of an arithmetic instruction or of a comparison. The memory form is not known
under the kind of the register form. -/
theorem immArrives_arithRI {op : ArithOp} {dst : XReg} (hfit : immFits4bytes c size = true)
    (hop : op = .imul → size ≠ .b1) : P.ImmArrives size c (.arithRI op size dst c) ↔
      negImm size c = false ∧ P.spilled dst = false := by
  rcases P.loc_cases dst with ⟨g, hloc⟩ | ⟨offset, hloc⟩
  · rw [spilled_reg hloc]
    cases op with
    | alu op =>
      have hx : P.Emits (.arithRI (.alu op) size dst c) [.aluRI op size g (c.setWidth 32)] := by
        intro last bb
        simp [genInstr, emitBinIntRI, hloc, binIntRIEmit]
      rw [immArrives_iff_immValue hx rfl (decodesTo_binaryInstrRI g _), ← immOperand_iff hfit]
      simp [MInstr.immValue, immOperand]
    | imul =>
      have hx : P.Emits (.arithRI .imul size dst c) [.imulRI size g (c.setWidth 32)] := by
        intro last bb
        simp [genInstr, emitBinIntRI, hloc, binIntRIEmit]
      rw [immArrives_iff_immValue hx rfl (decodesTo_imulRI g _ (hop rfl)), ← immOperand_iff hfit]
      simp [MInstr.immValue, immOperand]
  · rw [spilled_stack hloc]
    have h := @not_immArrives P size c (.arithRI op size dst c) (by
      intro i hi
      cases op <;> simp [genInstr, emitBinIntRI, hloc, binIntMIEmit] at hi)
    simp [h]

/-- An immediate of an instruction on memory. -/
theorem immArrives_mem {x : XIR.Instr} {kind : BinKind} {a : XMemAddr}
    (mk : Size → SibdAddr → BitVec 32 → Instr) (mm : MemOp → MInstr)
    (hfit : immFits4bytes c size = true) (hk : binIntMIEmit kind = some mk)
    (hx : ∀ last bb, P.genInstr last bb x = P.emitBinIntMI kind size a c)
    (hm : ∀ addr, (mk size addr (c.setWidth 32)).machine = addr.memOp.map mm)
    (hd : ∀ addr op, addr.memOp = some op →
      DecodesTo (genCode (mk size addr (c.setWidth 32))) (mm op))
    (hv : ∀ op, (mm op).immValue = some ((c.setWidth 32).signExtend size.bits).toNat) :
    P.ImmArrives size c x ↔ negImm size c = false ∧ P.hasOperand a = true := by
  have hgen : ∀ last bb, P.genInstr last bb x =
      (getSibdAddr P.lregLoc a).map fun addr => [mk size addr.1 (c.setWidth 32)] := by
    intro last bb
    rw [hx]
    cases haddr : getSibdAddr P.lregLoc a <;> simp [emitBinIntMI, haddr, hk]
  by_cases ha : P.hasOperand a = true
  · obtain ⟨op, hop⟩ := Option.isSome_iff_exists.mp ha
    obtain ⟨addr, haddr, hop⟩ := Option.bind_eq_some_iff.mp hop
    have hem : P.Emits x [mk size addr.1 (c.setWidth 32)] := by
      intro last bb
      rw [hgen, haddr]
      rfl
    rw [immArrives_iff_immValue hem (by rw [hm, hop]; rfl) (hd _ _ hop), hv,
      ← immOperand_iff hfit]
    simp [ha]
  · have h : ¬ P.ImmArrives size c x := by
      refine not_immArrives fun i hi => ?_
      rw [hgen] at hi
      obtain ⟨addr, haddr, hi⟩ := Option.map_eq_some_iff.mp hi
      cases hi
      rw [hm, Option.map_eq_none_iff]
      by_contra hne
      obtain ⟨op, hop⟩ := Option.ne_none_iff_exists'.mp hne
      exact ha (by simp [hasOperand, haddr, hop])
    simp [h, ha]

theorem immArrives_cmpMI {a : XMemAddr} (hfit : immFits4bytes c size = true) :
    P.ImmArrives size c (.cmpMI size a c) ↔ negImm size c = false ∧ P.hasOperand a = true :=
  immArrives_mem (.aluMI .cmp)
    (fun m => .bin (.alu .cmp) size (.mem m) (immOperand size (c.setWidth 32))) hfit rfl
    (fun _ _ => rfl) (fun _ => rfl) (fun _ _ hop => decodesTo_binaryInstrMI _ hop) (fun _ => rfl)

theorem immArrives_movMI {a : XMemAddr} (hfit : immFits4bytes c size = true) :
    P.ImmArrives size c (.movMI size a c) ↔ negImm size c = false ∧ P.hasOperand a = true :=
  immArrives_mem .movMI
    (fun m => .bin .mov size (.mem m) (immOperand size (c.setWidth 32))) hfit rfl
    (fun _ _ => rfl) (fun _ => rfl) (fun _ _ hop => decodesTo_movMI _ hop) (fun _ => rfl)

/-- The count of a shift is one byte. -/
theorem immArrives_shiftRI {op : ShiftOp} {dst : XReg} :
    P.ImmArrives size c (.shiftRI op size dst c) ↔ size.low c < 256 := by
  have hcount : (c.setWidth 8).toNat = size.low c ↔ size.low c < 256 := by
    have h8 : 2 ^ 8 ∣ 2 ^ size.bits := by cases size <;> decide
    rw [BitVec.toNat_setWidth, Size.low, ← Nat.mod_mod_of_dvd c.toNat h8]
    exact ⟨fun h => h ▸ Nat.mod_lt _ (by decide), Nat.mod_eq_of_lt⟩
  rcases P.loc_cases dst with ⟨g, hloc⟩ | ⟨offset, hloc⟩
  · have hx : P.Emits (.shiftRI op size dst c) [.shiftRI op size g (c.setWidth 8)] := by
      intro last bb
      simp [genInstr, emitRegMem, hloc]
    rw [immArrives_iff_immValue hx rfl (decodesTo_shiftRI g _), ← hcount]
    simp [MInstr.immValue]
  · have hx : P.Emits (.shiftRI op size dst c)
        [.shiftMI op size (rbpOffsetAddr offset) (c.setWidth 8)] := by
      intro last bb
      simp [genInstr, emitRegMem, hloc]
    have hm := Machine.memOp_rbpOffsetAddr offset
    rw [immArrives_iff_immValue hx (by rw [Instr.machine, hm]; rfl) (decodesTo_shiftMI _ hm),
      ← hcount]
    simp [MInstr.immValue]

/-! ## Moves that arrive -/

theorem emits_movRI_reg {s : Size} {dst : XReg} {v : Word} {g : Gpr}
    (h : P.intLoc dst = .reg g) : P.Emits (.movRI s dst v) [.movRI s g v] := by
  intro last bb
  simp [genInstr, emitMovRI, withInt, getInt, h, endRegGroup, beginRegGroup]

/-- The code of a move to a stack slot, through the first scratch register. -/
def slotMove (s : Size) (g : Gpr) (offset : BitVec 32) (v : Word) : List Instr :=
  [.push g, .movRM s g (rbpOffsetAddr offset), .movRI s g v,
    .movMR false s (rbpOffsetAddr offset) g, .pop g]

theorem emits_movRI_stack {s : Size} {dst : XReg} {v : Word} {offset : BitVec 32}
    (h : P.intLoc dst = .stack offset) :
    ∃ g, P.Emits (.movRI s dst v) (slotMove s g offset v) := by
  obtain ⟨g, gs, hg⟩ := List.exists_cons_of_ne_nil P.intScratch_ne
  have hfind : P.intScratch.find? (fun g => beginRegGroup.isFree 0 (.int g)) = some g := by
    rw [hg]
    exact List.find?_cons_of_pos (by
      simp only [RegGroup.isFree, beginRegGroup, RegMask.mem_zero, Bool.not_false, Bool.and_self])
  refine ⟨g, fun last bb => ?_⟩
  simp only [genInstr, emitMovRI, withInt, getInt, h, hfind, Option.bind_eq_bind,
    Option.bind_some]
  rfl

theorem readBack_movRI (s : Size) (g : Gpr) (v : Word) : ReadBack [.movRI s g v] := by
  intro i hi m hm
  cases List.mem_singleton.mp hi
  exact decodesTo_movRI s g v hm

theorem readBack_slotMove (s : Size) (g : Gpr) (offset : BitVec 32) (v : Word) :
    ReadBack (slotMove s g offset v) := by
  have hop := Machine.memOp_rbpOffsetAddr offset
  intro i hi m hm
  simp only [slotMove, List.mem_cons, List.not_mem_nil, or_false] at hi
  rcases hi with rfl | rfl | rfl | rfl | rfl
  · cases hm
  · cases hm
    exact decodesTo_binaryInstrRM g (opcode_movRM s) hop
  · exact decodesTo_movRI s g v hm
  · cases hm
    exact decodesTo_movMR rfl hop
  · cases hm

theorem moveArrives_reg {s : Size} {dst : XReg} {v : Word} {g : Gpr}
    (h : P.intLoc dst = .reg g) :
    P.MoveArrives size c s dst v ↔ ∀ old, size.low (s.setReg old v.toNat) = size.low c := by
  have hem := @emits_movRI_reg P s dst v g h
  constructor
  · rintro ⟨code, hcode, -, hrun⟩ old
    obtain ⟨σ', hσ', hval⟩ := hrun ⟨fun _ => old, fun _ => 0, []⟩
    rw [← Option.some.inj ((hem false 0).symm.trans (hcode false 0)),
      Machine.execAll_movRI_reg, Option.some.injEq] at hσ'
    subst hσ'
    simpa [Machine.value, h] using hval
  · intro hlow
    refine ⟨_, hem, readBack_movRI s g v, fun σ => ?_⟩
    exact ⟨_, Machine.execAll_movRI_reg σ s g v, by simp [Machine.value, h, hlow]⟩

theorem moveArrives_stack {s : Size} {dst : XReg} {v : Word} {offset : BitVec 32}
    (h : P.intLoc dst = .stack offset) :
    P.MoveArrives size c s dst v ↔ ∀ old, size.low (s.setLow old v.toNat) = size.low c := by
  obtain ⟨g, hem⟩ := @emits_movRI_stack P s dst v offset h
  constructor
  · rintro ⟨code, hcode, -, hrun⟩ old
    obtain ⟨σ', hσ', hval⟩ := hrun ⟨fun _ => 0, fun _ => old, []⟩
    rw [← Option.some.inj ((hem false 0).symm.trans (hcode false 0)), slotMove,
      Machine.execAll_movRI_stack, Option.some.injEq] at hσ'
    subst hσ'
    simpa [Machine.value, h] using hval
  · intro hlow
    refine ⟨_, hem, readBack_slotMove s g offset v, fun σ => ?_⟩
    exact ⟨_, Machine.execAll_movRI_stack σ s g offset v, by simp [Machine.value, h, hlow]⟩

/-- A move at the size of the operand. -/
theorem moveArrives_self (dst : XReg) : P.MoveArrives size c size dst c := by
  rcases P.loc_cases dst with ⟨g, hloc⟩ | ⟨offset, hloc⟩
  · exact (moveArrives_reg hloc).mpr fun old => size.low_setReg old _
  · exact (moveArrives_stack hloc).mpr fun old => size.low_setLow old _

/-- The four-byte move of an eight-byte constant clears the rest of a register, not of a slot. -/
theorem moveArrives_short {dst : XReg} (h : c.toNat < 2 ^ 32) :
    P.MoveArrives .b8 c .b4 dst c ↔ P.spilled dst = false := by
  have hc : Size.low .b8 c = c.toNat := Nat.mod_eq_of_lt c.isLt
  rcases P.loc_cases dst with ⟨g, hloc⟩ | ⟨offset, hloc⟩
  · rw [moveArrives_reg hloc]
    refine iff_of_true (fun old => ?_) (spilled_reg hloc)
    rw [setReg_short old h, Size.low_setReg, hc]
    exact Nat.mod_eq_of_lt c.isLt
  · rw [moveArrives_stack hloc]
    refine iff_of_false (fun hlow => ?_) (by simp [spilled_stack hloc])
    -- a slot that held ones keeps them above the constant
    have hones := hlow (BitVec.allOnes 64)
    rw [hc, Size.low, Size.toNat_setLow] at hones
    simp [Size.bits, Size.bytes] at hones
    omega

/-! ## Constants -/

/-- The move of a constant that no immediate form takes. -/
theorem arrives_move {dst : XReg} : P.Arrives size c (.movRI size dst c) := moveArrives_self dst

theorem arrives_load (dst : XReg) : P.Arrives size c (.movRI (Regs.loadSize size c) dst c) ↔
    P.keepsConst (.load size dst c) = true := by
  by_cases h : (size == .b8 && immFits4bytes c size) = true
  · simp only [Bool.and_eq_true, beq_iff_eq] at h
    obtain ⟨rfl, hfit⟩ := h
    have hshort := @moveArrives_short P c dst (lt_of_immFits4bytes hfit)
    simpa [Arrives, Regs.loadSize, hfit, keepsConst] using hshort
  · have hsize : Regs.loadSize size c = size := by
      simp only [Regs.loadSize]
      rw [if_neg (by simpa using h)]
    rw [hsize]
    exact iff_of_true arrives_move (by simp only [keepsConst, h, Bool.false_and, Bool.not_false])

/-- A constant operand of an IR instruction arrives exactly if `keepsConst` says so. -/
theorem arrives_iff {ρ : Regs} {i : IR.Instr} {u : ConstUse} (hu : u ∈ ρ.constUses i) :
    P.Arrives u.size u.imm u.carrier ↔ P.keepsConst u = true := by
  cases u with
  | load size dst c => exact arrives_load dst
  | move size dst c => exact iff_of_true arrives_move rfl
  | arith op size dst c next =>
    simp only [ConstUse.carrier, ConstUse.size, ConstUse.imm, keepsConst]
    by_cases hfit : immFits4bytes c size = true
    · have h := @immArrives_arithRI P size c op dst hfit fun h => by subst h; exact Regs.imul_size hu
      simpa [hfit, Arrives] using h
    · rw [if_neg hfit]
      exact iff_of_true arrives_move (by simp [hfit])
  | cmpMem size a c next =>
    simp only [ConstUse.carrier, ConstUse.size, ConstUse.imm, keepsConst]
    by_cases hfit : immFits4bytes c size = true
    · simpa [hfit, Arrives] using @immArrives_cmpMI P size c a hfit
    · rw [if_neg hfit]
      exact iff_of_true arrives_move (by simp [hfit])
  | store size a c next =>
    simp only [ConstUse.carrier, ConstUse.size, ConstUse.imm, keepsConst]
    by_cases hfit : immFits4bytes c size = true
    · simpa [hfit, Arrives] using @immArrives_movMI P size c a hfit
    · rw [if_neg hfit]
      exact iff_of_true arrives_move (by simp [hfit])
  | shift op size dst c =>
    simpa [Arrives, keepsConst, ConstUse.carrier, ConstUse.size, ConstUse.imm] using
      @immArrives_shiftRI P size c op dst

/-- The constants of an IR instruction arrive exactly if no eight-byte immediate has its bit 31 set,
no arithmetic with an immediate works on a stack slot, no eight-byte operand of 32 bits is loaded to
a stack slot, no shift count needs more than a byte, and memory operands have an encoding. -/
theorem usesConstants_iff (P : ProcState) (ρ : Regs) (i : IR.Instr) (next : Option IR.Instr)
    {l : List XIR.Instr} (h : ρ.convert i next = some l) :
    P.UsesConstants ρ i l ↔ ∀ u ∈ ρ.constUses i, P.keepsConst u = true := by
  constructor
  · rintro ⟨-, harr⟩ u hu
    exact (arrives_iff hu).mp (harr u hu).2
  · intro hex
    exact ⟨Regs.sized_constUses h,
      fun u hu => ⟨Regs.code_mem_convert h hu, (arrives_iff hu).mpr (hex u hu)⟩⟩

end ProcState

/-- IR registers are virtual registers; the physical ones come after them. -/
def idRegs : Regs := ⟨id, fun _ => ([], .globalSym 0), fun g => 100 + g.val, 200⟩

theorem scratch_r10_ne : [Gpr.r10] ≠ [] := by decide

theorem scratch_xmm0_ne : [(0 : Xmm)] ≠ [] := by decide

theorem scratch_r10_notFrame : ∀ g ∈ [Gpr.r10], g ≠ .rsp ∧ g ≠ .rbp := by decide

/-- Every virtual register is in `rax` or `xmm0`. -/
def raxOnly : ProcState where
  intLoc _ := .reg .rax
  fltLoc _ := .reg 0
  intScratch := [.r10]
  fltScratch := [0]
  objRegClass _ := .int
  intLoc_ne_rsp _ := by decide
  intScratch_ne := scratch_r10_ne
  fltScratch_ne := scratch_xmm0_ne
  frame_notMem := scratch_r10_notFrame

/-- `r = a + c` in eight bytes. -/
def addConst (c : Word) : IR.Instr := .intBinary .add (.integer .u64) 0 (.reg 1) (.imm c)

/-- `r = a + 5` in eight bytes. -/
theorem usesConstants_add_five :
    raxOnly.UsesConstants idRegs (addConst 5) [.movRR .b8 0 1, .arithRI (.alu .add) .b8 0 5] ↔
      ∀ u ∈ idRegs.constUses (addConst 5), raxOnly.keepsConst u = true :=
  raxOnly.usesConstants_iff idRegs (addConst 5) none rfl

/-- `r = a + 0x80000000` in eight bytes adds `0xFFFFFFFF80000000`. -/
theorem not_usesConstants_add :
    idRegs.convert (addConst 0x80000000) none =
        some [.movRR .b8 0 1, .arithRI (.alu .add) .b8 0 0x80000000] ∧
      ¬ raxOnly.UsesConstants idRegs (addConst 0x80000000)
        [.movRR .b8 0 1, .arithRI (.alu .add) .b8 0 0x80000000] := by
  refine ⟨by decide, ?_⟩
  rintro ⟨-, h⟩
  have hmem : ConstUse.arith (.alu .add) .b8 0 0x80000000 200 ∈
      idRegs.constUses (addConst 0x80000000) := by decide
  exact absurd ((ProcState.arrives_iff hmem).mp (h _ hmem).2) (by decide)

end Nibble.X64
