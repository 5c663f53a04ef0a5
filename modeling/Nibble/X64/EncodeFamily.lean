import Nibble.X64.EncodeOperand

/-!
# Families of integer instructions

One lemma for each family of writers: what it writes is read as the
instruction, with its operands, size and immediate.
-/

namespace Nibble.X64

open Nibble.Lib

/-! ## Reading a form -/

section

variable {p : Prefixes} {bs bs' bs'' : List UInt8} {reg : Nat} {rm : Rm} {size : Size}
  {wide : Bool} {imm : Operand}

theorem decodeForm_bin (hs : p.size wide = size) (h : decodeModrm p bs = some (reg, rm, bs'))
    (op : BinOp) (regIsDst : Bool) :
    decodeForm p bs (.bin op wide regIsDst) =
      some (if regIsDst then .bin op size (p.regOperand size reg) (p.rmOp size rm)
        else .bin op size (p.rmOp size rm) (p.regOperand size reg), bs') := by
  cases regIsDst <;> simp [decodeForm, h, hs]

theorem decodeForm_group1 (hs : p.size wide = size) (h : decodeModrm p bs = some (reg, rm, bs'))
    {op : AluOp} (hop : decodeAlu reg = some op) {imm8 : Bool}
    (himm : readImm size imm8 bs' = some (imm, bs'')) :
    decodeForm p bs (.group1 wide imm8) =
      some (.bin (.alu op) size (p.rmOp size rm) imm, bs'') := by
  simp [decodeForm, h, hop, hs, himm]

theorem decodeForm_movImm (hs : p.size wide = size) (h : decodeModrm p bs = some (0, rm, bs'))
    (himm : readImm size false bs' = some (imm, bs'')) :
    decodeForm p bs (.movImm wide) = some (.bin .mov size (p.rmOp size rm) imm, bs'') := by
  simp [decodeForm, h, hs, himm]

theorem decodeForm_group2 (hs : p.size wide = size) (h : decodeModrm p bs = some (reg, rm, bs'))
    {op : ShiftOp} (hop : decodeShift reg = some op) (c : Option Nat) :
    decodeForm p bs (.group2 wide (some c)) = some (.shift op size (p.rmOp size rm) c, bs') := by
  simp [decodeForm, h, hop, hs]

theorem decodeForm_group2_imm (hs : p.size wide = size)
    (h : decodeModrm p bs = some (reg, rm, bs')) {op : ShiftOp} (hop : decodeShift reg = some op)
    {n : Nat} (hn : readLe 1 bs' = some (n, bs'')) :
    decodeForm p bs (.group2 wide none) =
      some (.shift op size (p.rmOp size rm) (some n), bs'') := by
  simp [decodeForm, h, hop, hs, hn]

theorem decodeForm_group3 (hs : p.size wide = size) (h : decodeModrm p bs = some (reg, rm, bs'))
    {op : UnOp} (hop : decodeGroup3 reg = some op) :
    decodeForm p bs (.group3 wide) = some (.un op size (p.rmOp size rm), bs') := by
  simp [decodeForm, h, hop, hs]

theorem decodeForm_imul3 (hs : p.size true = size) (h : decodeModrm p bs = some (reg, rm, bs'))
    {imm8 : Bool} (himm : readImm size imm8 bs' = some (imm, bs'')) :
    decodeForm p bs (.imul3 imm8) =
      some (.imul3 size (p.regOperand size reg) (p.rmOp size rm) imm, bs'') := by
  simp [decodeForm, h, hs, himm]

theorem decodeForm_movx (hs : p.size true = size) (h : decodeModrm p bs = some (reg, rm, bs'))
    (op : ExtOp) (srcSize : Size) :
    decodeForm p bs (.movx op srcSize) =
      some (.movx op size (p.regOperand size reg) srcSize (p.rmOp srcSize rm), bs') := by
  simp [decodeForm, h, hs]

theorem decodeForm_setcc (h : decodeModrm p bs = some (reg, rm, bs')) (c : IR.ConditionKind) :
    decodeForm p bs (.setcc c) = some (.setcc c (p.rmOp .b1 rm), bs') := by
  simp [decodeForm, h]

end

/-! ## Families -/

theorem opcode_bySize {o1 oL : UInt8} {form : Bool → Form} (h1 : Opcode [o1] (form false))
    (hL : Opcode [oL] (form true)) (size : Size) :
    Opcode (bySize size o1 oL) (form (decide (size ≠ .b1))) := by
  cases size
  · exact h1
  all_goals exact hL

section

variable {o1 oL : UInt8} {size : Size} {op : BinOp}

theorem decodesTo_binaryInstrRR (dst src : Gpr)
    (ho : Opcode (bySize size o1 oL) (.bin op (decide (size ≠ .b1)) false)) :
    DecodesTo (some (binaryInstrRR o1 oL size dst src))
      (.bin op size (.reg (.lo dst)) (.reg (.lo src))) := by
  apply decodesTo_reg (opSizePrefix_eq size) ho
  intro rest
  rw [decodeForm_bin (size_regs _ _ _ _) (decodeModrm_reg _ _ _ _), regOperand_regs, rmOp_regs]
  · rfl
  · intro h
    rw [h, Bool.true_or]
  · intro h
    rw [h, Bool.or_true]

theorem decodesTo_binaryInstrRM (dst : Gpr) {src : SibdAddr} {m : MemOp}
    (ho : Opcode (bySize size o1 oL) (.bin op (decide (size ≠ .b1)) true))
    (hm : src.memOp = some m) :
    DecodesTo (binaryInstrRM o1 oL size dst src) (.bin op size (.reg (.lo dst)) (.mem m)) := by
  apply decodesTo_mem (opSizePrefix_eq size) ho hm
  intro a _ ha rest
  rw [decodeForm_bin (size_mem _ _ _ _) (decodeModrm_mem ha _ _ _ _ _), regOperand_mem id]
  rfl

theorem decodesTo_binaryInstrMR (src : Gpr) {dst : SibdAddr} {m : MemOp}
    (ho : Opcode (bySize size o1 oL) (.bin op (decide (size ≠ .b1)) false))
    (hm : dst.memOp = some m) :
    DecodesTo (binaryInstrMR o1 oL size dst src) (.bin op size (.mem m) (.reg (.lo src))) := by
  apply decodesTo_mem (opSizePrefix_eq size) ho hm
  intro a _ ha rest
  rw [decodeForm_bin (size_mem _ _ _ _) (decodeModrm_mem ha _ _ _ _ _), regOperand_mem id]
  rfl

end

/-- The value of an immediate of an operation of the given size. -/
def immOperand (size : Size) (imm : BitVec 32) : Operand :=
  .imm (imm.signExtend size.bits).toNat

theorem opcode_imm (size : Size) (imm : BitVec 32) :
    Opcode (immOpcode 0x80 0x83 0x81 size imm)
      (.group1 (decide (size ≠ .b1)) (decide (size ≠ .b1) && dispIsImm8 imm)) := by
  have hlarge : Opcode [if dispIsImm8 imm = true then 0x83 else 0x81]
      (.group1 true (dispIsImm8 imm)) := by
    cases dispIsImm8 imm
    · exact opcode_one (by decide) rfl
    · exact opcode_one (by decide) rfl
  cases size
  · exact @opcode_one 0x80 _ (by decide) rfl
  all_goals exact hlarge

theorem decodeAlu_ext (op : AluOp) : decodeAlu (op.ext % 8) = some op := by cases op <;> rfl

section

variable {op : AluOp} {size : Size}

theorem decodesTo_binaryInstrRI (dst : Gpr) (imm : BitVec 32) :
    DecodesTo (some (binaryInstrRI 0x80 0x83 0x81 op.ext size dst imm))
      (.bin (.alu op) size (.reg (.lo dst)) (immOperand size imm)) := by
  apply decodesTo_reg (opSizePrefix_eq size) (opcode_imm size imm)
  intro rest
  rw [decodeForm_group1 (size_regs _ _ _ _) (decodeModrm_reg _ _ _ _) (decodeAlu_ext op)
    (readImm_immBytes size imm rest), rmOp_regs id]
  rfl

theorem decodesTo_binaryInstrMI {dst : SibdAddr} {m : MemOp} (imm : BitVec 32)
    (hm : dst.memOp = some m) :
    DecodesTo (binaryInstrMI 0x80 0x83 0x81 op.ext size dst imm)
      (.bin (.alu op) size (.mem m) (immOperand size imm)) := by
  apply decodesTo_mem (opSizePrefix_eq size) (opcode_imm size imm) hm
  intro a _ ha rest
  rw [decodeForm_group1 (size_mem _ _ _ _) (decodeModrm_mem ha _ _ _ _ _) (decodeAlu_ext op)
    (readImm_immBytes size imm rest)]
  rfl

end

/-! ### One operand -/

section

variable {size : Size} {op : UnOp} {ext : Nat}

theorem opcode_group3 (size : Size) :
    Opcode (bySize size 0xF6 0xF7) (.group3 (decide (size ≠ .b1))) :=
  opcode_bySize (opcode_one (by decide) rfl) (opcode_one (by decide) rfl) size

theorem decodesTo_group3R (r : Gpr) (h : decodeGroup3 (ext % 8) = some op) :
    DecodesTo (some (extInstrR 0xF6 0xF7 ext size r)) (.un op size (.reg (.lo r))) := by
  apply decodesTo_reg (opSizePrefix_eq size) (opcode_group3 size)
  intro rest
  rw [decodeForm_group3 (size_regs _ _ _ _) (decodeModrm_reg _ _ _ _) h, rmOp_regs id]
  rfl

theorem decodesTo_group3M {addr : SibdAddr} {m : MemOp} (h : decodeGroup3 (ext % 8) = some op)
    (hm : addr.memOp = some m) :
    DecodesTo (extInstrM 0xF6 0xF7 ext size addr) (.un op size (.mem m)) := by
  apply decodesTo_mem (opSizePrefix_eq size) (opcode_group3 size) hm
  intro a _ ha rest
  rw [decodeForm_group3 (size_mem _ _ _ _) (decodeModrm_mem ha _ _ _ _ _) h]
  rfl

end

/-! ### Shifts -/

section

variable {size : Size} {op : ShiftOp} {o1 oL : UInt8} {c : Option Nat}

theorem decodeShift_ext (op : ShiftOp) : decodeShift (op.ext % 8) = some op := by cases op <;> rfl

theorem decodesTo_shiftR (r : Gpr)
    (ho : Opcode (bySize size o1 oL) (.group2 (decide (size ≠ .b1)) (some c))) :
    DecodesTo (some (extInstrR o1 oL op.ext size r)) (.shift op size (.reg (.lo r)) c) := by
  apply decodesTo_reg (opSizePrefix_eq size) ho
  intro rest
  rw [decodeForm_group2 (size_regs _ _ _ _) (decodeModrm_reg _ _ _ _) (decodeShift_ext op),
    rmOp_regs id]
  rfl

theorem decodesTo_shiftM {addr : SibdAddr} {m : MemOp}
    (ho : Opcode (bySize size o1 oL) (.group2 (decide (size ≠ .b1)) (some c)))
    (hm : addr.memOp = some m) :
    DecodesTo (extInstrM o1 oL op.ext size addr) (.shift op size (.mem m) c) := by
  apply decodesTo_mem (opSizePrefix_eq size) ho hm
  intro a _ ha rest
  rw [decodeForm_group2 (size_mem _ _ _ _) (decodeModrm_mem ha _ _ _ _ _) (decodeShift_ext op)]
  rfl

theorem opcode_shiftOne (size : Size) :
    Opcode (bySize size 0xD0 0xD1) (.group2 (decide (size ≠ .b1)) (some (some 1))) :=
  @opcode_bySize _ _ (fun w => .group2 w (some (some 1))) (opcode_one (by decide) rfl)
    (opcode_one (by decide) rfl) size

theorem opcode_shiftCl (size : Size) :
    Opcode (bySize size 0xD2 0xD3) (.group2 (decide (size ≠ .b1)) (some none)) :=
  @opcode_bySize _ _ (fun w => .group2 w (some none)) (opcode_one (by decide) rfl)
    (opcode_one (by decide) rfl) size

theorem opcode_shiftImm (size : Size) :
    Opcode (bySize size 0xC0 0xC1) (.group2 (decide (size ≠ .b1)) none) :=
  @opcode_bySize _ _ (fun w => .group2 w none) (opcode_one (by decide) rfl)
    (opcode_one (by decide) rfl) size

theorem readLe_imm8 (imm : BitVec 8) (rest : List UInt8) :
    readLe 1 (leBytes 1 imm.toNat ++ rest) = some (imm.toNat, rest) := by
  rw [readLe_leBytes, Nat.mod_eq_of_lt imm.isLt]

/-- A shift by one has an opcode of its own. -/
theorem decodesTo_shiftRI (dst : Gpr) (imm : BitVec 8) :
    DecodesTo (some (shiftRI op.ext size dst imm))
      (.shift op size (.reg (.lo dst)) (some imm.toNat)) := by
  unfold shiftRI
  by_cases h1 : imm = 1
  · subst h1
    exact decodesTo_shiftR dst (opcode_shiftOne size)
  · rw [if_neg h1]
    apply decodesTo_reg (opSizePrefix_eq size) (opcode_shiftImm size)
    intro rest
    rw [decodeForm_group2_imm (size_regs _ _ _ _) (decodeModrm_reg _ _ _ _) (decodeShift_ext op)
      (readLe_imm8 imm rest), rmOp_regs id]

theorem decodesTo_shiftMI {dst : SibdAddr} {m : MemOp} (imm : BitVec 8)
    (hm : dst.memOp = some m) :
    DecodesTo (shiftMI op.ext size dst imm) (.shift op size (.mem m) (some imm.toNat)) := by
  unfold shiftMI
  by_cases h1 : imm = 1
  · subst h1
    exact decodesTo_shiftM (opcode_shiftOne size) hm
  · rw [if_neg h1]
    have hmap : (extInstrM 0xC0 0xC1 op.ext size dst).map
          (fun c => { c with imm := leBytes 1 imm.toNat }) =
        memForm (opSizePrefix size) (size = .b8) false (bySize size 0xC0 0xC1) op.ext dst
          (leBytes 1 imm.toNat) := by
      simp [extInstrM, memForm, Option.map_bind]
    rw [hmap]
    apply decodesTo_mem (opSizePrefix_eq size) (opcode_shiftImm size) hm
    intro a _ ha rest
    rw [decodeForm_group2_imm (size_mem _ _ _ _) (decodeModrm_mem ha _ _ _ _ _)
      (decodeShift_ext op) (readLe_imm8 imm rest)]
    rfl

end

/-! ### Extending moves, `SETcc` and `IMUL` -/

theorem decodesTo_movExtRR {pre opcode : List UInt8} {op : ExtOp} {dstSize srcSize : Size}
    {no8h : Bool} (dst src : Gpr) (ho : Opcode opcode (.movx op srcSize))
    (hp : pre = if decide (dstSize = .b2) then [0x66] else []) (hd : dstSize ≠ .b1)
    (h8 : is8h srcSize src = true → no8h = true) :
    DecodesTo (some (.plain (regForm pre (decide (dstSize = .b8)) no8h opcode dst.val src.val) []))
      (.movx op dstSize (.reg (.lo dst)) srcSize (.reg (.lo src))) := by
  apply decodesTo_reg hp ho
  intro rest
  have hs := size_regs dstSize no8h dst.val src.val
  rw [decide_eq_true hd] at hs
  rw [decodeForm_movx hs (decodeModrm_reg _ _ _ _), regOperand_regs, rmOp_regs h8]
  · rfl
  · intro h
    simp [is8h, hd] at h

theorem decodesTo_movExtRM {pre opcode : List UInt8} {op : ExtOp} {dstSize srcSize : Size}
    (dst : Gpr) {src : SibdAddr} {m : MemOp} (ho : Opcode opcode (.movx op srcSize))
    (hp : pre = if decide (dstSize = .b2) then [0x66] else []) (hd : dstSize ≠ .b1)
    (hm : src.memOp = some m) :
    DecodesTo (memForm pre (decide (dstSize = .b8)) false opcode dst.val src [])
      (.movx op dstSize (.reg (.lo dst)) srcSize (.mem m)) := by
  apply decodesTo_mem hp ho hm
  intro a _ ha rest
  have hs := size_mem dstSize false dst.val a
  rw [decide_eq_true hd] at hs
  rw [decodeForm_movx hs (decodeModrm_mem ha _ _ _ _ _), regOperand_mem]
  · rfl
  · intro h
    simp [is8h, hd] at h

theorem opcode_movExt (op : ExtOp) {srcSize : Size} (h : srcSize = .b1 ∨ srcSize = .b2) :
    Opcode [0x0F, op.opcode srcSize] (.movx op srcSize) := by
  rcases h with rfl | rfl <;> cases op <;> exact opcode_two rfl

theorem opcode_setcc (c : IR.ConditionKind) : Opcode (setccOpcode c) (.setcc c) := by
  cases c <;> exact opcode_two rfl

theorem decodesTo_setccR (c : IR.ConditionKind) (dst : Gpr) :
    DecodesTo (some (.plain (regForm [] false dst.aliased8h (setccOpcode c) 0 dst.val) []))
      (.setcc c (.reg (.lo dst))) := by
  apply @decodesTo_reg false _ _ _ _ _ _ _ _ _ rfl (opcode_setcc c)
  intro rest
  rw [decodeForm_setcc (decodeModrm_reg _ _ _ _), rmOp_regs]
  · rfl
  · exact id

theorem decodesTo_setccM (c : IR.ConditionKind) {dst : SibdAddr} {m : MemOp}
    (hm : dst.memOp = some m) :
    DecodesTo (memForm [] false false (setccOpcode c) 0 dst []) (.setcc c (.mem m)) := by
  apply decodesTo_mem (p := false) rfl (opcode_setcc c) hm
  intro a _ ha rest
  rw [decodeForm_setcc (decodeModrm_mem ha _ _ _ _ _)]
  rfl

theorem decodesTo_imulRR {size : Size} (dst src : Gpr) (hs : size ≠ .b1) :
    DecodesTo (genCode (.imulRR size dst src))
      (.bin .imul size (.reg (.lo dst)) (.reg (.lo src))) := by
  simp only [genCode, hs, ite_false]
  have ho : Opcode [0x0F, 0xAF] (.bin .imul true true) := opcode_two rfl
  have h8 (g : Gpr) : is8h size g = true → false = true := by simp [is8h, hs]
  apply decodesTo_reg (opSizePrefix_eq size) ho
  intro rest
  have hsize := size_regs size false dst.val src.val
  rw [decide_eq_true hs] at hsize
  rw [decodeForm_bin hsize (decodeModrm_reg _ _ _ _), regOperand_regs (h8 dst),
    rmOp_regs (h8 src)]
  rfl

theorem decodesTo_imulRM {size : Size} (dst : Gpr) {src : SibdAddr} {m : MemOp}
    (hs : size ≠ .b1) (hm : src.memOp = some m) :
    DecodesTo (genCode (.imulRM size dst src)) (.bin .imul size (.reg (.lo dst)) (.mem m)) := by
  have ho : Opcode [0x0F, 0xAF] (.bin .imul true true) := opcode_two rfl
  have h8 (g : Gpr) : is8h size g = true → false = true := by simp [is8h, hs]
  apply decodesTo_mem (opSizePrefix_eq size) ho hm
  intro a _ ha rest
  have hsize := size_mem size false dst.val a
  rw [decide_eq_true hs] at hsize
  rw [decodeForm_bin hsize (decodeModrm_mem ha _ _ _ _ _), regOperand_mem (h8 dst)]
  rfl

theorem decodesTo_imulRI {size : Size} (dst : Gpr) (imm : BitVec 32) (hs : size ≠ .b1) :
    DecodesTo (genCode (.imulRI size dst imm))
      (.imul3 size (.reg (.lo dst)) (.reg (.lo dst)) (immOperand size imm)) := by
  simp only [genCode, hs, ite_false]
  have h8 : is8h size dst = true → false = true := by simp [is8h, hs]
  have hsize := size_regs size false dst.val dst.val
  rw [decide_eq_true hs] at hsize
  by_cases hbyte : imm.toNat ≤ 127
  · have himm8 : dispIsImm8 imm = true := by
      simp only [dispIsImm8, BitVec.toInt_eq_toNat_cond, Bool.and_eq_true, decide_eq_true_eq]
      split <;> omega
    simp only [hbyte, ite_true]
    apply decodesTo_reg (opSizePrefix_eq size) (@opcode_one 0x6B _ (by decide) rfl)
    intro rest
    rw [decodeForm_imul3 hsize (decodeModrm_reg _ _ _ _) (readImm_byte size himm8 rest),
      regOperand_regs h8, rmOp_regs h8]
    rfl
  · simp only [hbyte, ite_false]
    apply decodesTo_reg (opSizePrefix_eq size) (@opcode_one 0x69 _ (by decide) rfl)
    intro rest
    rw [decodeForm_imul3 hsize (decodeModrm_reg _ _ _ _) (readImm_le size imm rest),
      regOperand_regs h8, rmOp_regs h8]
    rfl

end Nibble.X64
