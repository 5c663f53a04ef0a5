import Nibble.X64.EncodeFamily

/-!
# The encoder agrees with the decoder

`Instr.machine` is the machine instruction an X64 instruction of the integer
families names, `Instr.decoded` the one its bytes are meant to be read as: a
64-bit move of a small non-negative constant is written as the 32-bit move,
which clears the upper half. A byte move between registers looks only at its
source when it decides on an empty REX prefix, so its destination is lost
where the source needs none; every other instruction is read back.
-/

namespace Nibble.X64

open Nibble.Lib

/-! ## The machine instruction -/

/-- The source of a register move: the high byte register if it is flagged. -/
def movSrcOp (srcRH : Bool) (size : Size) (src : Gpr) : Operand :=
  .reg (if size = .b1 && srcRH then .hi src else .lo src)

/-- The machine instruction that an instruction of the integer families names. -/
def Instr.machine : Instr → Option MInstr
  | .aluRR op size dst src => some (.bin (.alu op) size (.reg (.lo dst)) (.reg (.lo src)))
  | .aluRM op size dst src =>
    src.memOp.map fun m => .bin (.alu op) size (.reg (.lo dst)) (.mem m)
  | .aluMR op size dst src =>
    dst.memOp.map fun m => .bin (.alu op) size (.mem m) (.reg (.lo src))
  | .aluRI op size dst imm =>
    some (.bin (.alu op) size (.reg (.lo dst)) (immOperand size imm))
  | .aluMI op size dst imm =>
    dst.memOp.map fun m => .bin (.alu op) size (.mem m) (immOperand size imm)
  | .imulRR size dst src => some (.bin .imul size (.reg (.lo dst)) (.reg (.lo src)))
  | .imulRM size dst src => src.memOp.map fun m => .bin .imul size (.reg (.lo dst)) (.mem m)
  | .imulRI size dst imm =>
    some (.imul3 size (.reg (.lo dst)) (.reg (.lo dst)) (immOperand size imm))
  | .raxR op size src => some (.un (.rax op) size (.reg (.lo src)))
  | .raxM op size src => src.memOp.map fun m => .un (.rax op) size (.mem m)
  | .shiftRR op size dst => some (.shift op size (.reg (.lo dst)) none)
  | .shiftMR op size dst => dst.memOp.map fun m => .shift op size (.mem m) none
  | .shiftRI op size dst imm => some (.shift op size (.reg (.lo dst)) (some imm.toNat))
  | .shiftMI op size dst imm => dst.memOp.map fun m => .shift op size (.mem m) (some imm.toNat)
  | .unaryR op size dst => some (.un (.unary op) size (.reg (.lo dst)))
  | .unaryM op size dst => dst.memOp.map fun m => .un (.unary op) size (.mem m)
  | .movRR srcRH size dst src =>
    some (.bin .mov size (.reg (.lo dst)) (movSrcOp srcRH size src))
  | .movRM size dst src => src.memOp.map fun m => .bin .mov size (.reg (.lo dst)) (.mem m)
  | .movMR srcRH size dst src =>
    dst.memOp.map fun m => .bin .mov size (.mem m) (movSrcOp srcRH size src)
  | .movRI size dst imm =>
    some (.bin .mov size (.reg (.lo dst)) (.imm (imm.setWidth size.bits).toNat))
  | .movMI size dst imm => dst.memOp.map fun m => .bin .mov size (.mem m) (immOperand size imm)
  | .movExtRR op dstSize dst srcSize src =>
    some (.movx op dstSize (.reg (.lo dst)) srcSize (.reg (.lo src)))
  | .movExtRM op dstSize dst srcSize src =>
    src.memOp.map fun m => .movx op dstSize (.reg (.lo dst)) srcSize (.mem m)
  | .movsxdRR dstSize dst srcSize src =>
    some (.movx .movsx dstSize (.reg (.lo dst)) srcSize (.reg (.lo src)))
  | .movsxdRM dstSize dst srcSize src =>
    src.memOp.map fun m => .movx .movsx dstSize (.reg (.lo dst)) srcSize (.mem m)
  | .setccR c dst => some (.setcc c (.reg (.lo dst)))
  | .setccM c dst => dst.memOp.map fun m => .setcc c (.mem m)
  | _ => none

/-- A 64-bit constant that a 32-bit move loads. -/
def isShortMov (size : Size) (imm : BitVec 64) : Bool :=
  size == .b8 && 0 ≤ imm.toInt && imm.toInt ≤ 2147483647

/-- The machine instruction the bytes are meant to be read as. -/
def Instr.decoded : Instr → Option MInstr
  | .movRI size dst imm =>
    if isShortMov size imm then
      some (.bin .mov .b4 (.reg (.lo dst)) (.imm imm.toNat))
    else Instr.machine (.movRI size dst imm)
  | i => i.machine

/-! ## The instructions that are emitted -/

/-- An address relative to `RBP`, as the emitter makes it for a stack slot. -/
def SibdAddr.isRbpOffset : SibdAddr → Bool
  | .loc base index scale _ => base == Gpr.rbp.val && index == regCount && scale == 0
  | _ => false

/-- What the emitter respects: there is no one-byte `IMUL`, extending moves widen, and a high byte
register is `ah`, `ch`, `dh` or `bh`, stored to a stack slot if it is stored to memory. -/
def Instr.emitted : Instr → Bool
  | .imulRR size _ _ | .imulRM size _ _ | .imulRI size _ _ => size != .b1
  | .movExtRR _ dstSize _ srcSize _ | .movExtRM _ dstSize _ srcSize _ =>
    (srcSize == .b1 || srcSize == .b2) && srcSize.bytes < dstSize.bytes
  | .movsxdRR dstSize _ srcSize _ | .movsxdRM dstSize _ srcSize _ =>
    dstSize == .b8 && srcSize == .b4
  | .movRR srcRH size _ src => !srcRH || size == .b1 && src.val < 4
  | .movMR srcRH size dst src => !srcRH || size == .b1 && src.val < 4 && dst.isRbpOffset
  | _ => true

/-- A byte move whose destination needs a REX prefix that its source does not ask for, or that its
source, a high byte register, excludes. -/
def Instr.losesDst : Instr → Bool
  | .movRR srcRH size dst src =>
    size == .b1 && if srcRH then 4 ≤ dst.val else dst.aliased8h && src.val < 4
  | _ => false

/-! ## Moves -/

theorem opcode_movRegRm (size : Size) :
    Opcode (bySize size 0x88 0x89) (.bin .mov (decide (size ≠ .b1)) false) :=
  @opcode_bySize _ _ (fun w => .bin .mov w false) (opcode_one (by decide) rfl)
    (opcode_one (by decide) rfl) size

/-- A high byte register is read where there is no REX prefix. -/
theorem regOp_hi {g : Gpr} (hg : g.val < 4) (ext : Bool) :
    Prefixes.regOp ⟨false, none⟩ .b1 ext (g.val8h % 8) = .hi g := by
  revert hg ext
  cases g <;> decide

theorem val8h_lt (g : Gpr) : g.val8h < 8 := by cases g <;> decide

theorem rexOfRegs_none {reg rm : Nat} (hreg : reg < 8) (hrm : rm < 8) :
    rexOfRegs false false reg rm = none := by
  have h1 : ¬ 7 < reg := by omega
  have h2 : ¬ 7 < rm := by omega
  simp [rexOfRegs, h1, h2]

theorem lo_rmOp_of_lt {p : Bool} {g : Gpr} (hg : g.val < 4) :
    Prefixes.rmOp ⟨p, none⟩ .b1 (.reg (g.val % 8)) = .reg (.lo g) := by
  have hext : decide (7 < g.val) = false := decide_eq_false (by omega)
  rw [Prefixes.rmOp, show Prefixes.bits ⟨p, none⟩ = ⟨false, false, false, false⟩ by rfl,
    regOp_lo hext.symm]
  intro _ _
  exact hg

/-- A byte register needs no prefix below 4; from 8 on it always has one. -/
theorem is8h_of_ge {g : Gpr} (h4 : 4 ≤ g.val) (h8 : g.val < 8) : is8h .b1 g = true := by
  revert h4 h8
  cases g <;> decide

theorem decodesTo_movRR {srcRH : Bool} {size : Size} {dst src : Gpr}
    (he : Instr.emitted (.movRR srcRH size dst src) = true)
    (hl : Instr.losesDst (.movRR srcRH size dst src) = false) :
    DecodesTo (genCode (.movRR srcRH size dst src))
      (.bin .mov size (.reg (.lo dst)) (movSrcOp srcRH size src)) := by
  apply decodesTo_reg (opSizePrefix_eq size) (opcode_movRegRm size)
  intro rest
  rw [decodeForm_bin (size_regs _ _ _ _) (decodeModrm_reg _ _ _ _)]
  by_cases hrh : srcRH = true
  · subst hrh
    simp only [Instr.emitted, Bool.not_true, Bool.false_or, Bool.and_eq_true, beq_iff_eq,
      decide_eq_true_eq] at he
    obtain ⟨rfl, hsrc⟩ := he
    have hdst : dst.val < 4 := by simpa [Instr.losesDst] using hl
    have hrex : rexOfRegs false false src.val8h dst.val = none :=
      rexOfRegs_none (val8h_lt src) (by omega)
    show some (MInstr.bin .mov .b1 (Prefixes.rmOp ⟨false, rexOfRegs false false src.val8h dst.val⟩
      .b1 (.reg (dst.val % 8))) (.reg (Prefixes.regOp ⟨false, rexOfRegs false false src.val8h
        dst.val⟩ .b1 _ (src.val8h % 8))), rest) = _
    rw [hrex, lo_rmOp_of_lt hdst, regOp_hi hsrc]
    rfl
  · rw [Bool.not_eq_true] at hrh
    subst hrh
    have hval : movSrcVal false size src = src.val := by simp [movSrcVal]
    have h8 : movSrc8h false size src = is8h size src := by simp [movSrc8h]
    rw [hval, h8, regOperand_regs id]
    have hdst : Prefixes.rmOp ⟨decide (size = .b2), rexOfRegs (decide (size = .b8))
        (is8h size src) src.val dst.val⟩ size (.reg (dst.val % 8)) = .reg (.lo dst) := by
      rw [Prefixes.rmOp, regOp_lo (by rw [bits_rexOfRegs])]
      rintro rfl hr
      by_contra h4
      have hsrc := val_lt_of_rexOfRegs hr (.inl rfl) rfl id
      have hdst8 : is8h .b1 dst = true :=
        is8h_of_ge (by omega) (by
          by_contra h8
          simp [rexOfRegs, show 7 < dst.val by omega] at hr)
      have haliased : dst.aliased8h = true := by simpa [is8h] using hdst8
      simp [Instr.losesDst, haliased, hsrc] at hl
    rw [hdst]
    simp [movSrcOp]

/-- A stack slot needs no bit of the REX prefix. -/
theorem rexOfMem_rbpOffset {dst : SibdAddr} {a : AddrBytes} {reg : Nat}
    (hd : dst.isRbpOffset = true) (ha : getAddrBytes dst = some a) (hreg : reg < 8) :
    rexOfMem false false reg a = none := by
  cases dst with
  | loc base index scale disp =>
    simp only [SibdAddr.isRbpOffset, Bool.and_eq_true, beq_iff_eq] at hd
    obtain ⟨⟨rfl, rfl⟩, rfl⟩ := hd
    rw [getAddrBytes_base, if_neg (by decide)] at ha
    cases ha
    have h7 : ¬ 7 < reg := by omega
    simp [rexOfMem, baseBytes, h7]
  | global s => cases hd
  | strLit i => cases hd
  | floatLit i => cases hd

theorem decodesTo_movMR {srcRH : Bool} {size : Size} {dst : SibdAddr} {src : Gpr} {m : MemOp}
    (he : Instr.emitted (.movMR srcRH size dst src) = true) (hm : dst.memOp = some m) :
    DecodesTo (genCode (.movMR srcRH size dst src))
      (.bin .mov size (.mem m) (movSrcOp srcRH size src)) := by
  apply decodesTo_mem (opSizePrefix_eq size) (opcode_movRegRm size) hm
  intro a hbytes ha rest
  rw [decodeForm_bin (size_mem _ _ _ _) (decodeModrm_mem ha _ _ _ _ _)]
  by_cases hrh : srcRH = true
  · subst hrh
    simp only [Instr.emitted, Bool.not_true, Bool.false_or, Bool.and_eq_true, beq_iff_eq,
      decide_eq_true_eq] at he
    obtain ⟨⟨rfl, hsrc⟩, hdst⟩ := he
    have hrex := rexOfMem_rbpOffset hdst hbytes (val8h_lt src)
    show some (MInstr.bin .mov .b1 (.mem m) (.reg (Prefixes.regOp ⟨false, rexOfMem false false
      src.val8h a⟩ .b1 _ (src.val8h % 8))), rest) = _
    rw [hrex, regOp_hi hsrc]
    rfl
  · rw [Bool.not_eq_true] at hrh
    subst hrh
    have hval : movSrcVal false size src = src.val := by simp [movSrcVal]
    have h8 : movSrc8h false size src = is8h size src := by simp [movSrc8h]
    rw [hval, h8, regOperand_mem id]
    simp [Prefixes.rmOp, movSrcOp]

theorem decodesTo_movMI {size : Size} {dst : SibdAddr} {m : MemOp} (imm : BitVec 32)
    (hm : dst.memOp = some m) :
    DecodesTo (genCode (.movMI size dst imm)) (.bin .mov size (.mem m) (immOperand size imm)) := by
  have ho : Opcode (bySize size 0xC6 0xC7) (.movImm (decide (size ≠ .b1))) :=
    opcode_bySize (opcode_one (by decide) rfl) (opcode_one (by decide) rfl) size
  apply decodesTo_mem (opSizePrefix_eq size) ho hm
  intro a _ ha rest
  rw [decodeForm_movImm (size_mem _ _ _ _) (decodeModrm_mem ha _ _ _ _ _)
    (readImm_le size imm rest)]
  rfl

/-- The opcode that names the destination of a move of a constant. -/
theorem opcode_movRegImm (size : Size) (dst : Gpr) :
    Opcode [(if size = .b1 then 0xB0 else 0xB8) + UInt8.ofNat (dst.val % 8)]
      (.movRegImm (decide (size ≠ .b1)) (dst.val % 8)) := by
  apply opcode_one
  · cases size <;> cases dst <;> decide
  · cases size <;> cases dst <;> rfl

theorem rexRegs_zero (w no8h : Bool) (g : Gpr) :
    rexRegs w no8h 0 g.val =
      if w || g.isExt then [rexOpcodeReg w g.val]
      else if no8h then [rexPrefix false false false false] else [] := by
  simp [rexRegs, Gpr.isExt, rexNosib, rexOpcodeReg]

theorem decodesTo_movRegImm (size : Size) (dst : Gpr) (n : Nat) :
    DecodesTo (some (.plain (opSizePrefix size ++
        rexRegs (decide (size = .b8)) (is8h size dst) 0 dst.val ++
        [(if size = .b1 then 0xB0 else 0xB8) + UInt8.ofNat (dst.val % 8)])
        (leBytes size.bytes n)))
      (.bin .mov size (.reg (.lo dst)) (.imm (n % 2 ^ size.bits))) := by
  refine ⟨_, rfl, fun rest => ?_⟩
  have hbytes (c i : List UInt8) : (Code.plain c i).bytes ++ rest = c ++ (i ++ rest) := by
    simp [Code.plain, Code.bytes, Disp.toBytes]
  rw [hbytes, opSizePrefix_eq, rexRegs_eq, decode_eq _ _ (opcode_movRegImm size dst)]
  have hreg := @rmOp_regs size (decide (size = .b2)) (decide (size = .b8)) (is8h size dst) dst 0 id
  simp only [decodeForm, size_regs, readLe_leBytes, Option.bind_eq_bind, Option.bind_some]
  simp only [Prefixes.rmOp] at hreg
  rw [hreg]
  rfl

/-- A constant in the range of a sign-extended 32-bit immediate. -/
theorem signExtend_of_range {imm : BitVec 64} (h1 : -2147483648 ≤ imm.toInt)
    (h2 : imm.toInt ≤ 2147483647) :
    (BitVec.ofNat 32 (imm.toNat % 2 ^ (8 * 4))).signExtend 64 = imm := by
  apply BitVec.eq_of_toInt_eq
  rw [BitVec.toInt_signExtend_of_le (by omega), BitVec.toInt_eq_toNat_cond,
    BitVec.toInt_eq_toNat_cond]
  rw [BitVec.toInt_eq_toNat_cond] at h1 h2
  simp only [BitVec.toNat_ofNat]
  have := imm.isLt
  split at h1 <;> split <;> omega

/-- A 64-bit move of a negative constant that fits takes the sign-extended form. -/
theorem decodesTo_movImm_sext (dst : Gpr) {imm : BitVec 64} (h1 : -2147483648 ≤ imm.toInt)
    (h2 : imm.toInt ≤ 2147483647) :
    DecodesTo (some (.plain (regForm [] true false [0xC7] 0 dst.val) (leBytes 4 imm.toNat)))
      (.bin .mov .b8 (.reg (.lo dst)) (.imm imm.toNat)) := by
  have ho : Opcode [0xC7] (.movImm true) := opcode_one (by decide) rfl
  apply decodesTo_reg (opSizePrefix_eq .b8) ho
  intro rest
  have hsize : Prefixes.size ⟨decide (Size.b8 = .b2), rexOfRegs true false 0 dst.val⟩ true = .b8 :=
    size_regs .b8 false 0 dst.val
  have hmodrm := decodeModrm_reg ⟨decide (Size.b8 = .b2), rexOfRegs true false 0 dst.val⟩ 0 dst.val
    (leBytes 4 imm.toNat ++ rest)
  have himm : readImm .b8 false (leBytes 4 imm.toNat ++ rest) = some (.imm imm.toNat, rest) := by
    simp only [readImm, Bool.false_eq_true, ite_false, ite_true, readLe_leBytes, Option.map_some]
    rw [show Size.bits .b8 = 64 by rfl, signExtend_of_range h1 h2]
  rw [decodeForm_movImm hsize hmodrm himm, rmOp_regs (by simp [is8h])]

theorem decodesTo_movRI (size : Size) (dst : Gpr) (imm : BitVec 64) {m : MInstr}
    (hm : Instr.decoded (.movRI size dst imm) = some m) :
    DecodesTo (genCode (.movRI size dst imm)) m := by
  show DecodesTo (some (genMovRI size dst imm)) m
  unfold genMovRI
  by_cases hshort : size = .b8 ∧ 0 ≤ imm.toInt ∧ imm.toInt ≤ 2147483647
  · rw [if_pos hshort]
    obtain ⟨rfl, h0, h31⟩ := hshort
    simp only [Instr.decoded, isShortMov, h0, h31, beq_self_eq_true, decide_true, Bool.and_self,
      ite_true, Option.some.injEq] at hm
    subst hm
    have hsmall : imm.toNat % 2 ^ Size.bits .b4 = imm.toNat := by
      rw [BitVec.toInt_eq_toNat_cond] at h0 h31
      have := imm.isLt
      show imm.toNat % 2 ^ 32 = imm.toNat
      split at h0 <;> omega
    have h := decodesTo_movRegImm .b4 dst imm.toNat
    rw [hsmall] at h
    rw [rexRegs_zero] at h
    simpa [opSizePrefix, is8h, Size.bytes] using h
  · rw [if_neg hshort]
    have hs : isShortMov size imm = false := by
      simp only [isShortMov, Bool.and_eq_false_iff, beq_eq_false_iff_ne, decide_eq_false_iff_not]
      by_contra h
      push Not at h
      exact hshort ⟨h.1.1, h.1.2, h.2⟩
    simp only [Instr.decoded, hs, Bool.false_eq_true, ite_false, Instr.machine,
      Option.some.injEq] at hm
    subst hm
    by_cases hmid : size = .b8 ∧ -2147483648 ≤ imm.toInt ∧ imm.toInt ≤ 2147483647
    · rw [if_pos hmid]
      obtain ⟨rfl, h1, h2⟩ := hmid
      have h := decodesTo_movImm_sext dst h1 h2
      rw [show Size.bits .b8 = 64 by rfl, BitVec.setWidth_eq]
      simpa [regForm, rexRegs] using h
    · rw [if_neg hmid]
      have h := decodesTo_movRegImm size dst imm.toNat
      rw [rexRegs_zero] at h
      rw [BitVec.toNat_setWidth]
      exact h

/-! ## Instructions -/

theorem opcode_alu (op : AluOp) (size : Size) :
    Opcode (bySize size op.opcode (op.opcode + 1)) (.bin (.alu op) (decide (size ≠ .b1)) false) := by
  cases op <;> exact @opcode_bySize _ _ (fun w => .bin _ w false) (opcode_one (by decide) rfl)
    (opcode_one (by decide) rfl) size

theorem opcode_aluRM (op : AluOp) (size : Size) :
    Opcode (bySize size (op.opcode + 2) (op.opcode + 3))
      (.bin (.alu op) (decide (size ≠ .b1)) true) := by
  cases op <;> exact @opcode_bySize _ _ (fun w => .bin _ w true) (opcode_one (by decide) rfl)
    (opcode_one (by decide) rfl) size

theorem opcode_movRM (size : Size) :
    Opcode (bySize size 0x8A 0x8B) (.bin .mov (decide (size ≠ .b1)) true) :=
  @opcode_bySize _ _ (fun w => .bin .mov w true) (opcode_one (by decide) rfl)
    (opcode_one (by decide) rfl) size

theorem decodeGroup3_unary (op : UnaryOp) : decodeGroup3 (op.ext % 8) = some (.unary op) := by
  cases op <;> rfl

theorem decodeGroup3_rax (op : RaxOp) : decodeGroup3 (op.ext % 8) = some (.rax op) := by
  cases op <;> rfl

theorem ne_b1_of_wider {srcSize dstSize : Size} (h : srcSize.bytes < dstSize.bytes) :
    dstSize ≠ .b1 := by
  rintro rfl
  cases srcSize <;> contradiction

theorem opcode_movsxd : Opcode [0x63] (.movx .movsx .b4) := opcode_one (by decide) rfl

theorem decodesTo_movsxdRR (dst src : Gpr) :
    DecodesTo (genCode (.movsxdRR .b8 dst .b4 src))
      (.movx .movsx .b8 (.reg (.lo dst)) .b4 (.reg (.lo src))) := by
  show DecodesTo (some (.plain (regForm (opSizePrefix .b8) (decide (Size.b8 = .b8)) false [0x63]
    dst.val src.val) [])) _
  exact decodesTo_movExtRR dst src opcode_movsxd (opSizePrefix_eq .b8) (by decide)
    (by simp [is8h])

theorem decodesTo_movsxdRM (dst : Gpr) {src : SibdAddr} {m : MemOp} (hm : src.memOp = some m) :
    DecodesTo (genCode (.movsxdRM .b8 dst .b4 src))
      (.movx .movsx .b8 (.reg (.lo dst)) .b4 (.mem m)) := by
  show DecodesTo (memForm (opSizePrefix .b8) (decide (Size.b8 = .b8)) false [0x63] dst.val src [])
    _
  exact decodesTo_movExtRM dst opcode_movsxd (opSizePrefix_eq .b8) (by decide) hm

/-- An emitted instruction of the integer families is read back, apart from the byte moves that
lose their destination. -/
theorem decodesTo_genCode (i : Instr) (m : MInstr) (he : i.emitted = true)
    (hl : i.losesDst = false) (hm : i.decoded = some m) : DecodesTo (genCode i) m := by
  cases i with
  | aluRR op size dst src => cases hm; exact decodesTo_binaryInstrRR dst src (opcode_alu op size)
  | aluRM op size dst src =>
    obtain ⟨mo, hmo, rfl⟩ := Option.map_eq_some_iff.mp hm
    exact decodesTo_binaryInstrRM dst (opcode_aluRM op size) hmo
  | aluMR op size dst src =>
    obtain ⟨mo, hmo, rfl⟩ := Option.map_eq_some_iff.mp hm
    exact decodesTo_binaryInstrMR src (opcode_alu op size) hmo
  | aluRI op size dst imm => cases hm; exact decodesTo_binaryInstrRI dst imm
  | aluMI op size dst imm =>
    obtain ⟨mo, hmo, rfl⟩ := Option.map_eq_some_iff.mp hm
    exact decodesTo_binaryInstrMI imm hmo
  | imulRR size dst src => cases hm; exact decodesTo_imulRR dst src (by simpa [Instr.emitted] using he)
  | imulRM size dst src =>
    obtain ⟨mo, hmo, rfl⟩ := Option.map_eq_some_iff.mp hm
    exact decodesTo_imulRM dst (by simpa [Instr.emitted] using he) hmo
  | imulRI size dst imm => cases hm; exact decodesTo_imulRI dst imm (by simpa [Instr.emitted] using he)
  | raxR op size src => cases hm; exact decodesTo_group3R src (decodeGroup3_rax op)
  | raxM op size src =>
    obtain ⟨mo, hmo, rfl⟩ := Option.map_eq_some_iff.mp hm
    exact decodesTo_group3M (decodeGroup3_rax op) hmo
  | shiftRR op size dst => cases hm; exact decodesTo_shiftR dst (opcode_shiftCl size)
  | shiftMR op size dst =>
    obtain ⟨mo, hmo, rfl⟩ := Option.map_eq_some_iff.mp hm
    exact decodesTo_shiftM (opcode_shiftCl size) hmo
  | shiftRI op size dst imm => cases hm; exact decodesTo_shiftRI dst imm
  | shiftMI op size dst imm =>
    obtain ⟨mo, hmo, rfl⟩ := Option.map_eq_some_iff.mp hm
    exact decodesTo_shiftMI imm hmo
  | unaryR op size dst => cases hm; exact decodesTo_group3R dst (decodeGroup3_unary op)
  | unaryM op size dst =>
    obtain ⟨mo, hmo, rfl⟩ := Option.map_eq_some_iff.mp hm
    exact decodesTo_group3M (decodeGroup3_unary op) hmo
  | movRR srcRH size dst src => cases hm; exact decodesTo_movRR he hl
  | movRM size dst src =>
    obtain ⟨mo, hmo, rfl⟩ := Option.map_eq_some_iff.mp hm
    exact decodesTo_binaryInstrRM dst (opcode_movRM size) hmo
  | movMR srcRH size dst src =>
    obtain ⟨mo, hmo, rfl⟩ := Option.map_eq_some_iff.mp hm
    exact decodesTo_movMR he hmo
  | movRI size dst imm => exact decodesTo_movRI size dst imm hm
  | movMI size dst imm =>
    obtain ⟨mo, hmo, rfl⟩ := Option.map_eq_some_iff.mp hm
    exact decodesTo_movMI imm hmo
  | movExtRR op dstSize dst srcSize src =>
    cases hm
    simp only [Instr.emitted, Bool.and_eq_true, Bool.or_eq_true, beq_iff_eq,
      decide_eq_true_eq] at he
    exact decodesTo_movExtRR dst src (opcode_movExt op he.1) (opSizePrefix_eq dstSize)
      (ne_b1_of_wider he.2) id
  | movExtRM op dstSize dst srcSize src =>
    obtain ⟨mo, hmo, rfl⟩ := Option.map_eq_some_iff.mp hm
    simp only [Instr.emitted, Bool.and_eq_true, Bool.or_eq_true, beq_iff_eq,
      decide_eq_true_eq] at he
    exact decodesTo_movExtRM dst (opcode_movExt op he.1) (opSizePrefix_eq dstSize)
      (ne_b1_of_wider he.2) hmo
  | movsxdRR dstSize dst srcSize src =>
    cases hm
    simp only [Instr.emitted, Bool.and_eq_true, beq_iff_eq] at he
    obtain ⟨rfl, rfl⟩ := he
    exact decodesTo_movsxdRR dst src
  | movsxdRM dstSize dst srcSize src =>
    obtain ⟨mo, hmo, rfl⟩ := Option.map_eq_some_iff.mp hm
    simp only [Instr.emitted, Bool.and_eq_true, beq_iff_eq] at he
    obtain ⟨rfl, rfl⟩ := he
    exact decodesTo_movsxdRM dst hmo
  | setccR c dst => cases hm; exact decodesTo_setccR c dst
  | setccM c dst =>
    obtain ⟨mo, hmo, rfl⟩ := Option.map_eq_some_iff.mp hm
    exact decodesTo_setccM c hmo
  | _ => cases hm

/-- `cmp qword [r12 + 4*rcx - 200], -1`. -/
theorem decodesTo_genCode_cmp :
    DecodesTo (genCode (.aluMI .cmp .b8 (.loc 12 1 4 (-200)) (-1)))
      (.bin (.alu .cmp) .b8 (.mem (.sib (some .r12) (some (.rcx, 4)) (-200)))
        (.imm 0xFFFFFFFFFFFFFFFF)) :=
  decodesTo_genCode _ _ (by decide) (by decide) (by decide)

/-- `mov rax, 5` is written as `mov eax, 5`, and `mov dil, al` as `mov bh, al`. -/
theorem not_decodesTo_machine :
    (∃ m, Instr.machine (.movRI .b8 .rax 5) = some m ∧
      ¬ DecodesTo (genCode (.movRI .b8 .rax 5)) m) ∧
    ∃ m, Instr.machine (.movRR false .b1 .rdi .rax) = some m ∧
      ¬ DecodesTo (genCode (.movRR false .b1 .rdi .rax)) m := by
  constructor
  · refine ⟨_, rfl, ?_⟩
    rintro ⟨c, hc, h⟩
    cases hc
    exact absurd (h []) (by decide)
  · refine ⟨_, rfl, ?_⟩
    rintro ⟨c, hc, h⟩
    cases hc
    exact absurd (h []) (by decide)

end Nibble.X64
