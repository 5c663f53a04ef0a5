import Nibble.X64.EncodeForm

/-!
# Operands and immediates come back

The register and memory operands the writers encode, and the immediates, are
read back. `DecodesTo` says it of the code of a whole instruction.
-/

namespace Nibble.X64

open Nibble.Lib

/-! ## Operands -/

/-- The memory operand of an address. -/
def SibdAddr.memOp : SibdAddr → Option MemOp
  | .global _ | .strLit _ | .floatLit _ => some (.rip 0)
  | .loc base index scale disp =>
    if 16 ≤ base then none
    else if scale = 0 then
      if index = regCount then some (.sib (some (Gpr.ofVal base)) none disp) else none
    else if 16 ≤ index ∨ index = Gpr.rsp.val then none
    else (getScaleMode scale).map fun m =>
      .sib (some (Gpr.ofVal base)) (some (Gpr.ofVal index, 2 ^ m)) disp

theorem dispMod_lt (hasDisp : Bool) (disp : BitVec 32) : dispMod hasDisp disp < 3 := by
  unfold dispMod
  split
  · decide
  · split <;> decide

theorem for_ripRel (e : ConstAddr) : (AddrBytes.ripRel e).For (.rip 0) where
  decodes := decodes_ripRel e
  mod_lt := by show 0 < 3; omega
  rm_lt := by show 5 < 8; omega
  disp := ⟨.patched e, rfl, rfl⟩

/-- Only an address without a base register has `mod = 00` and a displacement. -/
theorem writeDisp_eq {a : AddrBytes} (hm : a.mod = dispMod a.hasDisp a.disp) :
    a.writeDisp = some (.bytes a.dispBytes) := by
  unfold AddrBytes.writeDisp
  rw [if_neg]
  simp only [Bool.and_eq_true, beq_iff_eq]
  rintro ⟨⟨hd, h0⟩, -⟩
  rw [hm, hd] at h0
  unfold dispMod at h0
  split at h0
  · contradiction
  · split at h0 <;> omega

theorem for_sibBytes (base x : Gpr) {m : Nat} (disp : BitVec 32) (hm : m < 4) :
    (sibBytes base x m disp).For
      (.sib (some base) (if x = .rsp then none else some (x, 2 ^ m)) disp) where
  decodes := decodes_sibBytes base x disp hm
  mod_lt := dispMod_lt _ _
  rm_lt := by show 4 < 8; omega
  disp := ⟨_, writeDisp_eq rfl, rfl⟩

theorem for_baseBytes (base : Gpr) (disp : BitVec 32) (hsp : base.val % 8 ≠ 4) :
    (baseBytes base disp).For (.sib (some base) none disp) where
  decodes := decodes_baseBytes base disp hsp
  mod_lt := dispMod_lt _ _
  rm_lt := by show base.val % 8 < 8; omega
  disp := ⟨_, writeDisp_eq rfl, rfl⟩

/-- An address with a memory operand has the bytes of that operand. -/
theorem getAddrBytes_for {addr : SibdAddr} {op : MemOp} (h : addr.memOp = some op) :
    ∃ a, getAddrBytes addr = some a ∧ a.For op := by
  cases addr with
  | global s => cases h; exact ⟨_, rfl, for_ripRel _⟩
  | strLit i => cases h; exact ⟨_, rfl, for_ripRel _⟩
  | floatLit i => cases h; exact ⟨_, rfl, for_ripRel _⟩
  | loc base index scale disp =>
    simp only [SibdAddr.memOp] at h
    split at h
    · cases h
    · rename_i hbase
      obtain ⟨g, rfl⟩ : ∃ g : Gpr, base = g.val :=
        ⟨Gpr.ofVal base, (Gpr.val_ofVal base (by omega)).symm⟩
      rw [Gpr.ofVal_val] at h
      split at h
      · rename_i hs
        split at h
        · rename_i hi
          cases h
          subst hs hi
          rw [getAddrBytes_base]
          by_cases hsp : g.val % 8 = 4
          · rw [if_pos hsp]
            exact ⟨_, rfl, for_sibBytes g .rsp disp (by omega)⟩
          · rw [if_neg hsp]
            exact ⟨_, rfl, for_baseBytes g disp hsp⟩
        · cases h
      · split at h
        · cases h
        · rename_i hi
          obtain ⟨x, rfl⟩ : ∃ x : Gpr, index = x.val :=
            ⟨Gpr.ofVal index, (Gpr.val_ofVal index (by omega)).symm⟩
          rw [Gpr.ofVal_val] at h
          obtain ⟨m, hm, rfl⟩ := Option.map_eq_some_iff.mp h
          have hx : x ≠ .rsp := by rintro rfl; exact hi (.inr rfl)
          have hfor := for_sibBytes g x disp (getScaleMode_eq hm).1
          rw [if_neg hx] at hfor
          exact ⟨_, getAddrBytes_index g x disp hm, hfor⟩

/-- A register operand comes back if a prefix is there whenever the register needs one. -/
theorem regOperand_regs {size : Size} {no8h : Bool} {g : Gpr} {rm : Nat}
    (h8 : is8h size g = true → no8h = true) :
    Prefixes.regOperand ⟨decide (size = .b2), rexOfRegs (decide (size = .b8)) no8h g.val rm⟩ size
      (g.val % 8) = .reg (.lo g) := by
  rw [Prefixes.regOperand, regOp_lo]
  · rw [bits_rexOfRegs]
  · intro hs hr
    exact val_lt_of_rexOfRegs hr (.inl rfl) hs h8

theorem regOperand_mem {size : Size} {no8h : Bool} {g : Gpr} {a : AddrBytes}
    (h8 : is8h size g = true → no8h = true) :
    Prefixes.regOperand ⟨decide (size = .b2), rexOfMem (decide (size = .b8)) no8h g.val a⟩ size
      (g.val % 8) = .reg (.lo g) := by
  rw [Prefixes.regOperand, regOp_lo]
  · rw [bits_rexOfMem]
  · intro hs hr
    exact val_lt_of_rexOfMem hr rfl hs h8

/-- The same in the `r/m` field, where the other operand may have another size. -/
theorem rmOp_regs {size : Size} {p w no8h : Bool} {g : Gpr} {reg : Nat}
    (h8 : is8h size g = true → no8h = true) :
    Prefixes.rmOp ⟨p, rexOfRegs w no8h reg g.val⟩ size (.reg (g.val % 8)) = .reg (.lo g) := by
  rw [Prefixes.rmOp, regOp_lo]
  · rw [bits_rexOfRegs]
  · intro hs hr
    exact val_lt_of_rexOfRegs hr (.inr rfl) hs h8

theorem size_regs (size : Size) (no8h : Bool) (reg rm : Nat) :
    Prefixes.size ⟨decide (size = .b2), rexOfRegs (decide (size = .b8)) no8h reg rm⟩
      (decide (size ≠ .b1)) = size := by
  apply size_eq
  · rfl
  · rw [bits_rexOfRegs]

theorem size_mem (size : Size) (no8h : Bool) (reg : Nat) (a : AddrBytes) :
    Prefixes.size ⟨decide (size = .b2), rexOfMem (decide (size = .b8)) no8h reg a⟩
      (decide (size ≠ .b1)) = size := by
  apply size_eq
  · rfl
  · rw [bits_rexOfMem]

/-! ## Immediates -/

theorem toNat_signExtend_of_ne (size : Size) (h : size ≠ .b8) (imm : BitVec 32) :
    (imm.signExtend size.bits).toNat = imm.toNat % 2 ^ (8 * size.bytes) := by
  have hle : size.bits ≤ 32 := by cases size <;> first | contradiction | decide
  rw [BitVec.signExtend_eq_setWidth_of_le _ hle, BitVec.toNat_setWidth]
  rfl

/-- The immediate of a 64-bit instruction is four bytes that sign-extend. -/
theorem readImm_le (size : Size) (imm : BitVec 32) (rest : List UInt8) :
    readImm size false (leBytes (if size = .b8 then 4 else size.bytes) imm.toNat ++ rest) =
      some (.imm (imm.signExtend size.bits).toNat, rest) := by
  by_cases h8 : size = .b8
  · have hn : BitVec.ofNat 32 (imm.toNat % 2 ^ (8 * 4)) = imm := by
      rw [Nat.mod_eq_of_lt imm.isLt, BitVec.ofNat_toNat, BitVec.setWidth_eq]
    simp only [readImm, Bool.false_eq_true, ite_false, h8, ite_true, readLe_leBytes,
      Option.map_some, hn]
  · simp only [readImm, Bool.false_eq_true, ite_false, h8, readLe_leBytes, Option.map_some,
      toNat_signExtend_of_ne size h8]

theorem readImm_byte (size : Size) {imm : BitVec 32} (h : dispIsImm8 imm = true)
    (rest : List UInt8) :
    readImm size true (leBytes 1 imm.toNat ++ rest) =
      some (.imm (imm.signExtend size.bits).toNat, rest) := by
  have hn : BitVec.ofNat 8 (imm.toNat % 2 ^ (8 * 1)) = BitVec.ofNat 8 imm.toNat := by
    apply BitVec.eq_of_toNat_eq
    simp
  have himm := signExtend_signExtend (BitVec.ofNat 8 imm.toNat) size.bits
    (by omega : 8 ≤ 32) (by omega)
  rw [signExtend_of_dispIsImm8 h] at himm
  simp only [readImm, ite_true, readLe_leBytes, Option.map_some, hn, himm]

theorem readImm_immBytes (size : Size) (imm : BitVec 32) (rest : List UInt8) :
    readImm size (decide (size ≠ .b1) && dispIsImm8 imm) (immBytes size imm ++ rest) =
      some (.imm (imm.signExtend size.bits).toNat, rest) := by
  unfold immBytes
  by_cases h8 : dispIsImm8 imm = true
  · rw [if_pos h8]
    by_cases h1 : size = .b1
    · subst h1
      rw [show (decide (Size.b1 ≠ .b1) && dispIsImm8 imm) = false by rfl]
      exact readImm_le .b1 imm rest
    · rw [show (decide (size ≠ .b1) && dispIsImm8 imm) = true by simp [h1, h8]]
      exact readImm_byte size h8 rest
  · rw [if_neg h8, show (decide (size ≠ .b1) && dispIsImm8 imm) = false by simp [h8]]
    exact readImm_le size imm rest

/-! ## Forms -/

/-- The code exists and its bytes are read as `m`, whatever bytes follow. -/
def DecodesTo (c : Option Code) (m : MInstr) : Prop :=
  ∃ code, c = some code ∧ ∀ rest, decode (code.bytes ++ rest) = some (m, rest)

section

variable {p w no8h : Bool} {pre opcode imm : List UInt8} {form : Form} {reg : Nat} {m : MInstr}

theorem decodesTo_reg {rm : Nat} (hp : pre = if p then [0x66] else []) (ho : Opcode opcode form)
    (h : ∀ rest, decodeForm ⟨p, rexOfRegs w no8h reg rm⟩ (modrmByte 3 reg rm :: (imm ++ rest))
      form = some (m, rest)) :
    DecodesTo (some (.plain (regForm pre w no8h opcode reg rm) imm)) m := by
  refine ⟨_, rfl, fun rest => ?_⟩
  rw [← h rest, ← decode_regForm hp ho]
  simp [Code.plain, Code.bytes, Disp.toBytes]

theorem decodesTo_mem {addr : SibdAddr} {op : MemOp} (hp : pre = if p then [0x66] else [])
    (ho : Opcode opcode form) (ha : addr.memOp = some op)
    (h : ∀ a, getAddrBytes addr = some a → a.For op → ∀ rest, decodeForm ⟨p, rexOfMem w no8h reg a⟩
      (modrmByte a.mod reg a.rm :: (a.tail ++ (imm ++ rest))) form = some (m, rest)) :
    DecodesTo (memForm pre w no8h opcode reg addr imm) m := by
  obtain ⟨a, hbytes, hfor⟩ := getAddrBytes_for ha
  obtain ⟨d, hd, hdisp⟩ := hfor.disp
  refine ⟨⟨memHead pre w no8h opcode reg a, d, imm⟩, ?_, fun rest => ?_⟩
  · simp [memForm, hbytes, hd]
  · rw [← h a hbytes hfor rest, ← decode_memForm hp ho]
    simp [Code.bytes, hdisp]

end

theorem opcode_one {b : UInt8} {form : Form} (hb : b ≠ 0x66 ∧ decodeRex b = none ∧ b ≠ 0x0F)
    (h : decodeOpcode1 b.toNat = some form) : Opcode [b] form where
  isOpcode := ⟨b, [], rfl, hb.1, hb.2.1⟩
  decode rest := by
    show decodeOpcode (b :: rest) = _
    simp only [decodeOpcode, hb.2.2, ite_false, h, Option.map_some]

theorem opcode_two {b : UInt8} {form : Form} (h : decodeOpcode2 b.toNat = some form) :
    Opcode [0x0F, b] form where
  isOpcode := ⟨0x0F, [b], rfl, by decide, by decide⟩
  decode rest := by
    show decodeOpcode (0x0F :: b :: rest) = _
    simp only [decodeOpcode, ite_true, h, Option.map_some]

end Nibble.X64
