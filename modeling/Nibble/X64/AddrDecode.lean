import Nibble.X64.AddrBytes

/-!
# Decoding an addressing mode

`memOp lregLoc a` is the memory operand an XIR address stands for once its
registers have their locations. What `getAddrBytes` yields for `getSibdAddr`
decodes to it for every address with a base register that names an index
exactly if it has a scale, and for every address of a global entity. Without
a base, or with a scale and no index, `getSibdAddr` writes `X64_REG_COUNT`
where `getAddrBytes` tests for `(u8)-1`, and `x64_reg_val` is read past its
end.
-/

namespace Nibble.X64

open Nibble.XIR (XReg XMemAddr Sibd)
open Nibble.Lib

/-! ## Fields -/

theorem modrmByte_toNat (mod reg rm : Nat) :
    (modrmByte mod reg rm).toNat = rm % 8 + 8 * (reg % 8) + 64 * (mod % 4) := by
  simp only [modrmByte, UInt8.toNat_ofNat']
  omega

@[simp] theorem modrmByte_rm (mod reg rm : Nat) : (modrmByte mod reg rm).toNat % 8 = rm % 8 := by
  rw [modrmByte_toNat]
  omega

@[simp] theorem modrmByte_reg (mod reg rm : Nat) :
    (modrmByte mod reg rm).toNat / 8 % 8 = reg % 8 := by
  rw [modrmByte_toNat]
  omega

@[simp] theorem modrmByte_mod (mod reg rm : Nat) :
    (modrmByte mod reg rm).toNat / 64 = mod % 4 := by
  rw [modrmByte_toNat]
  omega

@[simp] theorem decodeReg_val (g : Gpr) : decodeReg (decide (7 < g.val)) (g.val % 8) = g := by
  cases g <;> rfl

/-- A value that passes the one-byte test is recovered from its low byte. -/
theorem signExtend_of_dispIsImm8 {d : BitVec 32} (h : dispIsImm8 d = true) :
    (BitVec.ofNat 8 d.toNat).signExtend 32 = d := by
  simp only [dispIsImm8, Bool.and_eq_true, decide_eq_true_eq] at h
  apply BitVec.eq_of_toInt_eq
  rw [BitVec.toInt_signExtend_of_le (by decide), BitVec.toInt_eq_toNat_cond,
    BitVec.toInt_eq_toNat_cond]
  rw [BitVec.toInt_eq_toNat_cond] at h
  simp only [BitVec.toNat_ofNat]
  have := d.isLt
  split at h <;> split <;> omega

/-- The scale modes are the exponents of the scales. -/
theorem getScaleMode_eq {scale : BitVec 8} {m : Nat} (h : getScaleMode scale = some m) :
    m < 4 ∧ 2 ^ m = scale.toNat := by
  unfold getScaleMode at h
  split at h
  · cases h; subst scale; decide
  · split at h
    · cases h; subst scale; decide
    · split at h
      · cases h; subst scale; decide
      · split at h
        · cases h; subst scale; decide
        · cases h

/-- The displacement bytes of a register base decode to the displacement. -/
theorem decodeDisp_dispBytes {a : AddrBytes} {hasDisp : Bool} (rest : List UInt8)
    (hm : a.mod = dispMod hasDisp a.disp) (hd : a.hasDisp = hasDisp)
    (h0 : hasDisp = false → a.disp = 0) :
    decodeDisp a.mod (a.dispBytes ++ rest) = some (a.disp, rest) := by
  cases hasDisp with
  | false =>
    have hmod : a.mod = 0 := by simpa [dispMod] using hm
    simp [decodeDisp, AddrBytes.dispBytes, hmod, hd, h0 rfl]
  | true =>
    by_cases h8 : dispIsImm8 a.disp = true
    · have hmod : a.mod = 1 := by simpa [dispMod, h8] using hm
      have hn : BitVec.ofNat 8 (a.disp.toNat % 2 ^ (8 * 1)) = BitVec.ofNat 8 a.disp.toNat := by
        apply BitVec.eq_of_toNat_eq
        simp
      simp only [decodeDisp, AddrBytes.dispBytes, hmod, hd, Bool.not_true, Bool.false_eq_true,
        ite_false, one_ne_zero, false_and, ite_true, readLe_leBytes, Option.map_some, hn,
        signExtend_of_dispIsImm8 h8]
    · have hmod : a.mod = 2 := by simpa [dispMod, h8] using hm
      have hn : BitVec.ofNat 32 (a.disp.toNat % 2 ^ (8 * 4)) = a.disp := by
        rw [Nat.mod_eq_of_lt a.disp.isLt, BitVec.ofNat_toNat, BitVec.setWidth_eq]
      simp only [decodeDisp, AddrBytes.dispBytes, hmod, hd, Bool.not_true, Bool.false_eq_true,
        ite_false, false_and, OfNat.ofNat_ne_zero, OfNat.ofNat_ne_one, readLe_leBytes,
        Option.map_some, hn]

/-! ## Addresses with a base register -/

/-- What `getAddrBytes` yields decodes to `op`, whatever bytes follow. -/
def Decodes (b : AddrBytes) (op : MemOp) : Prop :=
  ∀ rest, decodeMem b.mod b.rm b.rexX b.rexB (b.tail ++ rest) = some (op, rest)

section

variable {base : Gpr} {disp : BitVec 32} {b : AddrBytes}

/-- Fields common to all modes with a base register. -/
structure BaseFields (base : Gpr) (disp : BitVec 32) (b : AddrBytes) : Prop where
  disp_eq : b.disp = disp
  hasDisp_eq : b.hasDisp = (disp != 0 || base.val % 8 == Gpr.rbp.val)
  mod_eq : b.mod = dispMod b.hasDisp disp
  rexB_eq : b.rexB = decide (7 < base.val)

theorem BaseFields.decodeDisp (h : BaseFields base disp b) (rest : List UInt8) :
    X64.decodeDisp b.mod (b.dispBytes ++ rest) = some (disp, rest) := by
  rw [decodeDisp_dispBytes rest (by rw [h.mod_eq, h.disp_eq]) rfl, h.disp_eq]
  intro h0
  rw [h.hasDisp_eq, Bool.or_eq_false_iff] at h0
  rw [h.disp_eq]
  simpa using h0.1

/-- Base `101` under `mod = 00` would be no base; such a base always has a displacement. -/
theorem BaseFields.not_noBase (h : BaseFields base disp b) : ¬ (base.val % 8 = 5 ∧ b.mod = 0) := by
  rintro ⟨h5, h0⟩
  have hd : b.hasDisp = true := by simp [h.hasDisp_eq, h5]
  rw [h.mod_eq, hd] at h0
  unfold dispMod at h0
  split at h0
  · contradiction
  · split at h0 <;> contradiction

theorem BaseFields.mod_lt (h : BaseFields base disp b) : b.mod < 3 := by
  rw [h.mod_eq, dispMod]
  split
  · decide
  · split <;> decide

/-- The form without a SIB byte. -/
theorem decodes_base (h : BaseFields base disp b) (hrm : b.rm = base.val % 8)
    (hsp : base.val % 8 ≠ 4) (hsib : b.hasSibByte = false) :
    Decodes b (.sib (some base) none disp) := by
  intro rest
  have hno := h.not_noBase
  simp only [decodeMem, hrm, hsp, ite_false, hno, AddrBytes.tail, hsib, Bool.false_eq_true,
    List.nil_append, h.decodeDisp, h.rexB_eq, decodeReg_val]
  rfl

/-- The form with a SIB byte. -/
theorem decodes_sib {x : Gpr} {m : Nat} (h : BaseFields base disp b) (hrm : b.rm = 4)
    (hsib : b.hasSibByte = true) (hbyte : b.sibByte = modrmByte m (x.val % 8) (base.val % 8))
    (hm : m < 4) (hx : b.rexX = decide (7 < x.val)) :
    Decodes b (.sib (some base) (if x = .rsp then none else some (x, 2 ^ m)) disp) := by
  intro rest
  have hno := h.not_noBase
  have hindex : (x.val % 8 = 4 ∧ !decide (7 < x.val)) ↔ x = .rsp := by cases x <;> decide
  simp only [decodeMem, hrm, ite_true, AddrBytes.tail, hsib, List.cons_append,
    List.nil_append, readLe_one, Option.bind_eq_bind, Option.bind_some, hbyte, modrmByte_reg,
    modrmByte_rm, modrmByte_mod, Nat.mod_mod, hno, ite_false, h.decodeDisp, h.rexB_eq, hx,
    decodeReg_val, Nat.mod_eq_of_lt hm, hindex]
  rfl

end

/-- The fields with a SIB byte, and without one. -/
def sibBytes (base x : Gpr) (m : Nat) (disp : BitVec 32) : AddrBytes :=
  let hasDisp := disp != 0 || base.val % 8 == Gpr.rbp.val
  { mod := dispMod hasDisp disp, rm := 4, sibByte := modrmByte m (x.val % 8) (base.val % 8),
    disp := disp, rexB := 7 < base.val, rexX := 7 < x.val, hasDisp := hasDisp,
    hasSibByte := true, patchEntity := none }

def baseBytes (base : Gpr) (disp : BitVec 32) : AddrBytes :=
  let hasDisp := disp != 0 || base.val % 8 == Gpr.rbp.val
  { mod := dispMod hasDisp disp, rm := base.val % 8, sibByte := 0, disp := disp,
    rexB := 7 < base.val, rexX := false, hasDisp := hasDisp, hasSibByte := false,
    patchEntity := none }

/-- `RSP` and `R12` take a SIB byte, with `RSP` in the place of the index. -/
theorem getAddrBytes_base (base : Gpr) (disp : BitVec 32) :
    getAddrBytes (.loc base.val regCount 0 disp) =
      some (if base.val % 8 = 4 then sibBytes base .rsp 0 disp else baseBytes base disp) := by
  have hindex : (regCount != 255 && (0 : BitVec 8) != 0) = false := by decide
  simp only [getAddrBytes, regVal_gpr, Option.bind_eq_bind, Option.bind_some, hindex, Gpr.val_rsp]
  by_cases hsp : base.val % 8 = 4
  · rw [if_pos hsp, if_pos hsp]
    rfl
  · rw [if_neg hsp, if_neg hsp]
    rfl

theorem getAddrBytes_index (base x : Gpr) {scale : BitVec 8} {m : Nat} (disp : BitVec 32)
    (hm : getScaleMode scale = some m) :
    getAddrBytes (.loc base.val x.val scale disp) = some (sibBytes base x m disp) := by
  have hscale : scale ≠ 0 := by rintro rfl; cases hm
  have hx : x.val ≠ 255 := Nat.ne_of_lt (Nat.lt_trans x.val_lt (by decide))
  have hindex : (x.val != 255 && scale != 0) = true := by
    rw [bne_iff_ne.mpr hx, bne_iff_ne.mpr hscale]
    rfl
  simp only [getAddrBytes, regVal_gpr, Option.bind_eq_bind, Option.bind_some, hindex, hm, ite_true]
  by_cases hsp : base.val % 8 = Gpr.rsp.val
  · rw [if_pos hsp]
    rfl
  · rw [if_neg hsp]
    rfl

theorem decodes_sibBytes (base x : Gpr) {m : Nat} (disp : BitVec 32) (hm : m < 4) :
    Decodes (sibBytes base x m disp)
      (.sib (some base) (if x = .rsp then none else some (x, 2 ^ m)) disp) :=
  decodes_sib ⟨rfl, rfl, rfl, rfl⟩ rfl rfl rfl hm rfl

theorem decodes_baseBytes (base : Gpr) (disp : BitVec 32) (hsp : base.val % 8 ≠ 4) :
    Decodes (baseBytes base disp) (.sib (some base) none disp) :=
  decodes_base ⟨rfl, rfl, rfl, rfl⟩ rfl hsp rfl

theorem decodes_ripRel (e : ConstAddr) : Decodes (.ripRel e) (.rip 0) := by
  intro rest
  simp only [AddrBytes.ripRel, decodeMem, AddrBytes.tail, AddrBytes.dispBytes]
  simp

/-! ## Addresses of XIR -/

/-- The general-purpose register of a location. -/
def RegLoc.gpr : RegLoc → Option Gpr
  | .reg (.int g) => some g
  | _ => none

/-- The base of the operand. -/
def Sibd.baseOp (lregLoc : XReg → RegLoc) (a : Sibd) : Option (Option Gpr) :=
  match a.baseReg with
  | some b => (lregLoc b).gpr.map some
  | none => some none

/-- The index of the operand: not `RSP`, and with a scale that the machine has. -/
def Sibd.indexOp (lregLoc : XReg → RegLoc) (a : Sibd) : Option (Option (Gpr × Nat)) :=
  match if a.scale = 0 then none else a.indexReg with
  | some i => do
    let x ← (lregLoc i).gpr
    if x = .rsp then none else (getScaleMode a.scale).map fun m => some (x, 2 ^ m)
  | none => some none

/-- The memory operand an address stands for, where its registers are in general-purpose
registers. -/
def memOp (lregLoc : XReg → RegLoc) : XMemAddr → Option MemOp
  | .globalSym _ | .strLit _ | .floatLit _ => some (.rip 0)
  | .sibd a => do
    let base ← Sibd.baseOp lregLoc a
    let index ← Sibd.indexOp lregLoc a
    if base.isNone && index.isNone then none else some (.sib base index a.disp)

/-- The entity whose address the displacement is patched with. -/
def entity : XMemAddr → Option ConstAddr
  | .globalSym s => some (.sym s)
  | .strLit i => some (.strLit i)
  | .floatLit i => some (.floatLit i)
  | .sibd _ => none

/-- There is a base register, and an index register wherever there is a scale. -/
def namesBase : XMemAddr → Bool
  | .sibd a => a.baseReg.isSome && (a.scale == 0 || a.indexReg.isSome)
  | _ => true

/-- The encoding of `a` exists and decodes to `op`. -/
def EncodesTo (lregLoc : XReg → RegLoc) (a : XMemAddr) (op : MemOp) : Prop :=
  ∃ addr used b, getSibdAddr lregLoc a = some (addr, used) ∧ getAddrBytes addr = some b ∧
    b.patchEntity = entity a ∧ Decodes b op

theorem gpr_eq_some {l : RegLoc} {g : Gpr} (h : l.gpr = some g) : l = .reg (.int g) := by
  unfold RegLoc.gpr at h
  split at h
  · cases h; rfl
  · cases h

theorem getSibdAddr_base {lregLoc : XReg → RegLoc} {b : XReg} {base : Gpr}
    (hb : (lregLoc b).gpr = some base) (i : Option XReg) (disp : BitVec 32) :
    getSibdAddr lregLoc (.sibd ⟨some b, i, disp, 0⟩) =
      some (.loc base.val regCount 0 disp, RegMask.set 0 (.int base)) := by
  simp [getSibdAddr, gpr_eq_some hb, RegLoc.inReg, Reg.num]

theorem getSibdAddr_index {lregLoc : XReg → RegLoc} {b i : XReg} {base x : Gpr}
    {scale : BitVec 8} (hb : (lregLoc b).gpr = some base) (hi : (lregLoc i).gpr = some x)
    (hs : scale ≠ 0) (disp : BitVec 32) :
    getSibdAddr lregLoc (.sibd ⟨some b, some i, disp, scale⟩) =
      some (.loc base.val x.val scale disp, (RegMask.set 0 (.int base)).set (.int x)) := by
  simp only [getSibdAddr, hs, ite_false, gpr_eq_some hb, gpr_eq_some hi]
  rfl

/-- With a base register the encoding decodes to the operand. -/
theorem encodesTo_of_namesBase {lregLoc : XReg → RegLoc} {a : XMemAddr} {op : MemOp}
    (h : memOp lregLoc a = some op) (hb : namesBase a = true) : EncodesTo lregLoc a op := by
  cases a with
  | globalSym s => cases h; exact ⟨_, _, _, rfl, rfl, rfl, decodes_ripRel _⟩
  | strLit i => cases h; exact ⟨_, _, _, rfl, rfl, rfl, decodes_ripRel _⟩
  | floatLit i => cases h; exact ⟨_, _, _, rfl, rfl, rfl, decodes_ripRel _⟩
  | sibd a =>
    obtain ⟨baseReg, indexReg, disp, scale⟩ := a
    simp only [namesBase, Bool.and_eq_true, Bool.or_eq_true, beq_iff_eq,
      Option.isSome_iff_exists] at hb
    obtain ⟨⟨b, rfl⟩, hs⟩ := hb
    simp only [memOp, Option.bind_eq_bind, Option.bind_eq_some_iff] at h
    obtain ⟨_, hbase, index, hindex, h⟩ := h
    obtain ⟨base, hgpr, rfl⟩ := Option.map_eq_some_iff.mp hbase
    by_cases h0 : scale = 0
    · subst h0
      cases hindex
      cases h
      have haddr := getSibdAddr_base hgpr indexReg disp
      have hbytes := getAddrBytes_base base disp
      by_cases hsp : base.val % 8 = 4
      · rw [if_pos hsp] at hbytes
        exact ⟨_, _, _, haddr, hbytes, rfl, decodes_sibBytes base .rsp disp (by decide)⟩
      · rw [if_neg hsp] at hbytes
        exact ⟨_, _, _, haddr, hbytes, rfl, decodes_baseBytes base disp hsp⟩
    · obtain ⟨i, rfl⟩ := hs.resolve_left h0
      simp only [Sibd.indexOp, h0, ite_false, Option.bind_eq_bind, Option.bind_eq_some_iff] at hindex
      obtain ⟨x, hx, hindex⟩ := hindex
      split at hindex
      · cases hindex
      · rename_i hrsp
        obtain ⟨m, hm, rfl⟩ := Option.map_eq_some_iff.mp hindex
        cases h
        have hdec := decodes_sibBytes base x disp (getScaleMode_eq hm).1
        rw [if_neg hrsp] at hdec
        exact ⟨_, _, _, getSibdAddr_index hgpr hx h0 disp, getAddrBytes_index base x disp hm, rfl,
          hdec⟩

/-- Without a base register `x64_reg_val` is read at `X64_REG_COUNT`. -/
theorem getAddrBytes_noBase (index : Nat) (scale : BitVec 8) (disp : BitVec 32) :
    getAddrBytes (.loc regCount index scale disp) = none := rfl

/-- The same with a scale and no index. -/
theorem getAddrBytes_noIndex (base : Nat) {scale : BitVec 8} (disp : BitVec 32)
    (hscale : scale ≠ 0) : getAddrBytes (.loc base regCount scale disp) = none := by
  have hindex : (regCount != 255 && scale != 0) = true := by
    rw [bne_iff_ne.mpr hscale]
    rfl
  simp only [getAddrBytes, hindex, regVal_regCount, ite_true, Option.bind_eq_bind,
    Option.bind_eq_none_iff]
  intro b _
  split <;> simp

/-- An address without a base register, or with a scale and no index, is not encoded. -/
theorem getAddrBytes_eq_none {lregLoc : XReg → RegLoc} {a : XMemAddr} {addr : SibdAddr}
    {used : RegMask} (hb : namesBase a = false) (h : getSibdAddr lregLoc a = some (addr, used)) :
    getAddrBytes addr = none := by
  cases a with
  | globalSym s => cases hb
  | strLit i => cases hb
  | floatLit i => cases hb
  | sibd a =>
    obtain ⟨_ | b, indexReg, disp, scale⟩ := a
    · simp only [getSibdAddr] at h
      split at h
      · cases h
      · contradiction
      · contradiction
      · obtain ⟨x, -, h⟩ := Option.bind_eq_some_iff.mp h
        cases h
        exact getAddrBytes_noBase _ _ _
    · simp only [namesBase, Option.isSome_some, Bool.true_and, Bool.or_eq_false_iff] at hb
      have hscale : scale ≠ 0 := by simpa using hb.1
      have hindex : indexReg = none := by simpa using hb.2
      subst hindex
      simp only [getSibdAddr, ite_self] at h
      obtain ⟨x, -, h⟩ := Option.bind_eq_some_iff.mp h
      cases h
      exact getAddrBytes_noIndex _ _ hscale

/-- An address encodes to its operand exactly if it has a base register, and an index register
wherever it has a scale. -/
theorem encodesTo_iff (lregLoc : XReg → RegLoc) (a : XMemAddr) (op : MemOp)
    (h : memOp lregLoc a = some op) : EncodesTo lregLoc a op ↔ namesBase a = true := by
  constructor
  · rintro ⟨addr, used, b, hs, hg, -⟩
    by_contra hb
    rw [getAddrBytes_eq_none (Bool.eq_false_iff.mpr hb) hs] at hg
    cases hg
  · exact encodesTo_of_namesBase h

/-- `[r13 + 4*r12]`: a base that needs a displacement and an index that is not `RSP`. -/
theorem encodesTo_r13_r12 :
    let lregLoc : XReg → RegLoc := fun x => .reg (.int (if x = 0 then .r13 else .r12))
    EncodesTo lregLoc (.sibd ⟨some 0, some 1, 0, 4⟩) (.sib (some .r13) (some (.r12, 4)) 0) ↔
      namesBase (.sibd ⟨some 0, some 1, 0, 4⟩) = true :=
  encodesTo_iff _ _ _ (by decide)

/-- `[4*rcx + 16]` is an address of XIR and has no encoding. -/
theorem not_encodesTo_noBase :
    let lregLoc : XReg → RegLoc := fun _ => .reg (.int .rcx)
    memOp lregLoc (.sibd ⟨none, some 0, 16, 4⟩) = some (.sib none (some (.rcx, 4)) 16) ∧
      ¬ EncodesTo lregLoc (.sibd ⟨none, some 0, 16, 4⟩) (.sib none (some (.rcx, 4)) 16) := by
  refine ⟨by decide, ?_⟩
  rintro ⟨addr, used, b, hs, hg, -⟩
  rw [getAddrBytes_eq_none rfl hs] at hg
  cases hg

end Nibble.X64
