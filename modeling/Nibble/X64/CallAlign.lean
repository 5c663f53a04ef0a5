import Nibble.X64.Rsp

/-!
# The stack at calls

Where `rsp` is at a call instruction, relative to the entry of the procedure.
The frame is a multiple of 16 and a call pads the caller-saved registers and
the stack arguments to one, but the padding counts a saved XMM register as
one word where two are pushed, and nothing pads the pushes of callee-saved
registers. So `rsp` is aligned at a call just if the two slips cancel.
-/

namespace Nibble.X64

open Nibble.IR (BBlockId)
open Nibble.XIR (XReg XMemAddr ArgReg CallArg CallValue Call callerSavedRegMask argRegs)

def Reg.isInt : Reg → Bool
  | .int _ => true
  | .xmm _ => false

/-- The integer registers and the XMM registers in a list of registers. -/
def intRegs (rs : List Reg) : Nat := rs.countP Reg.isInt
def xmmRegs (rs : List Reg) : Nat := rs.countP fun r => !r.isInt

theorem intRegs_add_xmmRegs (rs : List Reg) : intRegs rs + xmmRegs rs = rs.length := by
  rw [intRegs, xmmRegs, List.length_eq_countP_add_countP Reg.isInt]
  simp

/-- Two words are 16 bytes. -/
theorem words_double (n : Nat) : BitVec.ofNat 4 (8 * n) + BitVec.ofNat 4 (8 * n) = 0 := by
  rw [← BitVec.ofNat_add, show 8 * n + 8 * n = 16 * n by omega]
  apply BitVec.eq_of_toNat_eq
  simp

theorem words_add (m n : Nat) :
    BitVec.ofNat 4 (8 * (m + n)) = BitVec.ofNat 4 (8 * m) + BitVec.ofNat 4 (8 * n) := by
  rw [Nat.mul_add, BitVec.ofNat_add]

/-! ## Pushes, pops and constants -/

theorem wordsMod_add (r : Reg) (rs : List Reg) :
    wordsMod r + BitVec.ofNat 4 (8 * intRegs rs) = BitVec.ofNat 4 (8 * intRegs (r :: rs)) := by
  cases r with
  | int g =>
    have h : intRegs (.int g :: rs) = intRegs rs + 1 := by
      simp [intRegs, List.countP_cons, Reg.isInt]
    simp only [h, wordsMod]
    bv_omega
  | xmm x =>
    have h : intRegs (.xmm x :: rs) = intRegs rs := by simp [intRegs, Reg.isInt]
    simp [h, wordsMod]

theorem shifts_pushes (rs : List Reg) :
    Shifts (BitVec.ofNat 4 (8 * intRegs rs)) (rs.flatMap pushReg) := by
  induction rs with
  | nil => exact Shifts.nil
  | cons r rs ih =>
    rw [← wordsMod_add]
    exact (shifts_pushReg r).append ih

theorem shifts_pops {rs : List Reg} (h : .int .rsp ∉ rs) :
    Shifts (BitVec.ofNat 4 (8 * intRegs rs)) (rs.flatMap popReg) := by
  induction rs with
  | nil => exact Shifts.nil
  | cons r rs ih =>
    simp only [List.mem_cons, not_or] at h
    rw [← wordsMod_add]
    exact (shifts_popReg (Ne.symm h.1)).append (ih h.2)

/-- An immediate keeps its low bits when it is extended. -/
theorem low_signExtend (n : BitVec 32) : (n.signExtend 64).setWidth 4 = n.setWidth 4 := by
  apply BitVec.eq_of_getLsbD_eq
  intro i hi
  have h₁ : i < 32 := by omega
  have h₂ : i < 64 := by omega
  simp only [BitVec.getLsbD_setWidth, BitVec.getLsbD_signExtend, h₁, h₂, if_true, decide_true,
    Bool.true_and]

theorem low_imm (n : BitVec 64) : (n.setWidth 32).setWidth 4 = n.setWidth 4 := by
  ext i hi
  simp

theorem shifts_subImm (n : BitVec 32) :
    Shifts (-(n.setWidth 4)) [.aluRI .sub .b8 .rsp n] := by
  have h : (Instr.aluRI .sub .b8 .rsp n).rspShift = some (-(n.signExtend 64)) := rfl
  have := Shifts.single h rfl
  rwa [BitVec.setWidth_neg_of_le (by decide), low_signExtend] at this

theorem shifts_addImm (n : BitVec 32) : Shifts (n.setWidth 4) [.aluRI .add .b8 .rsp n] := by
  have h : (Instr.aluRI .add .b8 .rsp n).rspShift = some (n.signExtend 64) := rfl
  have := Shifts.single h rfl
  rwa [low_signExtend] at this

namespace ProcState

theorem shifts_subRsp (n : BitVec 64) : Shifts (-(n.setWidth 4)) (subRsp n) := by
  unfold subRsp
  split
  · subst n; exact Shifts.nil
  · simpa [low_imm] using shifts_subImm (n.setWidth 32)

theorem shifts_addRsp (n : BitVec 64) : Shifts (n.setWidth 4) (addRsp n) := by
  unfold addRsp
  split
  · subst n; exact Shifts.nil
  · simpa [low_imm] using shifts_addImm (n.setWidth 32)

/-! ## Arguments -/

variable {P : ProcState} {code : List Instr}

theorem ArgReg.ne_rsp (r : ArgReg) : r.val ≠ .int .rsp := by
  intro h
  have hr := r.property
  rw [h] at hr
  exact absurd hr (by decide)

theorem plain_loadPrim {size : Nat} {r : Reg} {addr : SibdAddr} {i : Instr} (hr : r ≠ .int .rsp)
    (h : loadPrim size r addr = some i) : i.Plain := by
  cases r with
  | int g =>
    obtain ⟨s, -, rfl⟩ := Option.map_eq_some_iff.mp h
    exact plain_movRM (by simpa using hr)
  | xmm x =>
    obtain ⟨k, -, rfl⟩ := Option.map_eq_some_iff.mp h
    exact ⟨rfl, rfl⟩

theorem shifts_copyToRegs {rs : List ArgReg} {addr : SibdAddr}
    (h : copyToRegs rs addr = some code) : Shifts 0 code := by
  induction rs generalizing addr code with
  | nil => cases h; exact Shifts.nil
  | cons r rs ih =>
    obtain ⟨load, hl, h⟩ := Option.bind_eq_some_iff.mp h
    obtain ⟨next, -, h⟩ := Option.bind_eq_some_iff.mp h
    obtain ⟨rest, hrest, h⟩ := Option.bind_eq_some_iff.mp h
    cases h
    exact Shifts.zero_cons (plain_loadPrim (ArgReg.ne_rsp r) hl) (ih hrest)

theorem shifts_placePrimInReg {size : Nat} {val : XReg} {r : ArgReg}
    (h : P.placePrimInReg size val r.val = some code) : Shifts 0 code := by
  have hr := ArgReg.ne_rsp r
  generalize r.val = r at h hr
  unfold placePrimInReg at h
  have load {x : Reg} {offset : BitVec 32} (hx : x ≠ .int .rsp)
      (h : (loadPrim size x (rbpOffsetAddr offset)).map ([·]) = some code) : Shifts 0 code := by
    obtain ⟨i, hi, rfl⟩ := Option.map_eq_some_iff.mp h
    exact Shifts.plain (plain_loadPrim hx hi)
  have there {p : Prop} [Decidable p] (h : (if p then some [] else none) = some code) :
      Shifts 0 code := by
    split at h <;> cases h
    exact Shifts.nil
  cases r with
  | int g =>
    simp only at h
    split at h
    · exact load hr h
    · exact there h
  | xmm x =>
    simp only at h
    split at h
    · exact load hr h
    · exact there h

theorem shifts_placeArgInReg {arg : CallArg} (h : P.placeArgInReg arg = some code) :
    Shifts 0 code := by
  unfold placeArgInReg at h
  split at h
  case h_1 => cases h; exact Shifts.nil
  case h_2 =>
    split at h
    · obtain ⟨⟨addr, used⟩, -, h⟩ := Option.bind_eq_some_iff.mp h
      exact shifts_copyToRegs h
    · cases h
  case h_3 =>
    split at h
    · obtain ⟨⟨addr, used⟩, -, h⟩ := Option.bind_eq_some_iff.mp h
      exact shifts_copyToRegs h
    · cases h
  case h_4 =>
    split at h
    · cases h
    · exact shifts_placePrimInReg h
  case h_5 => cases h

/-- What each argument is emitted as leaves `rsp`, so all of them do. -/
theorem shifts_mapM {α : Type} {f : α → Option (List Instr)} {xs : List α}
    {codes : List (List Instr)} (hf : ∀ x c, f x = some c → Shifts 0 c)
    (h : xs.mapM f = some codes) : Shifts 0 codes.flatten := by
  induction xs generalizing codes with
  | nil => cases h; exact Shifts.nil
  | cons x xs ih =>
    rw [List.mapM_cons] at h
    obtain ⟨c, hc, h⟩ := Option.bind_eq_some_iff.mp h
    obtain ⟨cs, hcs, h⟩ := Option.bind_eq_some_iff.mp h
    cases h
    exact (hf x c hc).zero_append (ih hcs)

theorem shifts_placeArgsInRegs {args : List CallArg} (h : P.placeArgsInRegs args = some code) :
    Shifts 0 code := by
  obtain ⟨codes, hc, h⟩ := Option.bind_eq_some_iff.mp h
  cases h
  exact shifts_mapM (fun _ _ => shifts_placeArgInReg) hc

theorem shifts_copyStructArg {arg : CallArg} (h : P.copyStructArg arg = some code) :
    Shifts 0 code := by
  unfold copyStructArg at h
  split at h
  case h_2 => cases h; exact Shifts.nil
  case h_1 =>
    split at h
    case isFalse => cases h
    obtain ⟨⟨addr, used⟩, -, h⟩ := Option.bind_eq_some_iff.mp h
    cases addr <;> cases h
    exact Shifts.zero_cons (plain_of_writes rfl (by decide) rfl rfl)
      (Shifts.zero_cons (plain_of_writes rfl (by decide) rfl rfl)
        (Shifts.zero_cons (plain_of_writes rfl (by decide) rfl rfl) (Shifts.plain ⟨rfl, rfl⟩)))

theorem shifts_placeStructArgsInStack {args : List CallArg}
    (h : P.placeStructArgsInStack args = some code) : Shifts 0 code := by
  obtain ⟨codes, hc, h⟩ := Option.bind_eq_some_iff.mp h
  have hcode := shifts_mapM (fun _ _ => shifts_copyStructArg) hc
  split at h <;> cases h
  · exact Shifts.nil
  have push := shifts_pushes [.int .rdi, .int .rsi, .int .rcx]
  have pop := shifts_pops (show Reg.int .rsp ∉ [Reg.int .rcx, .int .rsi, .int .rdi] by decide)
  exact (push.append hcode).append pop

theorem shifts_placeRegArgInStack {arg : CallArg} (h : P.placeRegArgInStack arg = some code) :
    Shifts 0 code := by
  unfold placeRegArgInStack at h
  split at h
  case h_2 => cases h; exact Shifts.nil
  case h_1 =>
    split at h <;> split at h
    · cases h; exact Shifts.plain ⟨rfl, rfl⟩
    · cases h; exact Shifts.nil
    · obtain ⟨s, -, rfl⟩ := Option.map_eq_some_iff.mp h
      exact Shifts.plain ⟨rfl, rfl⟩
    · cases h; exact Shifts.nil

theorem shifts_placeSpilledArgInStack {arg : CallArg}
    (h : P.placeSpilledArgInStack arg = some code) : Shifts 0 code := by
  unfold placeSpilledArgInStack at h
  split at h
  case h_2 => cases h; exact Shifts.nil
  case h_1 =>
    split at h
    · obtain ⟨s, -, rfl⟩ := Option.map_eq_some_iff.mp h
      exact Shifts.zero_cons (plain_of_writes rfl (by decide) rfl rfl) (Shifts.plain ⟨rfl, rfl⟩)
    · cases h; exact Shifts.nil

theorem shifts_placeArgsInStack {args : List CallArg} (h : P.placeArgsInStack args = some code) :
    Shifts 0 code := by
  obtain ⟨structs, hs, h⟩ := Option.bind_eq_some_iff.mp h
  obtain ⟨regs, hr, h⟩ := Option.bind_eq_some_iff.mp h
  obtain ⟨spilled, hp, h⟩ := Option.bind_eq_some_iff.mp h
  cases h
  exact ((shifts_placeStructArgsInStack hs).zero_append
    (shifts_mapM (fun _ _ => shifts_placeRegArgInStack) hr)).zero_append
    (shifts_mapM (fun _ _ => shifts_placeSpilledArgInStack) hp)

theorem shifts_passRetAddr {retType : Ty} {dst : CallValue}
    (h : P.passRetAddr retType dst = some code) : Shifts 0 code := by
  unfold passRetAddr at h
  split at h
  · split at h
    · obtain ⟨⟨addr, used⟩, -, h⟩ := Option.bind_eq_some_iff.mp h
      cases h
      exact Shifts.plain (plain_of_writes rfl (by decide) rfl rfl)
    · cases h
  · cases h; exact Shifts.nil

/-! ## The result -/

theorem shifts_fillChunks {fuel rem : Nat} {dst : SibdAddr} {src : Gpr} (hs : src ≠ .rsp)
    (h : fillChunks fuel dst src rem = some code) : Shifts 0 code := by
  induction fuel generalizing dst rem code with
  | zero =>
    cases rem <;> cases h
    exact Shifts.nil
  | succ fuel ih =>
    cases rem with
    | zero => cases h; exact Shifts.nil
    | succ rem =>
      simp only [fillChunks] at h
      split at h
      · cases h; exact Shifts.plain ⟨rfl, rfl⟩
      · obtain ⟨next, -, h⟩ := Option.bind_eq_some_iff.mp h
        obtain ⟨rest, hrest, h⟩ := Option.bind_eq_some_iff.mp h
        cases h
        exact Shifts.zero_cons ⟨rfl, rfl⟩
          (Shifts.zero_cons (plain_of_writes rfl hs rfl rfl) (ih hrest))

theorem shifts_fillMemFromReg {dst : SibdAddr} {src : Reg} {size rem : Nat}
    (hs : src ≠ .int .rsp) (h : fillMemFromReg dst src size = some (code, rem)) :
    Shifts 0 code := by
  unfold fillMemFromReg at h
  split at h
  case h_1 g =>
    split at h
    · cases h; exact Shifts.plain ⟨rfl, rfl⟩
    · obtain ⟨c, hc, h⟩ := Option.map_eq_some_iff.mp h
      cases h
      exact shifts_fillChunks (by simpa using hs) hc
  case h_2 x =>
    split at h
    · cases h; exact Shifts.plain ⟨rfl, rfl⟩
    split at h <;> cases h
    exact Shifts.plain ⟨rfl, rfl⟩

theorem retRegs_ne_rsp (c : RegClass) : (retRegs c).1 ≠ .int .rsp ∧ (retRegs c).2 ≠ .int .rsp := by
  cases c <;> decide

theorem shifts_cpyRetSmallObj {retType : Ty} {dst : XMemAddr}
    (h : P.cpyRetSmallObj retType dst = some code) : Shifts 0 code := by
  unfold cpyRetSmallObj at h
  have hr := retRegs_ne_rsp (P.objRegClass retType)
  split at h
  · cases h; exact Shifts.nil
  obtain ⟨⟨addr, used⟩, -, h⟩ := Option.bind_eq_some_iff.mp h
  obtain ⟨⟨low, rem⟩, hl, h⟩ := Option.bind_eq_some_iff.mp h
  have hlow := shifts_fillMemFromReg hr.1 hl
  simp only at h
  split at h
  · cases h; exact hlow
  obtain ⟨next, -, h⟩ := Option.bind_eq_some_iff.mp h
  obtain ⟨⟨high, rem'⟩, hh, h⟩ := Option.bind_eq_some_iff.mp h
  simp only at h
  split at h <;> cases h
  exact hlow.zero_append (shifts_fillMemFromReg hr.2 hh)

theorem shifts_moveResult {retType : Ty} {dst : CallValue}
    (h : P.moveResult retType dst = some code) : Shifts 0 code := by
  unfold moveResult at h
  split at h
  case h_1 => cases h; exact Shifts.nil
  case h_2 =>
    split at h
    · exact shifts_cpyRetSmallObj h
    · cases h
  case h_3 =>
    split at h
    · cases h
    split at h
    · split at h <;> cases h
      · exact Shifts.plain ⟨rfl, rfl⟩
      · split
        · exact Shifts.nil
        · exact Shifts.plain ⟨rfl, rfl⟩
    · obtain ⟨s, -, rfl⟩ := Option.map_eq_some_iff.mp h
      split
      · exact Shifts.plain ⟨rfl, rfl⟩
      · split
        · exact Shifts.nil
        · exact Shifts.plain (plain_of_writes rfl (intLoc_reg_ne ‹_›) rfl rfl)

/-! ## The call -/

theorem rsp_not_saved (c : Call) : .int .rsp ∉ RegMask.regs c.saveRegMask := by
  have hbit : c.saveRegMask.getLsbD 4 = false := by
    have h := congrArg (·.getLsbD 4) c.save_sub
    have hm : callerSavedRegMask.getLsbD 4 = false := by decide
    simp only [BitVec.getLsbD_and, BitVec.getLsbD_not, hm] at h
    simpa using h
  intro h
  have hmem : RegMask.mem c.saveRegMask (.int .rsp) = true := by
    rcases List.mem_append.mp h with h | h <;> exact (List.mem_filter.mp h).2
  have hnum : (Reg.int Gpr.rsp).num = 4 := by decide
  rw [RegMask.mem, hnum, hbit] at hmem
  cases hmem

/-- A multiple of 16 has no low bits. -/
theorem low_eq_zero {x : BitVec 64} (h : x &&& 15 = 0) : x.setWidth 4 = 0 := by
  apply BitVec.eq_of_getLsbD_eq
  intro i hi
  have hb := congrArg (·.getLsbD i) h
  have h15 : (15 : BitVec 64).getLsbD i = true := by
    match i, hi with
    | 0, _ | 1, _ | 2, _ | 3, _ => rfl
  simp only [BitVec.getLsbD_and, h15, Bool.and_true] at hb
  simpa [hi] using hb

/-- The assertion: with a word for each saved register and the padding, the bytes of a call are a
multiple of 16. -/
theorem low_totalStackSize {c : Call} (h : (totalStackSize c + alignStackSize c) &&& 15 = 0) :
    c.stackSize.setWidth 4 + BitVec.ofNat 4 (8 * (RegMask.regs c.saveRegMask).length) +
      (alignStackSize c).setWidth 4 = 0 := by
  have h := low_eq_zero h
  rw [totalStackSize, BitVec.setWidth_add _ _ (by decide), BitVec.setWidth_add _ _ (by decide)] at h
  have hw : (BitVec.ofNat 64 (RegMask.regs c.saveRegMask).length * 8).setWidth 4 =
      BitVec.ofNat 4 (8 * (RegMask.regs c.saveRegMask).length) := by
    generalize (RegMask.regs c.saveRegMask).length = n
    apply BitVec.eq_of_toNat_eq
    have h8 : (8 : BitVec 64).toNat = 8 := rfl
    simp only [BitVec.toNat_setWidth, BitVec.toNat_mul, BitVec.toNat_ofNat, h8]
    omega
  rwa [hw] at h

/-- What the call case of `X64_gen_instr` adds to `rsp` up to the call: a word for each XMM register
it saves. -/
theorem shifts_beforeCall {c : Call} (h : P.beforeCall c = some code) :
    Shifts (BitVec.ofNat 4 (8 * xmmRegs (RegMask.regs c.saveRegMask))) code := by
  obtain ⟨ret, hret, h⟩ := Option.bind_eq_some_iff.mp h
  obtain ⟨regs, hregs, h⟩ := Option.bind_eq_some_iff.mp h
  have hstack : ∃ stack, Shifts 0 stack ∧
      (if (totalStackSize c + alignStackSize c) &&& 15 = 0 then
        some ((if alignStackSize c = 0 then [.noop] else subRsp (alignStackSize c)) ++
          saveRegs c.saveRegMask ++ ret ++ subRsp c.stackSize ++ regs ++ stack)
      else none) = some code := by
    by_cases h0 : c.stackSize = 0
    · exact ⟨[], Shifts.nil, by rw [← h]; exact (if_pos h0).symm⟩
    · obtain ⟨stack, hs, h⟩ := Option.bind_eq_some_iff.mp ((if_neg h0).symm.trans h)
      exact ⟨stack, shifts_placeArgsInStack hs, h⟩
  obtain ⟨stack, hst, hif⟩ := hstack
  split at hif
  case isFalse => cases hif
  rename_i htotal
  cases hif
  have halign : Shifts (-((alignStackSize c).setWidth 4))
      (if alignStackSize c = 0 then [.noop] else subRsp (alignStackSize c)) := by
    split
    case isTrue h => rw [h]; exact Shifts.plain ⟨rfl, rfl⟩
    · exact shifts_subRsp _
  have hcode := (((((halign.append (shifts_pushes (RegMask.regs c.saveRegMask))).append
    (shifts_passRetAddr hret)).append (shifts_subRsp c.stackSize)).append
    (shifts_placeArgsInRegs hregs)).append hst)
  have hsum := low_totalStackSize htotal
  have hcount := intRegs_add_xmmRegs (RegMask.regs c.saveRegMask)
  have hn : -((alignStackSize c).setWidth 4) + BitVec.ofNat 4 (8 * intRegs (RegMask.regs
      c.saveRegMask)) + 0 + -(c.stackSize.setWidth 4) + 0 + 0 =
      BitVec.ofNat 4 (8 * xmmRegs (RegMask.regs c.saveRegMask)) := by
    have hk := words_double (intRegs (RegMask.regs c.saveRegMask))
    rw [← hcount, words_add] at hsum
    grind
  rwa [hn] at hcode

theorem shifts_afterCall {c : Call} (h : P.afterCall c = some code)
    (htotal : (totalStackSize c + alignStackSize c) &&& 15 = 0) :
    Shifts (BitVec.ofNat 4 (8 * xmmRegs (RegMask.regs c.saveRegMask))) code := by
  obtain ⟨result, hres, h⟩ := Option.bind_eq_some_iff.mp h
  have hsum := low_totalStackSize htotal
  have hcount := intRegs_add_xmmRegs (RegMask.regs c.saveRegMask)
  rw [← hcount] at hsum
  split at h <;> cases h
  case isTrue hempty =>
    have hnil : RegMask.regs c.saveRegMask = [] := List.isEmpty_iff.mp hempty
    have hcode := (shifts_moveResult hres).append (shifts_addRsp (c.stackSize + alignStackSize c))
    rw [BitVec.setWidth_add _ _ (by decide)] at hcode
    rw [hnil] at hsum ⊢
    have hn : 0 + (c.stackSize.setWidth 4 + (alignStackSize c).setWidth 4) =
        BitVec.ofNat 4 (8 * xmmRegs []) := by
      simpa [intRegs, xmmRegs] using hsum
    rwa [hn] at hcode
  case isFalse =>
    have hrev : .int .rsp ∉ (RegMask.regs c.saveRegMask).reverse := by
      simpa using rsp_not_saved c
    have hcode := (((shifts_moveResult hres).append (shifts_addRsp c.stackSize)).append
      (shifts_pops hrev)).append (shifts_addRsp (alignStackSize c))
    have hn : 0 + c.stackSize.setWidth 4 + BitVec.ofNat 4 (8 * intRegs (RegMask.regs
        c.saveRegMask).reverse) + (alignStackSize c).setWidth 4 =
        BitVec.ofNat 4 (8 * xmmRegs (RegMask.regs c.saveRegMask)) := by
      have : intRegs (RegMask.regs c.saveRegMask).reverse = intRegs (RegMask.regs c.saveRegMask) :=
        List.countP_reverse
      have hm := words_double (xmmRegs (RegMask.regs c.saveRegMask))
      rw [this]
      rw [words_add] at hsum
      grind
    rwa [hn] at hcode

theorem beforeCall_total {c : Call} (h : P.beforeCall c = some code) :
    (totalStackSize c + alignStackSize c) &&& 15 = 0 := by
  obtain ⟨ret, -, h⟩ := Option.bind_eq_some_iff.mp h
  obtain ⟨regs, -, h⟩ := Option.bind_eq_some_iff.mp h
  by_contra hne
  simp only [hne, if_false] at h
  split at h <;> obtain ⟨stack, -, h⟩ := Option.bind_eq_some_iff.mp h <;> cases h

/-- A call instruction, with the code around it. -/
theorem genInstr_call {last : Bool} {bb : BBlockId} {i : XIR.Instr} {c : Call}
    (hi : i.call? = some c) (h : P.genInstr last bb i = some code) :
    ∃ before call after, code = before ++ call :: after ∧ call.isCall = true ∧
      P.beforeCall c = some before ∧ P.afterCall c = some after := by
  have split {call : Instr} (hc : call.isCall = true) (h : P.emitCall call c = some code) :
      ∃ before call after, code = before ++ call :: after ∧ call.isCall = true ∧
        P.beforeCall c = some before ∧ P.afterCall c = some after := by
    obtain ⟨before, hb, h⟩ := Option.bind_eq_some_iff.mp h
    obtain ⟨after, ha, h⟩ := Option.bind_eq_some_iff.mp h
    cases h
    exact ⟨before, call, after, rfl, hc, hb, ha⟩
  cases i <;> cases hi
  · exact split rfl h
  · refine split ?_ h
    unfold callThrough
    split <;> rfl

/-- Every instruction of XIR, calls included, adds a multiple of 16 to `rsp`. -/
theorem low_genInstr {last : Bool} {bb : BBlockId} {i : XIR.Instr}
    (h : P.genInstr last bb i = some code) : (rspShift code).map (·.setWidth 4) = some 0 := by
  cases hi : i.call? with
  | none => exact (shifts_genInstr h hi).low
  | some c =>
    obtain ⟨before, call, after, rfl, hc, hb, ha⟩ := genInstr_call hi h
    have hcall : (rspShift [call]).map (·.setWidth 4) = some (0 : BitVec 4) := by
      cases call <;> cases hc <;> rfl
    have hcode := map_rspShift_append (shifts_beforeCall hb).low
      (map_rspShift_append hcall (shifts_afterCall ha (beforeCall_total hb)).low)
    simp only [List.singleton_append] at hcode
    rw [hcode]
    rw [show ∀ x : BitVec 4, 0 + x = x from BitVec.zero_add, words_double]

end ProcState

/-! ## The procedure -/

theorem low_alignUp16 (n : BitVec 32) : (alignUp16 n).setWidth 4 = 0 := by
  apply BitVec.eq_of_getLsbD_eq
  intro i hi
  have h15 : (15 : BitVec 32).getLsbD i = true := by
    match i, hi with
    | 0, _ | 1, _ | 2, _ | 3, _ => rfl
  simp only [alignUp16, BitVec.getLsbD_setWidth, BitVec.getLsbD_and, BitVec.getLsbD_not, h15]
  simp

theorem ParamSpill.plain_code {s : ParamSpill} {i : Instr} (h : s.code = some i) : i.Plain := by
  unfold ParamSpill.code savePrim at h
  split at h <;> obtain ⟨_, -, rfl⟩ := Option.map_eq_some_iff.mp h <;> exact ⟨rfl, rfl⟩

theorem shifts_spills {spills : List ParamSpill} {code : List Instr}
    (h : spills.mapM ParamSpill.code = some code) : Shifts 0 code := by
  induction spills generalizing code with
  | nil => cases h; exact Shifts.nil
  | cons s spills ih =>
    rw [List.mapM_cons] at h
    obtain ⟨i, hi, h⟩ := Option.bind_eq_some_iff.mp h
    obtain ⟨rest, hrest, h⟩ := Option.bind_eq_some_iff.mp h
    cases h
    exact Shifts.zero_cons (ParamSpill.plain_code hi) (ih hrest)

/-- What the prologue adds to `rsp`: the pushes of `rbp` and of the callee-saved registers, since
the frame is aligned. -/
theorem shifts_prologue {spills : List ParamSpill} {stackOffset : BitVec 32}
    {usedCalleeRegs : RegMask} {code : List Instr}
    (h : prologue spills stackOffset usedCalleeRegs = some code) :
    Shifts (8 + BitVec.ofNat 4 (8 * intRegs (pushedCalleeRegs usedCalleeRegs))) code := by
  obtain ⟨spilled, hs, h⟩ := Option.bind_eq_some_iff.mp h
  cases h
  have frame : Shifts 0 (if alignUp16 stackOffset = 0 then [.noop]
      else [.aluRI .sub .b8 .rsp (alignUp16 stackOffset)]) := by
    split
    · exact Shifts.plain ⟨rfl, rfl⟩
    · simpa [low_alignUp16] using shifts_subImm (alignUp16 stackOffset)
  have start : Shifts 8 [.push .rbp, .movRR false .b8 .rbp .rsp] :=
    (Shifts.push .rbp).append (n := 0) (Shifts.plain ⟨rfl, rfl⟩)
  simpa using ((start.append frame).append (shifts_spills hs)).append
    (shifts_pushes (pushedCalleeRegs usedCalleeRegs))

/-- An instruction of a procedure, with what `X64_gen_instr` is told about its place. -/
structure Place where
  isLastInstr : Bool
  bblockId : BBlockId
  instr : XIR.Instr
  deriving DecidableEq, Repr

namespace ProcState

variable (P : ProcState)

def codeAt (p : Place) : Option (List Instr) := P.genInstr p.isLastInstr p.bblockId p.instr

/-- The code of the instructions that a run of the procedure goes through. -/
def pathCode (path : List Place) : Option (List Instr) := do
  let codes ← path.mapM P.codeAt
  return codes.flatten

/-- A run of the procedure that went through `path` is at a call instruction of the code of `p`,
after `executed`. -/
def ReachesCall (spills : List ParamSpill) (stackOffset : BitVec 32) (usedCalleeRegs : RegMask)
    (path : List Place) (p : Place) (executed : List Instr) : Prop :=
  ∃ start body before call after, prologue spills stackOffset usedCalleeRegs = some start ∧
    P.pathCode path = some body ∧ P.codeAt p = some (before ++ call :: after) ∧
    call.isCall = true ∧ executed = start ++ body ++ before

end ProcState

/-- `rsp` after code that was entered with `rsp` at `entry`. -/
def rspAfter (entry : BitVec 64) (code : List Instr) : Option (BitVec 64) :=
  (rspShift code).map (entry + ·)

/-- `rsp` is a multiple of 16 after the code. -/
def RspAligned (entry : BitVec 64) (code : List Instr) : Prop :=
  ∃ rsp, rspAfter entry code = some rsp ∧ rsp.toNat % 16 = 0

/-- The words that the padding misses: pushed callee-saved registers, and the upper halves of the
XMM registers that a call saves. -/
def missedWords (usedCalleeRegs : RegMask) (i : XIR.Instr) : Nat :=
  intRegs (pushedCalleeRegs usedCalleeRegs) +
    match i.call? with
    | some c => xmmRegs (RegMask.regs c.saveRegMask)
    | none => 0

/-- Code around the only call instruction splits in one way. -/
theorem split_at_call {a b a' b' : List Instr} {i i' : Instr} (h : a ++ i :: b = a' ++ i' :: b')
    (hi : i.isCall = true) (ha' : ∀ j ∈ a', j.isCall = false) (hb' : ∀ j ∈ b', j.isCall = false) :
    a = a' := by
  induction a generalizing a' with
  | nil =>
    cases a' with
    | nil => rfl
    | cons j a' =>
      cases h
      rw [ha' i List.mem_cons_self] at hi
      cases hi
  | cons j a ih =>
    cases a' with
    | nil =>
      cases h
      rw [hb' i (List.mem_append_right _ List.mem_cons_self)] at hi
      cases hi
    | cons j' a' =>
      simp only [List.cons_append, List.cons.injEq] at h
      rw [h.1, ih h.2 fun k hk => ha' k (List.mem_cons_of_mem _ hk)]

namespace ProcState

variable {P : ProcState}

theorem low_pathCode {path : List Place} {code : List Instr} (h : P.pathCode path = some code) :
    (rspShift code).map (·.setWidth 4) = some 0 := by
  induction path generalizing code with
  | nil => cases h; rfl
  | cons p path ih =>
    rw [pathCode, List.mapM_cons] at h
    obtain ⟨codes, hcodes, h⟩ := Option.bind_eq_some_iff.mp h
    obtain ⟨c, hc, hcodes⟩ := Option.bind_eq_some_iff.mp hcodes
    obtain ⟨cs, hcs, hcodes⟩ := Option.bind_eq_some_iff.mp hcodes
    cases hcodes; cases h
    have hpath : P.pathCode path = some cs.flatten := by simp [pathCode, hcs]
    simpa using map_rspShift_append (low_genInstr hc) (ih hpath)

/-- The code before a call instruction adds a word to `rsp` for each XMM register saved. -/
theorem low_before {p : Place} {before after : List Instr} {call : Instr}
    (h : P.codeAt p = some (before ++ call :: after)) (hcall : call.isCall = true) :
    ∃ c, p.instr.call? = some c ∧ (rspShift before).map (·.setWidth 4) =
      some (BitVec.ofNat 4 (8 * xmmRegs (RegMask.regs c.saveRegMask))) := by
  cases hi : p.instr.call? with
  | none =>
    have := (shifts_genInstr h hi).noCall call
      (List.mem_append_right _ List.mem_cons_self)
    rw [hcall] at this
    cases this
  | some c =>
    obtain ⟨b, i, a, heq, -, hb, ha⟩ := genInstr_call hi h
    have hbefore := shifts_beforeCall hb
    have hafter := shifts_afterCall ha (beforeCall_total hb)
    rw [split_at_call heq hcall hbefore.noCall hafter.noCall]
    exact ⟨c, rfl, hbefore.low⟩

theorem low_reachesCall {spills : List ParamSpill} {stackOffset : BitVec 32}
    {usedCalleeRegs : RegMask} {path : List Place} {p : Place} {executed : List Instr}
    (h : P.ReachesCall spills stackOffset usedCalleeRegs path p executed) :
    (rspShift executed).map (·.setWidth 4) =
      some (8 + BitVec.ofNat 4 (8 * missedWords usedCalleeRegs p.instr)) := by
  obtain ⟨start, body, before, call, after, hstart, hbody, hp, hcall, rfl⟩ := h
  obtain ⟨c, hc, hbefore⟩ := low_before hp hcall
  rw [map_rspShift_append (map_rspShift_append (shifts_prologue hstart).low (low_pathCode hbody))
    hbefore]
  simp only [missedWords, hc]
  rw [words_add, BitVec.add_assoc, BitVec.add_assoc,
    show ∀ x : BitVec 4, 0 + x = x from BitVec.zero_add]

/-- In every run of every procedure, `rsp` is aligned at a call instruction just if the words that
the padding of the call misses are even in number. -/
theorem callAligned_iff {spills : List ParamSpill} {stackOffset : BitVec 32}
    {usedCalleeRegs : RegMask} {path : List Place} {p : Place} {executed : List Instr}
    {entry : BitVec 64}
    (h : P.ReachesCall spills stackOffset usedCalleeRegs path p executed)
    (hentry : entry.toNat % 16 = 8) :
    RspAligned entry executed ↔ missedWords usedCalleeRegs p.instr % 2 = 0 := by
  obtain ⟨d, hd, hlow⟩ := Option.map_eq_some_iff.mp (low_reachesCall h)
  have hmod := congrArg BitVec.toNat hlow
  simp only [BitVec.toNat_setWidth] at hmod
  generalize missedWords usedCalleeRegs p.instr = n at hmod ⊢
  have hn : (8 + BitVec.ofNat 4 (8 * n)).toNat = (8 + 8 * n) % 16 := by
    rw [BitVec.toNat_add, BitVec.toNat_ofNat]
    have : (8 : BitVec 4).toNat = 8 := rfl
    omega
  rw [hn] at hmod
  have hrsp : RspAligned entry executed ↔ (entry + d).toNat % 16 = 0 := by
    simp [RspAligned, rspAfter, hd]
  rw [hrsp, BitVec.toNat_add]
  omega

end ProcState

/-! ## A procedure that saves one register -/

/-- Every virtual register is in `rbx`. -/
def rbxOnly : ProcState where
  intLoc _ := .reg .rbx
  fltLoc _ := .reg 0
  intScratch := [.r10]
  fltScratch := [0]
  objRegClass _ := .int
  intLoc_ne_rsp _ := by decide
  intScratch_ne := by decide
  fltScratch_ne := by decide
  frame_notMem := by decide

/-- A call without arguments and result, the first instruction of its procedure. -/
def plainCall : Place :=
  ⟨false, 0, .call 0 ⟨.void, .reg 0, [], 0, 0, by decide⟩⟩

/-- The frame of a procedure that uses no callee-saved register. -/
theorem callAligned_leaf :
    RspAligned 8 [.push .rbp, .movRR false .b8 .rbp .rsp, .noop, .noop] ↔
      missedWords 0 plainCall.instr % 2 = 0 :=
  @ProcState.callAligned_iff rbxOnly [] 0 0 [] plainCall _ 8
    ⟨[.push .rbp, .movRR false .b8 .rbp .rsp, .noop], [], [.noop], .call 0, [],
      by decide, by decide, by decide, by decide, by decide⟩ (by decide)

/-- One callee-saved register is pushed: `rsp` is 8 modulo 16 at the call. -/
theorem not_callAligned_rbx :
    rbxOnly.ReachesCall [] 0 (RegMask.set 0 (.int .rbx)) [] plainCall
        [.push .rbp, .movRR false .b8 .rbp .rsp, .noop, .push .rbx, .noop] ∧
      ¬ RspAligned 8 [.push .rbp, .movRR false .b8 .rbp .rsp, .noop, .push .rbx, .noop] := by
  refine ⟨⟨[.push .rbp, .movRR false .b8 .rbp .rsp, .noop, .push .rbx], [], [.noop], .call 0, [],
    by decide, by decide, by decide, by decide, by decide⟩, ?_⟩
  rintro ⟨rsp, hrsp, hmod⟩
  have h : rspAfter 8 [.push .rbp, .movRR false .b8 .rbp .rsp, .noop, .push .rbx, .noop] =
      some (-8) := by decide
  rw [h] at hrsp
  cases hrsp
  exact absurd hmod (by decide)

end Nibble.X64
