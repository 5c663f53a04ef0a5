import Nibble.X64.Handled

/-!
# When emission succeeds

An emitter that finds an operand in a stack slot looks up another form of its
instruction, but it does so by the kind of the form it was called for, which
the table of the other form does not know: the compiler stops. What is left of
the emitters' conditions is what the earlier passes promise about sizes and
about the registers that must not be spilled.
-/

namespace Nibble.X64

open Nibble.IR (BBlockId)
open Nibble.XIR (XReg XMemAddr ArithOp CallValue CallArg Call ArgReg)

/-! ## What the earlier passes promise -/

namespace ProcState

variable (P : ProcState)

/-- The virtual register is not spilled. -/
def inReg (x : XReg) : Bool :=
  match P.intLoc x with
  | .reg _ => true
  | .stack _ => false

def fltInReg (x : XReg) : Bool :=
  match P.fltLoc x with
  | .reg _ => true
  | .stack _ => false

/-- Every register but those of the frame is a scratch register. -/
structure AllScratch : Prop where
  int : ∀ g, g ≠ .rsp → g ≠ .rbp → g ∈ P.intScratch
  flt : ∀ x, x ∈ P.fltScratch

/-- The registers of an address are not spilled. -/
def AddrPlaced : XMemAddr → Prop
  | .sibd a =>
    (a.baseReg.isSome ∨ a.scale ≠ 0 ∧ a.indexReg.isSome) ∧ (∀ b ∈ a.baseReg, P.inReg b = true) ∧
      (a.scale ≠ 0 → ∀ i ∈ a.indexReg, P.inReg i = true)
  | _ => True

/-- An address whose displacement can be moved. -/
def LocalPlaced (a : XMemAddr) : Prop := P.AddrPlaced a ∧ ∃ s, a = .sibd s

/-- A primitive argument sits in its register, or it is loaded from its slot. -/
def PrimPlaced (size : Nat) (v : XReg) : Reg → Prop
  | .int g => P.inReg v = false ∧ (sizeOf? size).isSome ∨ P.intLoc v = .reg g
  | .xmm x => P.fltInReg v = false ∧ (fltKindFromSize size).isSome ∨ P.fltLoc v = .reg x

def ArgPlaced (arg : CallArg) : Prop :=
  match arg.val, arg.slot with
  | .addr a, _ => arg.type.isObjLike = true ∧ P.LocalPlaced a
  | .reg v, .reg r => arg.type.isObjLike = false ∧ P.PrimPlaced arg.type.size v r.val
  | .reg _, .stack _ => (sizeOf? arg.type.size).isSome
  | .reg _, .regs _ _ => False

/-- A result of up to sixteen bytes can be taken from the registers of its class. -/
def ResultPlaced (retType : Ty) : CallValue → Prop
  | .addr a =>
    retType.isObjLike = true ∧ P.LocalPlaced a ∧
      (P.objRegClass retType = .flt → retType.size % 4 = 0 ∧ 0 < retType.size)
  | .reg _ =>
    retType.isObjLike = false ∧ (retType.floatKind?.isSome ∨ (sizeOf? retType.size).isSome)

structure CallPlaced (c : Call) : Prop where
  args : ∀ arg ∈ c.args, P.ArgPlaced arg
  result : c.retType ≠ .void → P.ResultPlaced c.retType c.dst
  stack : c.stackSize.toNat % 8 = 0

/-- What lowering and the allocator promise about an instruction: sizes that exist, address
registers in registers, and the operands that are forced into one. -/
def Placed : XIR.Instr → Prop
  | .movRM _ _ a | .movMR _ a _ | .movMI _ a _ | .arithRM _ _ _ a | .cmpMR _ a _ | .cmpMI _ a _
  | .raxM _ _ _ _ a | .fltRM _ _ _ a | .movFltRM _ _ a | .movFltMR _ a _ | .cvtFltRM _ _ a
  | .cvtFltIntRM _ _ _ a | .lea _ a | .ucomisRM _ _ a => P.AddrPlaced a
  | .movExtRM op dstSize _ srcSize a =>
    P.AddrPlaced a ∧ (op = .movzx → srcSize = .b4 → dstSize = .b8)
  | .cvtIntFltRM _ _ srcSize a => P.AddrPlaced a ∧ 4 ≤ srcSize.bytes
  | .cvtIntFltRR _ _ srcSize _ => 4 ≤ srcSize.bytes
  | .movExtRR op dstSize _ srcSize _ => op = .movzx → srcSize = .b4 → dstSize = .b8
  | .movRRH _ src => P.inReg src = true
  | .sextAxToDx size _ _ => size ≠ .b1
  | .shiftRR _ _ _ src => P.intLoc src = .reg .rcx
  | .jmpcc _ trueBb _ => trueBb.isSome
  | .call _ c | .callR _ c => P.CallPlaced c
  | _ => True

/-- The operands are where no emitter asks the table of another form for its kind. -/
def asksOwnForm : XIR.Instr → Bool
  | .movRR _ dst src => sameOps (P.intLoc dst) (P.intLoc src) || P.inReg dst && P.inReg src
  | .arithRR (.alu _) _ dst src => P.inReg dst && P.inReg src
  | .arithRR .imul _ _ src => P.inReg src
  | .arithRI _ _ dst _ => P.inReg dst
  | .movExtRR .movsx _ _ _ src => P.inReg src
  | .movExtRR .movzx _ dst srcSize src => (srcSize ≠ .b4 || P.inReg dst) && P.inReg src
  | .movExtRM .movsx _ _ _ _ => false
  | .fltRR _ _ _ src => P.fltInReg src
  | .movFltRR _ dst src =>
    sameOps (P.fltLoc dst) (P.fltLoc src) || P.fltInReg dst && P.fltInReg src
  | _ => true

variable {P} {x y : XReg} {addr : XMemAddr} {size : Size} {kind : FloatKind} {store : Bool}
  {banned : RegMask}

theorem intLoc_of_inReg (h : P.inReg x = true) : ∃ g, P.intLoc x = .reg g := by
  unfold inReg at h
  split at h
  · exact ⟨_, ‹_›⟩
  · cases h

theorem fltLoc_of_fltInReg (h : P.fltInReg x = true) : ∃ r, P.fltLoc x = .reg r := by
  unfold fltInReg at h
  split at h
  · exact ⟨_, ‹_›⟩
  · cases h

theorem lregLoc_of_inReg (h : P.inReg x = true) : ∃ g, P.lregLoc x = .reg (.int g) := by
  obtain ⟨g, hg⟩ := intLoc_of_inReg h
  exact ⟨g, by rw [lregLoc, hg]⟩

/-! ## Temporary registers -/

/-- A mask of at most two general-purpose registers. -/
def TwoRegs (used : RegMask) : Prop := ∃ g h : Gpr, ∀ r, used.mem r = true → r = .int g ∨ r = .int h

theorem not_mem_zero {r : Reg} (h : RegMask.mem 0 r = true) : False := by
  rw [RegMask.mem_zero] at h
  cases h

theorem eq_of_mem_single {q r : Reg} (h : (RegMask.set 0 q).mem r = true) : r = q := by
  rw [RegMask.mem_set, RegMask.mem_zero, Bool.false_or, decide_eq_true_eq] at h
  exact h.symm

theorem twoRegs_zero : TwoRegs 0 := ⟨.rax, .rax, fun _ h => (not_mem_zero h).elim⟩

theorem twoRegs_single (g : Gpr) : TwoRegs (RegMask.set 0 (.int g)) :=
  ⟨g, g, fun _ h => .inl (eq_of_mem_single h)⟩

theorem twoRegs_pair (g k : Gpr) : TwoRegs ((RegMask.set 0 (.int g)).set (.int k)) := by
  refine ⟨g, k, fun r h => ?_⟩
  rw [RegMask.mem_set, Bool.or_eq_true, decide_eq_true_eq] at h
  exact h.imp eq_of_mem_single Eq.symm

/-- At the beginning of a group the mask alone says what is free. -/
theorem isFree_beginRegGroup {r : Reg} (h : banned.mem r = false) :
    beginRegGroup.isFree banned r = true := by
  have hnone : (beginRegGroup.usedTmpRegMask).mem r = false := RegMask.mem_zero r
  rw [RegGroup.isFree, hnone, h]
  rfl

/-- The address of unspilled registers, which are two at most. -/
theorem getSibdAddr_of_placed (h : P.AddrPlaced addr) :
    ∃ m used, getSibdAddr P.lregLoc addr = some (m, used) ∧ TwoRegs used := by
  cases addr with
  | globalSym s => exact ⟨_, _, rfl, twoRegs_zero⟩
  | strLit i => exact ⟨_, _, rfl, twoRegs_zero⟩
  | floatLit i => exact ⟨_, _, rfl, twoRegs_zero⟩
  | sibd a =>
    obtain ⟨hsome, hbase, hindex⟩ := h
    obtain ⟨base, index, disp, scale⟩ := a
    simp only at hsome hbase hindex
    by_cases hs : scale = 0
    · cases base with
      | none => simp [hs] at hsome
      | some b =>
        obtain ⟨g, hg⟩ := lregLoc_of_inReg (hbase b rfl)
        simp only [getSibdAddr, hs, if_true, hg, RegLoc.inReg]
        exact ⟨_, _, rfl, twoRegs_single g⟩
    · simp only [getSibdAddr, hs, if_false]
      cases base with
      | none =>
        cases index with
        | none => simp at hsome
        | some i =>
          obtain ⟨k, hk⟩ := lregLoc_of_inReg (hindex hs i rfl)
          simp only [hk, RegLoc.inReg]
          exact ⟨_, _, rfl, twoRegs_single k⟩
      | some b =>
        obtain ⟨g, hg⟩ := lregLoc_of_inReg (hbase b rfl)
        cases index with
        | none =>
          simp only [hg, RegLoc.inReg]
          exact ⟨_, _, rfl, twoRegs_single g⟩
        | some i =>
          obtain ⟨k, hk⟩ := lregLoc_of_inReg (hindex hs i rfl)
          simp only [hg, hk, RegLoc.inReg]
          exact ⟨_, _, rfl, twoRegs_pair g k⟩

/-- Of three scratch registers, one is not among two. -/
theorem exists_intScratch (hs : P.AllScratch) (hb : TwoRegs banned) :
    ∃ g, P.intScratch.find? (fun g => beginRegGroup.isFree banned (.int g)) = some g := by
  obtain ⟨g, k, h⟩ := hb
  have free {q : Gpr} (h₁ : g ≠ q) (h₂ : k ≠ q) : beginRegGroup.isFree banned (.int q) = true := by
    refine isFree_beginRegGroup (Bool.eq_false_iff.mpr fun hm => ?_)
    rcases h _ hm with he | he <;> cases he
    exacts [h₁ rfl, h₂ rfl]
  have pick : ∃ q, q ≠ .rsp ∧ q ≠ .rbp ∧ g ≠ q ∧ k ≠ q := by
    by_cases hax : g = .rax ∨ k = .rax
    · by_cases hcx : g = .rcx ∨ k = .rcx
      · refine ⟨.rdx, by decide, by decide, ?_, ?_⟩ <;> rintro rfl <;> simp at hax hcx <;>
          rw [hax] at hcx <;> cases hcx
      · exact ⟨.rcx, by decide, by decide, not_or.mp hcx⟩
    · exact ⟨.rax, by decide, by decide, not_or.mp hax⟩
  obtain ⟨q, hsp, hbp, h₁, h₂⟩ := pick
  exact Option.isSome_iff_exists.mp
    (List.find?_isSome.mpr ⟨q, hs.int q hsp hbp, free h₁ h₂⟩)

/-- A mask with at most one vector register. -/
def OneXmm (used : RegMask) : Prop := ∃ x : Xmm, ∀ r, used.mem (.xmm r) = true → r = x

theorem TwoRegs.oneXmm {used : RegMask} (h : TwoRegs used) : OneXmm used := by
  obtain ⟨g, k, h⟩ := h
  refine ⟨0, fun r hr => ?_⟩
  rcases h _ hr with he | he <;> cases he

theorem oneXmm_fltMask : OneXmm (P.fltMask x) := by
  unfold fltMask
  split
  · rename_i r _
    exact ⟨r, fun s hs => by injection eq_of_mem_single hs⟩
  · exact ⟨0, fun s hs => (not_mem_zero hs).elim⟩

theorem twoRegs_intMask : TwoRegs (P.intMask x) := by
  unfold intMask
  split
  · exact twoRegs_single _
  · exact twoRegs_zero

theorem exists_fltScratch (hs : P.AllScratch) (hb : OneXmm banned) :
    ∃ r, P.fltScratch.find? (fun r => beginRegGroup.isFree banned (.xmm r)) = some r := by
  obtain ⟨x, h⟩ := hb
  have pick : ∃ q : Xmm, q ≠ x := by
    by_cases h0 : x = 0
    · exact ⟨1, by rw [h0]; decide⟩
    · exact ⟨0, fun he => h0 he.symm⟩
  obtain ⟨q, hq⟩ := pick
  have hnot : banned.mem (.xmm q) = false := Bool.eq_false_iff.mpr fun hm => hq (h q hm)
  exact Option.isSome_iff_exists.mp (List.find?_isSome.mpr ⟨q, hs.flt q, isFree_beginRegGroup hnot⟩)

/-- The integer class is not affected by vector registers in the mask. -/
theorem exists_intScratch_fltMask (hs : P.AllScratch) :
    ∃ g, P.intScratch.find? (fun g => beginRegGroup.isFree (P.fltMask x) (.int g)) = some g := by
  refine Option.isSome_iff_exists.mp (List.find?_isSome.mpr
    ⟨.rax, hs.int .rax (by decide) (by decide), isFree_beginRegGroup ?_⟩)
  refine Bool.eq_false_iff.mpr fun hm => ?_
  unfold fltMask at hm
  split at hm
  · cases eq_of_mem_single hm
  · exact not_mem_zero hm

/-- A register in a group of its own: it is there, so the body decides. -/
theorem isSome_withInt {body : Gpr → Option (List Instr)} {b : Bool}
    (hfind : ∃ g, P.intScratch.find? (fun g => beginRegGroup.isFree banned (.int g)) = some g)
    (hb : ∀ g, (body g).isSome = b) : (P.withInt x size store banned body).isSome = b := by
  unfold withInt getInt
  cases P.intLoc x with
  | reg g =>
    rw [← hb g]
    cases h : body g <;> simp [h]
  | stack offset =>
    obtain ⟨g, hg⟩ := hfind
    rw [← hb g]
    simp only [hg, Option.bind_eq_bind, Option.bind_some, Option.pure_def]
    cases h : body g <;> simp

theorem isSome_withFlt {body : Xmm → Option (List Instr)} {b : Bool}
    (hs : P.AllScratch) (hban : OneXmm banned)
    (hb : ∀ r, (body r).isSome = b) : (P.withFlt x kind store banned body).isSome = b := by
  unfold withFlt getFlt
  cases P.fltLoc x with
  | reg r =>
    rw [← hb r]
    cases h : body r <;> simp [h]
  | stack offset =>
    obtain ⟨r, hr⟩ := exists_fltScratch hs hban
    rw [← hb r]
    simp only [hr, Option.bind_eq_bind, Option.bind_some, Option.pure_def]
    cases h : body r <;> simp

/-! ## Emitters -/

theorem isSome_emitBinIntRR (op : BinOp) (w allowMR : Bool) :
    (P.emitBinIntRR ⟨op, .rr⟩ w allowMR size x y).isSome =
      ((P.inReg x || !allowMR) && P.inReg y) := by
  unfold emitBinIntRR inReg
  cases P.intLoc x <;> cases P.intLoc y <;> cases allowMR <;> cases op <;> rfl

theorem isSome_emitBinFltRR (op : FltBin) (allowMR : Bool) :
    (P.emitBinFltRR ⟨op, .rr⟩ kind x y allowMR).isSome =
      ((P.fltInReg x || !allowMR) && P.fltInReg y) := by
  unfold emitBinFltRR fltInReg
  cases P.fltLoc x <;> cases P.fltLoc y <;> cases allowMR <;> cases op <;> rfl

theorem isSome_emitBinIntRI {op : BinOp} (h : op ≠ .mov) {imm : BitVec 64} :
    (P.emitBinIntRI ⟨op, .ri⟩ size x imm).isSome = P.inReg x := by
  unfold emitBinIntRI inReg
  cases P.intLoc x <;> cases op <;> first | rfl | exact absurd rfl h

variable (hs : P.AllScratch)
include hs

theorem isSome_emitMovExtRR (op : ExtMov) {size' : Size} :
    (P.emitMovExtRR ⟨op, .rr⟩ size x size' y).isSome = P.inReg y := by
  refine isSome_withInt (exists_intScratch hs twoRegs_zero) fun g => ?_
  unfold inReg
  cases P.intLoc y <;> cases op <;> rfl

theorem isSome_emitMovExtRM (kind : ExtKind) {size' : Size} (ha : P.AddrPlaced addr) :
    (P.emitMovExtRM kind size x size' addr).isSome = (movExtRMEmit kind).isSome := by
  obtain ⟨m, used, hm, htwo⟩ := getSibdAddr_of_placed ha
  simp only [emitMovExtRM, hm, Option.bind_eq_bind, Option.bind_some]
  refine isSome_withInt (exists_intScratch hs htwo) fun g => ?_
  cases movExtRMEmit kind <;> rfl

theorem isSome_emitBinIntRM (op : BinOp) (w : Bool) (ha : P.AddrPlaced addr) :
    (P.emitBinIntRM ⟨op, .rm⟩ w size x addr).isSome = true := by
  obtain ⟨m, used, hm, htwo⟩ := getSibdAddr_of_placed ha
  simp only [emitBinIntRM, hm, Option.bind_eq_bind, Option.bind_some]
  exact isSome_withInt (exists_intScratch hs htwo) fun g => by cases op <;> rfl

theorem isSome_emitBinIntMR {op : BinOp} (h : op ≠ .imul) (ha : P.AddrPlaced addr) :
    (P.emitBinIntMR ⟨op, .mr⟩ size addr x).isSome = true := by
  obtain ⟨m, used, hm, htwo⟩ := getSibdAddr_of_placed ha
  simp only [emitBinIntMR, hm, Option.bind_eq_bind, Option.bind_some]
  exact isSome_withInt (exists_intScratch hs htwo) fun g => by
    cases op <;> first | rfl | exact absurd rfl h

theorem isSome_emitBinFltRM (op : FltBin) (w : Bool) (ha : P.AddrPlaced addr) :
    (P.emitBinFltRM ⟨op, .rm⟩ w kind x addr).isSome = true := by
  obtain ⟨m, used, hm, htwo⟩ := getSibdAddr_of_placed ha
  simp only [emitBinFltRM, hm, Option.bind_eq_bind, Option.bind_some]
  exact isSome_withFlt hs htwo.oneXmm fun r => by cases op <;> rfl

theorem isSome_emitBinFltMR (ha : P.AddrPlaced addr) :
    (P.emitBinFltMR ⟨.mov, .mr⟩ kind addr x).isSome = true := by
  obtain ⟨m, used, hm, htwo⟩ := getSibdAddr_of_placed ha
  simp only [emitBinFltMR, hm, Option.bind_eq_bind, Option.bind_some]
  exact isSome_withFlt hs htwo.oneXmm fun r => rfl

theorem isSome_emitMovExtRM_movzx {size' : Size} (ha : P.AddrPlaced addr) :
    (P.emitMovExtRM ⟨.movzx, .rm⟩ size x size' addr).isSome = true :=
  isSome_emitMovExtRM hs _ ha

theorem isSome_emitUcomisRM (ha : P.AddrPlaced addr) :
    (P.emitUcomisRM kind x addr).isSome = true := by
  obtain ⟨m, used, hm, htwo⟩ := getSibdAddr_of_placed ha
  simp only [emitUcomisRM, hm, Option.bind_eq_bind, Option.bind_some]
  exact isSome_withFlt hs htwo.oneXmm fun r => rfl

theorem isSome_emitCvtFltRM (ha : P.AddrPlaced addr) :
    (P.emitCvtFltRM kind x addr).isSome = true := by
  obtain ⟨m, used, hm, htwo⟩ := getSibdAddr_of_placed ha
  simp only [emitCvtFltRM, hm, Option.bind_eq_bind, Option.bind_some]
  exact isSome_withFlt hs htwo.oneXmm fun r => rfl

theorem isSome_emitCvtFltIntRM (ha : P.AddrPlaced addr) :
    (P.emitCvtFltIntRM kind size x addr).isSome = true := by
  obtain ⟨m, used, hm, htwo⟩ := getSibdAddr_of_placed ha
  simp only [emitCvtFltIntRM, hm, Option.bind_eq_bind, Option.bind_some]
  exact isSome_withInt (exists_intScratch hs htwo) fun g => rfl

theorem isSome_emitCvtIntFltRM (hsize : 4 ≤ size.bytes) (ha : P.AddrPlaced addr) :
    (P.emitCvtIntFltRM kind x size addr).isSome = true := by
  obtain ⟨m, used, hm, htwo⟩ := getSibdAddr_of_placed ha
  simp only [emitCvtIntFltRM, if_neg (Nat.not_lt.mpr hsize), hm, Option.bind_eq_bind,
    Option.bind_some]
  exact isSome_withFlt hs htwo.oneXmm fun r => rfl

theorem isSome_emitLea (ha : P.AddrPlaced addr) : (P.emitLea x addr).isSome = true := by
  obtain ⟨m, used, hm, htwo⟩ := getSibdAddr_of_placed ha
  simp only [emitLea, hm, Option.bind_eq_bind, Option.bind_some]
  exact isSome_withInt (exists_intScratch hs htwo) fun g => rfl

omit hs in
theorem isSome_readFlt {r : Xmm → Instr} {m : SibdAddr → Instr} :
    (P.readFlt y r m).isSome = true := by
  unfold readFlt
  split <;> rfl

theorem isSome_emitUcomisRR : (P.emitUcomisRR kind x y).isSome = true :=
  isSome_withFlt hs oneXmm_fltMask fun _ => isSome_readFlt

theorem isSome_emitCvtFltRR : (P.emitCvtFltRR kind x y).isSome = true :=
  isSome_withFlt hs oneXmm_fltMask fun _ => isSome_readFlt

theorem isSome_emitCvtFltIntRR : (P.emitCvtFltIntRR kind size x y).isSome = true :=
  isSome_withInt (exists_intScratch_fltMask hs) fun _ => isSome_readFlt

theorem isSome_emitCvtIntFltRR (hsize : 4 ≤ size.bytes) :
    (P.emitCvtIntFltRR kind x size y).isSome = true := by
  rw [emitCvtIntFltRR, if_neg (Nat.not_lt.mpr hsize)]
  exact isSome_withFlt hs twoRegs_intMask.oneXmm fun _ => rfl

theorem isSome_emitMovRI {imm : BitVec 64} : (P.emitMovRI size x imm).isSome = true :=
  isSome_withInt (exists_intScratch hs twoRegs_zero) fun _ => rfl

omit hs in
theorem isSome_emitMovRRH (h : P.inReg y = true) : (P.emitMovRRH x y).isSome = true := by
  obtain ⟨g, hg⟩ := intLoc_of_inReg h
  rw [emitMovRRH, hg]
  rfl

theorem isSome_emitMovzxRR {size' : Size} (h : size' = .b4 → size = .b8) :
    (P.emitMovzxRR size x size' y).isSome =
      ((size' ≠ .b4 || P.inReg x) && P.inReg y) := by
  unfold emitMovzxRR
  by_cases h4 : size' = .b4
  · rw [if_neg (by simpa using h4), if_pos (h h4), isSome_emitBinIntRR]
    simp [h4]
  · rw [if_pos h4, isSome_emitMovExtRR hs]
    simp [h4]

theorem isSome_emitMovzxRM {size' : Size} (h : size' = .b4 → size = .b8)
    (ha : P.AddrPlaced addr) : (P.emitMovzxRM size x size' addr).isSome = true := by
  unfold emitMovzxRM
  by_cases h4 : size' = .b4
  · rw [if_neg (by simpa using h4), if_pos (h h4), isSome_emitBinIntRM hs _ _ ha]
  · rw [if_pos h4, isSome_emitMovExtRM_movzx hs ha]

/-! ## Calls -/

omit hs

theorem isSome_loadPrim_eight (r : Reg) (m : SibdAddr) : (loadPrim 8 r m).isSome = true := by
  cases r <;> rfl

theorem getSibdAddr_of_local (h : P.LocalPlaced addr) :
    ∃ base index scale disp used,
      getSibdAddr P.lregLoc addr = some (.loc base index scale disp, used) := by
  obtain ⟨ha, a, rfl⟩ := h
  obtain ⟨m, used, hm, -⟩ := getSibdAddr_of_placed ha
  have hloc : ∃ base index scale disp, m = .loc base index scale disp := by
    simp only [getSibdAddr] at hm
    split at hm
    · cases hm
    all_goals
      obtain ⟨r, -, hm⟩ := Option.bind_eq_some_iff.mp hm
      first
        | cases hm; exact ⟨_, _, _, _, rfl⟩
        | obtain ⟨q, -, hm⟩ := Option.bind_eq_some_iff.mp hm
          cases hm; exact ⟨_, _, _, _, rfl⟩
  obtain ⟨base, index, scale, disp, rfl⟩ := hloc
  exact ⟨base, index, scale, disp, used, hm⟩

theorem isSome_copyToRegs (rs : List ArgReg) (base index : Nat) (scale : BitVec 8)
    (disp : BitVec 32) : (copyToRegs rs (.loc base index scale disp)).isSome = true := by
  induction rs generalizing disp with
  | nil => rfl
  | cons r rs ih =>
    obtain ⟨i, hi⟩ := Option.isSome_iff_exists.mp
      (isSome_loadPrim_eight r.val (.loc base index scale disp))
    obtain ⟨c, hc⟩ := Option.isSome_iff_exists.mp (ih (disp + BitVec.ofNat 32 8))
    simp [copyToRegs, hi, SibdAddr.addDisp, hc]

theorem isSome_placePrimInReg {n : Nat} {v : XReg} {r : Reg} (h : P.PrimPlaced n v r) :
    (P.placePrimInReg n v r).isSome = true := by
  cases r with
  | int g =>
    simp only [PrimPlaced, inReg] at h
    simp only [placePrimInReg]
    cases hl : P.intLoc v with
    | stack offset =>
      simp only [hl, reduceCtorEq, or_false, true_and] at h
      simpa [loadPrim] using h
    | reg g' =>
      simp only [hl, Bool.true_eq_false, false_and, false_or, Loc.reg.injEq] at h
      simp [h]
  | xmm x =>
    simp only [PrimPlaced, fltInReg] at h
    simp only [placePrimInReg]
    cases hl : P.fltLoc v with
    | stack offset =>
      simp only [hl, reduceCtorEq, or_false, true_and] at h
      simpa [loadPrim] using h
    | reg x' =>
      simp only [hl, Bool.true_eq_false, false_and, false_or, Loc.reg.injEq] at h
      simp [h]

theorem isSome_placeArgInReg {arg : CallArg} (h : P.ArgPlaced arg) :
    (P.placeArgInReg arg).isSome = true := by
  obtain ⟨type, val, slot⟩ := arg
  cases val with
  | addr a =>
    obtain ⟨hobj, hl⟩ := h
    simp only at hobj
    obtain ⟨base, index, scale, disp, used, hm⟩ := getSibdAddr_of_local hl
    cases slot <;> simp [placeArgInReg, hobj, hm, isSome_copyToRegs]
  | reg v =>
    cases slot with
    | reg r =>
      obtain ⟨hobj, hp⟩ := h
      simp only at hobj
      simp [placeArgInReg, hobj, isSome_placePrimInReg hp]
    | regs r₀ r₁ => exact h.elim
    | stack o => rfl

theorem isSome_mapM {α : Type} {f : α → Option (List Instr)} {xs : List α}
    (h : ∀ x ∈ xs, (f x).isSome = true) : (xs.mapM f).isSome = true := by
  induction xs with
  | nil => rfl
  | cons x xs ih =>
    obtain ⟨c, hc⟩ := Option.isSome_iff_exists.mp (h x List.mem_cons_self)
    obtain ⟨cs, hcs⟩ := Option.isSome_iff_exists.mp (ih fun y hy => h y (List.mem_cons_of_mem _ hy))
    simp [List.mapM_cons, hc, hcs]

theorem isSome_copyStructArg {arg : CallArg} (h : P.ArgPlaced arg) :
    (P.copyStructArg arg).isSome = true := by
  obtain ⟨type, val, slot⟩ := arg
  cases val with
  | reg v => rfl
  | addr a =>
    obtain ⟨hobj, hl⟩ := h
    simp only at hobj
    obtain ⟨base, index, scale, disp, used, hm⟩ := getSibdAddr_of_local hl
    cases slot <;> simp [copyStructArg, hobj, hm]

theorem isSome_placeRegArgInStack {arg : CallArg} (h : P.ArgPlaced arg) :
    (P.placeRegArgInStack arg).isSome = true := by
  obtain ⟨type, val, slot⟩ := arg
  unfold placeRegArgInStack
  split
  · simp only at *
    subst_vars
    split <;> split <;> first | rfl | simpa [ArgPlaced] using h
  · rfl

theorem isSome_placeSpilledArgInStack {arg : CallArg} (h : P.ArgPlaced arg) :
    (P.placeSpilledArgInStack arg).isSome = true := by
  obtain ⟨type, val, slot⟩ := arg
  unfold placeSpilledArgInStack
  split
  · simp only at *
    subst_vars
    split <;> first | rfl | simpa [ArgPlaced] using h
  · rfl

theorem isSome_placeArgsInStack {args : List CallArg} (h : ∀ arg ∈ args, P.ArgPlaced arg) :
    (P.placeArgsInStack args).isSome = true := by
  obtain ⟨codes, hc⟩ := Option.isSome_iff_exists.mp
    (isSome_mapM fun arg ha => isSome_copyStructArg (h arg ha))
  obtain ⟨regs, hr⟩ := Option.isSome_iff_exists.mp
    (isSome_mapM fun arg ha => isSome_placeRegArgInStack (h arg ha))
  obtain ⟨spilled, hp⟩ := Option.isSome_iff_exists.mp
    (isSome_mapM fun arg ha => isSome_placeSpilledArgInStack (h arg ha))
  have hstructs : (P.placeStructArgsInStack args).isSome = true := by
    simp only [placeStructArgsInStack, hc, Option.bind_eq_bind, Option.bind_some]
    split <;> rfl
  obtain ⟨structs, hst⟩ := Option.isSome_iff_exists.mp hstructs
  simp [placeArgsInStack, hst, hr, hp]

theorem isSome_passRetAddr {retType : Ty} {dst : CallValue}
    (h : retType ≠ .void → P.ResultPlaced retType dst) :
    (P.passRetAddr retType dst).isSome = true := by
  unfold passRetAddr
  split
  case isFalse => rfl
  case isTrue hobj =>
    rw [Bool.and_eq_true] at hobj
    have hvoid : retType ≠ .void := by
      rintro rfl
      cases hobj.1
    cases dst with
    | addr a =>
      obtain ⟨base, index, scale, disp, used, hm⟩ := getSibdAddr_of_local (h hvoid).2.1
      simp [hm]
    | reg r =>
      have hnot := (h hvoid).1
      rw [hobj.1] at hnot
      cases hnot

/-! ## Results -/

theorem isSome_fillChunks (fuel rem base index : Nat) (scale : BitVec 8) (disp : BitVec 32)
    (src : Gpr) (h : rem ≤ fuel) :
    (fillChunks fuel (.loc base index scale disp) src rem).isSome = true := by
  induction fuel generalizing rem disp with
  | zero =>
    obtain rfl : rem = 0 := Nat.le_zero.mp h
    rfl
  | succ fuel ih =>
    cases rem with
    | zero => rfl
    | succ rem =>
      have hpos : 0 < (pow2Size (rem + 1)).bytes := by
        cases pow2Size (rem + 1) <;> decide
      simp only [fillChunks]
      split
      · rfl
      · obtain ⟨c, hc⟩ := Option.isSome_iff_exists.mp (ih (rem + 1 - (pow2Size (rem + 1)).bytes)
          (disp + BitVec.ofNat 32 (pow2Size (rem + 1)).bytes) (by omega))
        simp [SibdAddr.addDisp, hc]

/-- What is left of an object after eight of its bytes. -/
theorem fillMemFromReg_of_size {base index : Nat} {scale : BitVec 8} {disp : BitVec 32} {r : Reg}
    {n : Nat} (h : ∀ x, r = .xmm x → n % 4 = 0 ∧ 0 < n) :
    ∃ c, fillMemFromReg (.loc base index scale disp) r n = some (c, n - 8) := by
  cases r with
  | int g =>
    simp only [fillMemFromReg]
    split
    · exact ⟨_, rfl⟩
    case isFalse hlt =>
      obtain ⟨c, hc⟩ := Option.isSome_iff_exists.mp
        (isSome_fillChunks n n base index scale disp g (Nat.le_refl n))
      exact ⟨c, by rw [hc, Nat.sub_eq_zero_of_le (by omega)]; rfl⟩
  | xmm x =>
    obtain ⟨hmod, hpos⟩ := h x rfl
    simp only [fillMemFromReg]
    split
    · exact ⟨_, rfl⟩
    case isFalse hlt =>
      have h4 : n = 4 := by omega
      subst h4
      exact ⟨_, rfl⟩

theorem eq_flt_of_retRegs {c : RegClass} {x : Xmm}
    (h : (retRegs c).1 = .xmm x ∨ (retRegs c).2 = .xmm x) : c = .flt := by
  cases c with
  | flt => rfl
  | int => rcases h with h | h <;> cases h

theorem isSome_cpyRetSmallObj {retType : Ty} (ha : P.LocalPlaced addr)
    (h : P.objRegClass retType = .flt → retType.size % 4 = 0 ∧ 0 < retType.size) :
    (P.cpyRetSmallObj retType addr).isSome = true := by
  unfold cpyRetSmallObj
  split
  · rfl
  case isFalse hlarge =>
    have hle : retType.size ≤ 16 := by simpa [isObjRetargLarge] using hlarge
    obtain ⟨base, index, scale, disp, used, hm⟩ := getSibdAddr_of_local ha
    obtain ⟨low, hlow⟩ := @fillMemFromReg_of_size base index scale disp
      (retRegs (P.objRegClass retType)).1 retType.size fun x hx => h (eq_flt_of_retRegs (.inl hx))
    simp only [hm, hlow, Option.bind_eq_bind, Option.bind_some]
    split
    · rfl
    case isFalse hrem =>
      obtain ⟨high, hhigh⟩ := @fillMemFromReg_of_size base index scale (disp + BitVec.ofNat 32 8)
        (retRegs (P.objRegClass retType)).2 (retType.size - 8) fun x hx => by
          have := h (eq_flt_of_retRegs (.inr hx))
          omega
      have hzero : retType.size - 8 - 8 = 0 := by omega
      simp [SibdAddr.addDisp, hhigh, hzero]

theorem isSome_moveResult {retType : Ty} {dst : CallValue}
    (h : retType ≠ .void → P.ResultPlaced retType dst) :
    (P.moveResult retType dst).isSome = true := by
  by_cases hvoid : retType = .void
  · subst hvoid
    rfl
  have hp := h hvoid
  cases dst with
  | addr a =>
    obtain ⟨hobj, ha, hflt⟩ := hp
    have he : P.moveResult retType (.addr a) =
        if retType.isObjLike then P.cpyRetSmallObj retType a else none := by
      cases retType <;> first | rfl | exact absurd rfl hvoid
    rw [he, if_pos hobj, isSome_cpyRetSmallObj ha hflt]
  | reg r =>
    obtain ⟨hobj, hsize⟩ := hp
    unfold moveResult
    split
    · rfl
    · rename_i heq
      cases heq
    · rename_i heq
      cases heq
      rw [if_neg (by simp [hobj])]
      split
      · split <;> rfl
      case h_2 hk =>
        rw [hk] at hsize
        simpa using hsize

/-! ## The call -/

/-- A word that is left over is made up for. -/
theorem aligned_totalStackSize {c : Call} (h : c.stackSize.toNat % 8 = 0) :
    (totalStackSize c + alignStackSize c) &&& 15 = 0 := by
  have h15 (x : BitVec 64) : x &&& 15 = 0 ↔ x.toNat % 16 = 0 := by
    rw [← BitVec.toNat_inj, BitVec.toNat_and]
    exact Eq.congr_left (Nat.and_two_pow_sub_one_eq_mod x.toNat 4)
  have htotal : (totalStackSize c).toNat % 8 = 0 := by
    have h8 : (8 : BitVec 64).toNat = 8 := rfl
    simp only [totalStackSize, BitVec.toNat_add, BitVec.toNat_mul, BitVec.toNat_ofNat, h8]
    omega
  rw [h15, alignStackSize, BitVec.toNat_add]
  have := (totalStackSize c).isLt
  split
  case isTrue hz =>
    have hz := (h15 _).mp hz
    have h0 : (0 : BitVec 64).toNat = 0 := rfl
    omega
  case isFalse hz =>
    have hz := mt (h15 _).mpr hz
    have h8 : (8 : BitVec 64).toNat = 8 := rfl
    omega

theorem isSome_emitCall {call : Instr} {c : Call} (h : P.CallPlaced c) :
    (P.emitCall call c).isSome = true := by
  obtain ⟨ret, hret⟩ := Option.isSome_iff_exists.mp (isSome_passRetAddr h.result)
  obtain ⟨codes, hcodes⟩ := Option.isSome_iff_exists.mp
    (isSome_mapM fun arg ha => isSome_placeArgInReg (h.args arg ha))
  obtain ⟨stack, hstack⟩ := Option.isSome_iff_exists.mp (isSome_placeArgsInStack h.args)
  obtain ⟨result, hresult⟩ := Option.isSome_iff_exists.mp (isSome_moveResult h.result)
  have hbefore : ∃ b, P.beforeCall c = some b := by
    simp only [beforeCall, hret, placeArgsInRegs, hcodes, Option.bind_eq_bind, Option.bind_some,
      Option.pure_def, hstack, aligned_totalStackSize h.stack, if_true]
    split <;> exact ⟨_, rfl⟩
  obtain ⟨b, hb⟩ := hbefore
  have hafter : ∃ a, P.afterCall c = some a := by
    simp only [afterCall, hresult, Option.bind_eq_bind, Option.bind_some]
    split <;> exact ⟨_, rfl⟩
  obtain ⟨a, ha⟩ := hafter
  simp [emitCall, hb, ha]

/-! ## Instructions -/

/-- The instruction is emitted, and the encoder knows all that is emitted for it. -/
def Encodable (P : ProcState) (last : Bool) (bb : BBlockId) (i : XIR.Instr) : Prop :=
  ∃ code, P.genInstr last bb i = some code ∧ Handled code

theorem encodable_iff_isSome (last : Bool) (bb : BBlockId) (i : XIR.Instr) :
    P.Encodable last bb i ↔ (P.genInstr last bb i).isSome = true := by
  rw [Option.isSome_iff_exists]
  exact exists_congr fun code => and_iff_left_of_imp handled_genInstr

/-- **Which instructions are encodable.** Where the earlier passes keep their promises, an
instruction is encodable exactly if its operands are not spilled where its emitter looks for the
kind in the table of another form. -/
theorem encodable_iff (P : ProcState) (hs : P.AllScratch) (last : Bool) (bb : BBlockId)
    (i : XIR.Instr) (hi : P.Placed i) : P.Encodable last bb i ↔ P.asksOwnForm i = true := by
  rw [encodable_iff_isSome]
  suffices h : (P.genInstr last bb i).isSome = P.asksOwnForm i by rw [h]
  have same {b : Bool} {o : Option (List Instr)} :
      (if b then some [] else o).isSome = (b || o.isSome) := by cases b <;> rfl
  cases i with
  | movRR size dst src =>
    rw [genInstr, same, isSome_emitBinIntRR]
    simp [asksOwnForm]
  | movRM size dst src => exact isSome_emitBinIntRM hs _ _ hi
  | movMR size dst src => exact isSome_emitBinIntMR hs (by decide) hi
  | movRI size dst src => exact isSome_emitMovRI hs
  | movMI size dst src =>
    obtain ⟨m, used, hm, -⟩ := getSibdAddr_of_placed hi
    simp [genInstr, emitBinIntMI, hm, binIntMIEmit, asksOwnForm]
  | movRRH dst src => exact isSome_emitMovRRH hi
  | arithRR op size dst src =>
    cases op <;> simp [genInstr, isSome_emitBinIntRR, asksOwnForm]
  | arithRM op size dst src => cases op <;> exact isSome_emitBinIntRM hs _ _ hi
  | arithRI op size dst src =>
    cases op <;> exact isSome_emitBinIntRI (by simp)
  | cmpMR size op1 op2 => exact isSome_emitBinIntMR hs (by simp) hi
  | cmpMI size op1 op2 =>
    obtain ⟨m, used, hm, -⟩ := getSibdAddr_of_placed hi
    simp [genInstr, emitBinIntMI, hm, binIntMIEmit, asksOwnForm]
  | raxR op size dx ax src => rfl
  | raxM op size dx ax src =>
    obtain ⟨m, used, hm, -⟩ := getSibdAddr_of_placed hi
    simp [genInstr, hm, asksOwnForm]
  | sextAxToDx size dx ax =>
    cases size <;> first | rfl | exact absurd rfl hi
  | shiftRR op size dst src =>
    have hcx : P.intLoc src = .reg .rcx := hi
    rw [genInstr, emitShiftRR, if_pos hcx]
    rfl
  | shiftRI op size dst src => rfl
  | unary op size dst => rfl
  | movExtRR op dstSize dst srcSize src =>
    cases op with
    | movzx => exact isSome_emitMovzxRR hs (hi rfl)
    | movsx =>
      rw [genInstr, movsxKind]
      split <;> exact isSome_emitMovExtRR hs _
  | movExtRM op dstSize dst srcSize src =>
    cases op with
    | movzx => exact isSome_emitMovzxRM hs (hi.2 rfl) hi.1
    | movsx =>
      rw [genInstr, isSome_emitMovExtRM hs _ hi.1, movsxKind]
      split <;> rfl
  | fltRR op kind dst src => simp [genInstr, isSome_emitBinFltRR, asksOwnForm]
  | fltRM op kind dst src => exact isSome_emitBinFltRM hs _ _ hi
  | movFltRR kind dst src =>
    rw [genInstr, same, isSome_emitBinFltRR]
    simp [asksOwnForm]
  | movFltRM kind dst src => exact isSome_emitBinFltRM hs _ _ hi
  | movFltMR kind dst src => exact isSome_emitBinFltMR hs hi
  | cvtFltRR srcKind dst src => exact isSome_emitCvtFltRR hs
  | cvtFltRM srcKind dst src => exact isSome_emitCvtFltRM hs hi
  | cvtFltIntRR srcKind dstSize dst src => exact isSome_emitCvtFltIntRR hs
  | cvtFltIntRM srcKind dstSize dst src => exact isSome_emitCvtFltIntRM hs hi
  | cvtIntFltRR dstKind dst srcSize src => exact isSome_emitCvtIntFltRR hs hi
  | cvtIntFltRM dstKind dst srcSize src => exact isSome_emitCvtIntFltRM hs hi.2 hi.1
  | lea dst mem => exact isSome_emitLea hs hi
  | ucomisRR kind op1 op2 => exact isSome_emitUcomisRR hs
  | ucomisRM kind op1 op2 => exact isSome_emitUcomisRM hs hi
  | jmp target => rfl
  | jmpcc cond trueBb falseBb =>
    obtain ⟨t, ht⟩ := Option.isSome_iff_exists.mp hi
    simp [genInstr, ht, asksOwnForm]
  | setcc cond dst => rfl
  | repMovsb rdi rsi rcx => rfl
  | repStosb rdi al rcx => rfl
  | syscall nr args rcx r11 => rfl
  | ret ax dx => rfl
  | call sym c => exact isSome_emitCall hi
  | callR procLoc c => exact isSome_emitCall hi

/-! ## A spilled operand -/

/-- The scratch registers of a leaf procedure, with all virtual registers but the first spilled. -/
def oneReg : ProcState where
  intLoc x := if x = 0 then .reg .rax else .stack (-8 * BitVec.ofNat 32 x)
  fltLoc x := if x = 0 then .reg 0 else .stack (-8 * BitVec.ofNat 32 x)
  intScratch := [.r10, .r11, .rax, .rdi, .rsi, .rdx, .rcx, .r8, .r9, .r12, .r13, .r14, .r15, .rbx]
  fltScratch := [0, 1, 2, 3, 4, 5, 6, 7, 8, 9, 10, 11, 12, 13, 14, 15]
  objRegClass _ := .int
  intLoc_ne_rsp x := by split <;> simp
  intScratch_ne := by simp
  fltScratch_ne := by simp
  frame_notMem := by decide

theorem oneReg_allScratch : oneReg.AllScratch where
  int g hsp hbp := by cases g <;> simp_all [oneReg]
  flt x := by
    show x ∈ List.finRange 16
    exact List.mem_finRange x

/-- A division by a spilled operand. -/
theorem encodable_idiv :
    oneReg.Encodable false 0 (.raxR .idiv .b4 (some 2) 0 1) ↔
      oneReg.asksOwnForm (.raxR .idiv .b4 (some 2) 0 1) = true :=
  oneReg.encodable_iff oneReg_allScratch false 0 _ trivial

/-- The registers of a conversion, where virtual registers are numbered as those of the IR. -/
def sameRegs : XIR.Regs where
  reg r := r
  addr _ := ([], .globalSym 0)
  phys g := 100 + g.val
  next := 200

/-- `r = a + b` in four bytes, with `b` spilled, stops the compiler. -/
theorem not_encodable_add :
    ∃ (P : ProcState) (ρ : XIR.Regs) (irInstr : IR.Instr) (xirs : List XIR.Instr) (i : XIR.Instr),
      ρ.convert irInstr none = some xirs ∧ i ∈ xirs ∧ P.AllScratch ∧ P.Placed i ∧
        ¬ P.Encodable false 0 i := by
  refine ⟨oneReg, sameRegs, .intBinary .add (.integer .s32) 0 (.reg 0) (.reg 1),
    [.movRR .b4 0 0, .arithRR (.alu .add) .b4 0 1], .arithRR (.alu .add) .b4 0 1, by decide,
    by decide, oneReg_allScratch, trivial, ?_⟩
  rintro ⟨code, h, -⟩
  cases h

end ProcState

end Nibble.X64
