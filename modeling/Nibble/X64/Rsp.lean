import Nibble.X64.EmitCall

/-!
# The stack pointer across emitted code

Every emitted instruction either leaves `rsp`, pushes or pops a word, or adds
a constant to it. All instructions of XIR leave `rsp` where it was, so where a
call instruction finds it is decided by the prologue and by the code of the
call itself.
-/

namespace Nibble.X64

open Nibble.XIR (XReg XMemAddr ArithOp CallValue ArgSlot CallArg Call)

/-- The integer register an instruction writes, stack operations apart. -/
def Instr.writesReg : Instr → Option Gpr
  | .setccR _ dst | .imulRR _ dst _ | .imulRM _ dst _ | .imulRI _ dst _ | .shiftRR _ _ dst
  | .shiftRI _ _ dst _ | .unaryR _ _ dst | .movRR _ _ dst _ | .movRM _ dst _ | .movRI _ dst _
  | .movExtRR _ _ dst _ _ | .movExtRM _ _ dst _ _ | .movsxdRR _ dst _ _ | .movsxdRM _ dst _ _
  | .cvtFltIntRR _ dst _ _ | .cvtFltIntRM _ dst _ _ | .lea dst _ => some dst
  | .aluRR op _ dst _ | .aluRM op _ dst _ | .aluRI op _ dst _ =>
    if op = .cmp then none else some dst
  | _ => none

/-- What an instruction adds to `rsp`; `none` if it writes something else there. A call returns
with the `rsp` it was entered with. -/
def Instr.rspShift : Instr → Option (BitVec 64)
  | .push _ => some (-8)
  | .pop g => if g = .rsp then none else some 8
  | .aluRI .sub .b8 .rsp imm => some (-(imm.signExtend 64))
  | .aluRI .add .b8 .rsp imm => some (imm.signExtend 64)
  | i => if i.writesReg = some .rsp then none else some 0

def Instr.isCall : Instr → Bool
  | .call _ | .callR _ | .callM _ => true
  | _ => false

/-- What code adds to `rsp`. -/
def rspShift : List Instr → Option (BitVec 64)
  | [] => some 0
  | i :: code => do
    let a ← i.rspShift
    let b ← rspShift code
    return a + b

theorem rspShift_append (c₁ c₂ : List Instr) :
    rspShift (c₁ ++ c₂) = (rspShift c₁).bind fun a => (rspShift c₂).map (a + ·) := by
  induction c₁ with
  | nil => cases h : rspShift c₂ <;> simp [rspShift, h]
  | cons i c₁ ih =>
    simp only [List.cons_append, rspShift, ih, Option.bind_eq_bind]
    cases i.rspShift with
    | none => rfl
    | some a =>
      cases rspShift c₁ with
      | none => rfl
      | some b => cases rspShift c₂ <;> simp [BitVec.add_assoc]

/-- Code without call instructions that adds `n` to `rsp`, modulo 16. -/
structure Shifts (n : BitVec 4) (code : List Instr) : Prop where
  low : (rspShift code).map (·.setWidth 4) = some n
  noCall : ∀ i ∈ code, i.isCall = false

/-- An instruction that leaves `rsp`. -/
def Instr.Plain (i : Instr) : Prop := i.rspShift = some 0 ∧ i.isCall = false

theorem map_rspShift_append {c₁ c₂ : List Instr} {m n : BitVec 4}
    (h₁ : (rspShift c₁).map (·.setWidth 4) = some m)
    (h₂ : (rspShift c₂).map (·.setWidth 4) = some n) :
    (rspShift (c₁ ++ c₂)).map (·.setWidth 4) = some (m + n) := by
  obtain ⟨a, ha, rfl⟩ := Option.map_eq_some_iff.mp h₁
  obtain ⟨b, hb, rfl⟩ := Option.map_eq_some_iff.mp h₂
  simp only [rspShift_append, ha, hb, Option.bind_some, Option.map_some, Option.some.injEq]
  exact BitVec.setWidth_add _ _ (by decide)

namespace Shifts

variable {m n : BitVec 4} {c c₁ c₂ : List Instr} {i : Instr}

theorem nil : Shifts 0 [] := ⟨rfl, by simp⟩

theorem append (h₁ : Shifts m c₁) (h₂ : Shifts n c₂) : Shifts (m + n) (c₁ ++ c₂) where
  low := map_rspShift_append h₁.low h₂.low
  noCall i hi := (List.mem_append.mp hi).elim (h₁.noCall i) (h₂.noCall i)

theorem single {a : BitVec 64} (hi : i.rspShift = some a) (hc : i.isCall = false) :
    Shifts (a.setWidth 4) [i] where
  low := by simp [rspShift, hi]
  noCall j hj := by rw [List.mem_singleton.mp hj, hc]

theorem plain (h : i.Plain) : Shifts 0 [i] := single h.1 h.2

theorem zero_append (h₁ : Shifts 0 c₁) (h₂ : Shifts 0 c₂) : Shifts 0 (c₁ ++ c₂) := by
  simpa using append h₁ h₂

theorem zero_cons (h : i.Plain) (hc : Shifts 0 c) : Shifts 0 (i :: c) := zero_append (plain h) hc

theorem flatten {codes : List (List Instr)} (h : ∀ c ∈ codes, Shifts 0 c) :
    Shifts 0 codes.flatten := by
  induction codes with
  | nil => exact nil
  | cons c codes ih =>
    exact zero_append (h c List.mem_cons_self) (ih fun c' hc => h c' (List.mem_cons_of_mem _ hc))

theorem push (g : Gpr) : Shifts 8 [.push g] := by
  have h : (Instr.push g).rspShift = some (-8) := rfl
  exact single h rfl

theorem pop {g : Gpr} (hg : g ≠ .rsp) : Shifts 8 [.pop g] := by
  have h : (Instr.pop g).rspShift = some 8 := if_neg hg
  exact single h rfl

end Shifts

/-! ## Saved registers -/

/-- What a pushed register adds to `rsp`, modulo 16. -/
def wordsMod (r : Reg) : BitVec 4 :=
  match r with
  | .int _ => 8
  | .xmm _ => 0

theorem shifts_pushReg (r : Reg) : Shifts (wordsMod r) (pushReg r) := by
  cases r with
  | int g => exact Shifts.push g
  | xmm x =>
    exact Shifts.append (n := 0) (Shifts.single (i := .aluRI .sub .b8 .rsp 16) rfl rfl)
      (Shifts.plain ⟨rfl, rfl⟩)

theorem shifts_popReg {r : Reg} (hr : r ≠ .int .rsp) : Shifts (wordsMod r) (popReg r) := by
  cases r with
  | int g => exact Shifts.pop fun h => hr (by rw [h])
  | xmm x =>
    exact Shifts.append (m := 0) (n := 0) (Shifts.plain ⟨rfl, rfl⟩)
      (Shifts.single (i := .aluRI .add .b8 .rsp 16) rfl rfl)

/-- A register that is pushed around code. -/
theorem shifts_bracket {r : Reg} {c : List Instr} (hr : r ≠ .int .rsp) (h : Shifts 0 c) :
    Shifts 0 (pushReg r ++ c ++ popReg r) := by
  have := ((shifts_pushReg r).append h).append (shifts_popReg hr)
  have hw : wordsMod r + 0 + wordsMod r = 0 := by cases r <;> simp [wordsMod]
  rwa [hw] at this

/-! ## Instructions of the emitters -/

section Plain

variable {size size' : Size} {d s : Gpr} {addr : SibdAddr} {imm : BitVec 32}

/-- An instruction that writes one integer register. -/
theorem plain_of_writes {i : Instr} {g : Gpr} (hw : i.writesReg = some g) (hg : g ≠ .rsp)
    (hs : i.rspShift = if i.writesReg = some .rsp then none else some 0)
    (hc : i.isCall = false) : i.Plain :=
  ⟨by rw [hs, hw, if_neg (by simpa using hg)], hc⟩

theorem plain_alu {i : Instr} {op : AluOp}
    (hw : i.writesReg = if op = .cmp then none else some d) (hd : d ≠ .rsp)
    (hs : i.rspShift = if i.writesReg = some .rsp then none else some 0)
    (hc : i.isCall = false) : i.Plain := by
  refine ⟨?_, hc⟩
  rw [hs, hw, if_neg]
  split <;> simp [hd]

theorem plain_aluRI {op : AluOp} (hd : d ≠ .rsp) : (Instr.aluRI op size d imm).Plain := by
  refine ⟨?_, rfl⟩
  unfold Instr.rspShift
  split <;> simp_all [Instr.writesReg]

theorem binIntRREmit_plain {kind : BinKind} {emit : Size → Gpr → Gpr → Instr}
    (h : binIntRREmit kind = some emit) (hd : d ≠ .rsp) : (emit size d s).Plain := by
  unfold binIntRREmit at h
  split at h <;> cases h <;> first | exact plain_alu rfl hd rfl rfl | exact plain_of_writes rfl hd rfl rfl

theorem binIntRMEmit_plain {kind : BinKind} {emit : Size → Gpr → SibdAddr → Instr}
    (h : binIntRMEmit kind = some emit) (hd : d ≠ .rsp) : (emit size d addr).Plain := by
  unfold binIntRMEmit at h
  split at h <;> cases h <;> first | exact plain_alu rfl hd rfl rfl | exact plain_of_writes rfl hd rfl rfl

theorem binIntRIEmit_plain {kind : BinKind} {emit : Size → Gpr → BitVec 32 → Instr}
    (h : binIntRIEmit kind = some emit) (hd : d ≠ .rsp) : (emit size d imm).Plain := by
  unfold binIntRIEmit at h
  split at h <;> cases h
  · exact plain_aluRI hd
  · exact plain_of_writes rfl hd rfl rfl

theorem binIntMREmit_plain {kind : BinKind} {emit : Size → SibdAddr → Gpr → Instr}
    (h : binIntMREmit kind = some emit) : (emit size addr s).Plain := by
  unfold binIntMREmit at h
  split at h <;> cases h <;> exact ⟨rfl, rfl⟩

theorem binIntMIEmit_plain {kind : BinKind} {emit : Size → SibdAddr → BitVec 32 → Instr}
    (h : binIntMIEmit kind = some emit) : (emit size addr imm).Plain := by
  unfold binIntMIEmit at h
  split at h <;> cases h <;> exact ⟨rfl, rfl⟩

theorem movExtRREmit_plain {kind : ExtKind} {emit : Size → Gpr → Size → Gpr → Instr}
    (h : movExtRREmit kind = some emit) (hd : d ≠ .rsp) : (emit size d size' s).Plain := by
  unfold movExtRREmit at h
  split at h <;> cases h <;> exact plain_of_writes rfl hd rfl rfl

theorem movExtRMEmit_plain {kind : ExtKind} {emit : Size → Gpr → Size → SibdAddr → Instr}
    (h : movExtRMEmit kind = some emit) (hd : d ≠ .rsp) : (emit size d size' addr).Plain := by
  unfold movExtRMEmit at h
  split at h <;> cases h <;> exact plain_of_writes rfl hd rfl rfl

variable {fltKind : FloatKind} {x y : Xmm}

theorem binFltRREmit_plain {kind : FltKind} {emit : FloatKind → Xmm → Xmm → Instr}
    (h : binFltRREmit kind = some emit) : (emit fltKind x y).Plain := by
  unfold binFltRREmit at h
  split at h <;> cases h <;> exact ⟨rfl, rfl⟩

theorem binFltRMEmit_plain {kind : FltKind} {emit : FloatKind → Xmm → SibdAddr → Instr}
    (h : binFltRMEmit kind = some emit) : (emit fltKind x addr).Plain := by
  unfold binFltRMEmit at h
  split at h <;> cases h <;> exact ⟨rfl, rfl⟩

theorem binFltMREmit_plain {kind : FltKind} {emit : FloatKind → SibdAddr → Xmm → Instr}
    (h : binFltMREmit kind = some emit) : (emit fltKind addr x).Plain := by
  unfold binFltMREmit at h
  split at h <;> cases h
  exact ⟨rfl, rfl⟩

end Plain

/-! ## Groups of temporary registers -/

namespace ProcState

variable {P : ProcState} {group : RegGroup} {x : XReg} {size : Size} {kind : FloatKind}
  {store : Bool} {banned : RegMask} {code : List Instr}

theorem scratch_ne_rsp {p : Gpr → Bool} {g : Gpr} (h : P.intScratch.find? p = some g) :
    g ≠ .rsp := (P.frame_notMem g (List.mem_of_find?_eq_some h)).1

/-- One integer register in a group of its own: the body gets one that is not `rsp`. -/
theorem shifts_withInt {body : Gpr → Option (List Instr)}
    (hb : ∀ g c, g ≠ .rsp → body g = some c → Shifts 0 c)
    (h : P.withInt x size store banned body = some code) : Shifts 0 code := by
  unfold withInt getInt at h
  cases hx : P.intLoc x with
  | reg g =>
    have hg : g ≠ .rsp := fun hg => P.intLoc_ne_rsp x (by rw [hx, hg])
    simp only [hx, Option.bind_eq_bind, Option.bind_some] at h
    obtain ⟨c, hc, h⟩ := Option.bind_eq_some_iff.mp h
    cases h
    simpa [endRegGroup, beginRegGroup] using hb g c hg hc
  | stack offset =>
    simp only [hx, Option.bind_eq_bind, Option.bind_assoc] at h
    obtain ⟨g, hg, h⟩ := Option.bind_eq_some_iff.mp h
    simp only [Option.pure_def, Option.bind_some] at h
    obtain ⟨c, hc, h⟩ := Option.bind_eq_some_iff.mp h
    cases h
    have hne := scratch_ne_rsp hg
    have load : (Instr.movRM size g (rbpOffsetAddr offset)).Plain :=
      plain_of_writes rfl hne rfl rfl
    have save : Shifts 0 (if store then [Instr.movMR false size (rbpOffsetAddr offset) g] else []) := by
      split
      · exact Shifts.plain ⟨rfl, rfl⟩
      · exact Shifts.nil
    have := shifts_bracket (r := .int g) (by simpa using hne)
      ((Shifts.zero_cons load (hb g c hne hc)).zero_append save)
    simpa [endRegGroup, beginRegGroup, TmpReg.close] using this

theorem shifts_withFlt {body : Xmm → Option (List Instr)}
    (hb : ∀ r c, body r = some c → Shifts 0 c)
    (h : P.withFlt x kind store banned body = some code) : Shifts 0 code := by
  unfold withFlt getFlt at h
  cases hx : P.fltLoc x with
  | reg r =>
    simp only [hx, Option.bind_eq_bind, Option.bind_some] at h
    obtain ⟨c, hc, h⟩ := Option.bind_eq_some_iff.mp h
    cases h
    simpa [endRegGroup, beginRegGroup] using hb r c hc
  | stack offset =>
    simp only [hx, Option.bind_eq_bind, Option.bind_assoc] at h
    obtain ⟨r, -, h⟩ := Option.bind_eq_some_iff.mp h
    simp only [Option.pure_def, Option.bind_some] at h
    obtain ⟨c, hc, h⟩ := Option.bind_eq_some_iff.mp h
    cases h
    have save : Shifts 0 (if store then [Instr.movFltMR kind (rbpOffsetAddr offset) r] else []) := by
      split
      · exact Shifts.plain ⟨rfl, rfl⟩
      · exact Shifts.nil
    have := shifts_bracket (r := .xmm r) (by simp)
      ((Shifts.zero_cons (i := .movFltRM kind r (rbpOffsetAddr offset)) ⟨rfl, rfl⟩
        (hb r c hc)).zero_append save)
    simpa [endRegGroup, beginRegGroup, TmpReg.close] using this

/-! ## Emitters -/

variable {y : XReg} {addr : XMemAddr}

theorem intLoc_reg_ne {g : Gpr} (h : P.intLoc x = .reg g) : g ≠ .rsp :=
  fun hg => P.intLoc_ne_rsp x (by rw [h, hg])

theorem plain_movRM {g : Gpr} {m : SibdAddr} (hg : g ≠ .rsp) : (Instr.movRM size g m).Plain :=
  plain_of_writes rfl hg rfl rfl

/-- An operation on a spilled first operand, which is loaded to `rax` and stored back. -/
theorem shifts_throughRax {i : Instr} {m : SibdAddr} {w : Bool} (hi : i.Plain) :
    Shifts 0 ([.push .rax, .movRM size .rax m, i] ++
      (if w then [.movMR false size m .rax] else []) ++ [.pop .rax]) := by
  have store : Shifts 0 (if w then [Instr.movMR false size m .rax] else []) := by
    split
    · exact Shifts.plain ⟨rfl, rfl⟩
    · exact Shifts.nil
  have body : Shifts 0 ([.movRM size .rax m, i] ++
      (if w then [.movMR false size m .rax] else [])) :=
    (Shifts.zero_cons (plain_movRM (by decide)) (Shifts.plain hi)).zero_append store
  simpa [pushReg, popReg] using shifts_bracket (r := .int .rax) (by decide) body

theorem shifts_emitBinIntRR {kind : BinKind} {w allowMR : Bool}
    (h : P.emitBinIntRR kind w allowMR size x y = some code) : Shifts 0 code := by
  unfold emitBinIntRR at h
  split at h
  case h_1 a b ha hb =>
    obtain ⟨emit, he, h⟩ := Option.bind_eq_some_iff.mp h
    cases h
    exact Shifts.plain (binIntRREmit_plain he (intLoc_reg_ne ha))
  case h_2 a offset ha hb =>
    obtain ⟨emit, he, h⟩ := Option.bind_eq_some_iff.mp h
    cases h
    exact Shifts.plain (binIntRMEmit_plain he (intLoc_reg_ne ha))
  case h_3 offset b ha hb =>
    split at h <;> obtain ⟨emit, he, h⟩ := Option.bind_eq_some_iff.mp h <;> cases h
    · exact Shifts.plain (binIntMREmit_plain he)
    · exact shifts_throughRax (binIntRREmit_plain he (by decide))
  case h_4 offset offset' ha hb =>
    obtain ⟨emit, he, h⟩ := Option.bind_eq_some_iff.mp h
    cases h
    exact shifts_throughRax (binIntRMEmit_plain he (by decide))

theorem shifts_throughXmm {i : Instr} {m : SibdAddr} (hi : i.Plain) :
    Shifts 0 (pushReg (.xmm 0) ++ [.movFltRM kind 0 m, i, .movFltMR kind m 0] ++
      popReg (.xmm 0)) :=
  shifts_bracket (by decide) (Shifts.zero_cons ⟨rfl, rfl⟩ (Shifts.zero_cons hi
    (Shifts.plain ⟨rfl, rfl⟩)))

theorem shifts_emitBinFltRR {kind : FltKind} {fltKind : FloatKind} {allowMR : Bool}
    (h : P.emitBinFltRR kind fltKind x y allowMR = some code) : Shifts 0 code := by
  unfold emitBinFltRR at h
  split at h
  case h_1 =>
    obtain ⟨emit, he, h⟩ := Option.bind_eq_some_iff.mp h
    cases h
    exact Shifts.plain (binFltRREmit_plain he)
  case h_2 =>
    obtain ⟨emit, he, h⟩ := Option.bind_eq_some_iff.mp h
    cases h
    exact Shifts.plain (binFltRMEmit_plain he)
  case h_3 =>
    split at h <;> obtain ⟨emit, he, h⟩ := Option.bind_eq_some_iff.mp h <;> cases h
    · exact Shifts.plain (binFltMREmit_plain he)
    · exact shifts_throughXmm (binFltRREmit_plain he)
  case h_4 =>
    obtain ⟨emit, he, h⟩ := Option.bind_eq_some_iff.mp h
    cases h
    exact shifts_throughXmm (binFltRMEmit_plain he)

theorem shifts_emitMovExtRR {kind : ExtKind} {size' : Size}
    (h : P.emitMovExtRR kind size x size' y = some code) : Shifts 0 code := by
  refine shifts_withInt (fun d c hd hc => ?_) h
  split at hc <;> obtain ⟨emit, he, hc⟩ := Option.bind_eq_some_iff.mp hc <;> cases hc
  · exact Shifts.plain (movExtRREmit_plain he hd)
  · exact Shifts.plain (movExtRMEmit_plain he hd)

theorem shifts_emitMovExtRM {kind : ExtKind} {size' : Size}
    (h : P.emitMovExtRM kind size x size' addr = some code) : Shifts 0 code := by
  obtain ⟨⟨m, used⟩, -, h⟩ := Option.bind_eq_some_iff.mp h
  refine shifts_withInt (fun d c hd hc => ?_) h
  obtain ⟨emit, he, hc⟩ := Option.bind_eq_some_iff.mp hc
  cases hc
  exact Shifts.plain (movExtRMEmit_plain he hd)

theorem shifts_emitBinIntRM {kind : BinKind} {w : Bool}
    (h : P.emitBinIntRM kind w size x addr = some code) : Shifts 0 code := by
  obtain ⟨⟨m, used⟩, -, h⟩ := Option.bind_eq_some_iff.mp h
  refine shifts_withInt (fun d c hd hc => ?_) h
  obtain ⟨emit, he, hc⟩ := Option.bind_eq_some_iff.mp hc
  cases hc
  exact Shifts.plain (binIntRMEmit_plain he hd)

theorem shifts_emitBinIntMR {kind : BinKind}
    (h : P.emitBinIntMR kind size addr x = some code) : Shifts 0 code := by
  obtain ⟨⟨m, used⟩, -, h⟩ := Option.bind_eq_some_iff.mp h
  refine shifts_withInt (fun d c hd hc => ?_) h
  obtain ⟨emit, he, hc⟩ := Option.bind_eq_some_iff.mp hc
  cases hc
  exact Shifts.plain (binIntMREmit_plain he)

theorem shifts_emitBinFltRM {kind : FltKind} {w : Bool} {fltKind : FloatKind}
    (h : P.emitBinFltRM kind w fltKind x addr = some code) : Shifts 0 code := by
  obtain ⟨⟨m, used⟩, -, h⟩ := Option.bind_eq_some_iff.mp h
  refine shifts_withFlt (fun d c hc => ?_) h
  obtain ⟨emit, he, hc⟩ := Option.bind_eq_some_iff.mp hc
  cases hc
  exact Shifts.plain (binFltRMEmit_plain he)

theorem shifts_emitBinFltMR {kind : FltKind} {fltKind : FloatKind}
    (h : P.emitBinFltMR kind fltKind addr x = some code) : Shifts 0 code := by
  obtain ⟨⟨m, used⟩, -, h⟩ := Option.bind_eq_some_iff.mp h
  refine shifts_withFlt (fun d c hc => ?_) h
  obtain ⟨emit, he, hc⟩ := Option.bind_eq_some_iff.mp hc
  cases hc
  exact Shifts.plain (binFltMREmit_plain he)

theorem shifts_emitBinIntMI {kind : BinKind} {imm : BitVec 64}
    (h : P.emitBinIntMI kind size addr imm = some code) : Shifts 0 code := by
  obtain ⟨⟨m, used⟩, -, h⟩ := Option.bind_eq_some_iff.mp h
  obtain ⟨emit, he, h⟩ := Option.bind_eq_some_iff.mp h
  cases h
  exact Shifts.plain (binIntMIEmit_plain he)

theorem shifts_emitBinIntRI {kind : BinKind} {imm : BitVec 64}
    (h : P.emitBinIntRI kind size x imm = some code) : Shifts 0 code := by
  unfold emitBinIntRI at h
  split at h <;> obtain ⟨emit, he, h⟩ := Option.bind_eq_some_iff.mp h <;> cases h
  · exact Shifts.plain (binIntRIEmit_plain he (intLoc_reg_ne ‹_›))
  · exact Shifts.plain (binIntMIEmit_plain he)

theorem shifts_emitRegMem {r : Gpr → Instr} {m : SibdAddr → Instr}
    (hr : ∀ g, g ≠ .rsp → (r g).Plain) (hm : ∀ a, (m a).Plain) : Shifts 0 (P.emitRegMem x r m) := by
  unfold emitRegMem
  split
  · exact Shifts.plain (hr _ (intLoc_reg_ne ‹_›))
  · exact Shifts.plain (hm _)

theorem shifts_readFlt {r : Xmm → Instr} {m : SibdAddr → Instr} (hr : ∀ g, (r g).Plain)
    (hm : ∀ a, (m a).Plain) (h : P.readFlt x r m = some code) : Shifts 0 code := by
  unfold readFlt at h
  split at h <;> cases h
  · exact Shifts.plain (hr _)
  · exact Shifts.plain (hm _)

variable {kind' : FloatKind}

theorem shifts_emitCvtFltRR (h : P.emitCvtFltRR kind x y = some code) : Shifts 0 code :=
  shifts_withFlt (fun _ _ hc => shifts_readFlt (fun _ => ⟨rfl, rfl⟩) (fun _ => ⟨rfl, rfl⟩) hc) h

theorem shifts_emitCvtFltRM (h : P.emitCvtFltRM kind x addr = some code) : Shifts 0 code := by
  obtain ⟨⟨m, used⟩, -, h⟩ := Option.bind_eq_some_iff.mp h
  refine shifts_withFlt (fun d c hc => ?_) h
  cases hc
  exact Shifts.plain ⟨rfl, rfl⟩

theorem shifts_emitCvtFltIntRR (h : P.emitCvtFltIntRR kind size x y = some code) :
    Shifts 0 code :=
  shifts_withInt (fun _ _ hd hc => shifts_readFlt (fun _ => plain_of_writes rfl hd rfl rfl)
    (fun _ => plain_of_writes rfl hd rfl rfl) hc) h

theorem shifts_emitCvtFltIntRM (h : P.emitCvtFltIntRM kind size x addr = some code) :
    Shifts 0 code := by
  obtain ⟨⟨m, used⟩, -, h⟩ := Option.bind_eq_some_iff.mp h
  refine shifts_withInt (fun d c hd hc => ?_) h
  cases hc
  exact Shifts.plain (plain_of_writes rfl hd rfl rfl)

theorem shifts_emitCvtIntFltRR (h : P.emitCvtIntFltRR kind x size y = some code) :
    Shifts 0 code := by
  unfold emitCvtIntFltRR at h
  split at h
  · cases h
  refine shifts_withFlt (fun d c hc => ?_) h
  cases hc
  exact shifts_emitRegMem (fun _ _ => ⟨rfl, rfl⟩) fun _ => ⟨rfl, rfl⟩

theorem shifts_emitCvtIntFltRM (h : P.emitCvtIntFltRM kind x size addr = some code) :
    Shifts 0 code := by
  unfold emitCvtIntFltRM at h
  split at h
  · cases h
  obtain ⟨⟨m, used⟩, -, h⟩ := Option.bind_eq_some_iff.mp h
  refine shifts_withFlt (fun d c hc => ?_) h
  cases hc
  exact Shifts.plain ⟨rfl, rfl⟩

theorem shifts_emitUcomisRR (h : P.emitUcomisRR kind x y = some code) : Shifts 0 code :=
  shifts_withFlt (fun _ _ hc => shifts_readFlt (fun _ => ⟨rfl, rfl⟩) (fun _ => ⟨rfl, rfl⟩) hc) h

theorem shifts_emitUcomisRM (h : P.emitUcomisRM kind x addr = some code) : Shifts 0 code := by
  obtain ⟨⟨m, used⟩, -, h⟩ := Option.bind_eq_some_iff.mp h
  refine shifts_withFlt (fun d c hc => ?_) h
  cases hc
  exact Shifts.plain ⟨rfl, rfl⟩

theorem shifts_emitLea (h : P.emitLea x addr = some code) : Shifts 0 code := by
  obtain ⟨⟨m, used⟩, -, h⟩ := Option.bind_eq_some_iff.mp h
  refine shifts_withInt (fun d c hd hc => ?_) h
  cases hc
  exact Shifts.plain (plain_of_writes rfl hd rfl rfl)

theorem shifts_emitMovRI {imm : BitVec 64} (h : P.emitMovRI size x imm = some code) :
    Shifts 0 code := by
  refine shifts_withInt (fun d c hd hc => ?_) h
  cases hc
  exact Shifts.plain (plain_of_writes rfl hd rfl rfl)

theorem shifts_emitMovRRH (h : P.emitMovRRH x y = some code) : Shifts 0 code := by
  unfold emitMovRRH at h
  split at h <;> cases h
  exact shifts_emitRegMem (fun _ hd => plain_of_writes rfl hd rfl rfl) fun _ => ⟨rfl, rfl⟩

theorem shifts_emitShiftRR {op : ShiftOp} (h : P.emitShiftRR op size x y = some code) :
    Shifts 0 code := by
  unfold emitShiftRR at h
  split at h <;> cases h
  exact shifts_emitRegMem (fun _ hd => plain_of_writes rfl hd rfl rfl) fun _ => ⟨rfl, rfl⟩

theorem shifts_emitMovzxRR {size' : Size} (h : P.emitMovzxRR size x size' y = some code) :
    Shifts 0 code := by
  unfold emitMovzxRR at h
  split at h
  · exact shifts_emitMovExtRR h
  split at h
  · exact shifts_emitBinIntRR h
  · cases h

theorem shifts_emitMovzxRM {size' : Size} (h : P.emitMovzxRM size x size' addr = some code) :
    Shifts 0 code := by
  unfold emitMovzxRM at h
  split at h
  · exact shifts_emitMovExtRM h
  split at h
  · exact shifts_emitBinIntRM h
  · cases h

/-- Instructions other than calls leave `rsp` as they find it. -/
theorem shifts_genInstr {last : Bool} {bb : IR.BBlockId} {i : XIR.Instr}
    (h : P.genInstr last bb i = some code) (hc : i.call? = none) : Shifts 0 code := by
  have skip {c₁ c₂ : List Instr} {b : Bool} (h₂ : Shifts 0 c₂) (h₁ : Shifts 0 c₁) :
      Shifts 0 (if b then c₁ else c₂) := by split <;> assumption
  cases i with
  | movRR size dst src =>
    simp only [genInstr] at h
    split at h
    · cases h; exact Shifts.nil
    · exact shifts_emitBinIntRR h
  | movRM size dst src => exact shifts_emitBinIntRM h
  | movMR size dst src => exact shifts_emitBinIntMR h
  | movRI size dst src => exact shifts_emitMovRI h
  | movMI size dst src => exact shifts_emitBinIntMI h
  | movRRH dst src => exact shifts_emitMovRRH h
  | arithRR op size dst src => cases op <;> exact shifts_emitBinIntRR h
  | arithRM op size dst src => cases op <;> exact shifts_emitBinIntRM h
  | arithRI op size dst src => cases op <;> exact shifts_emitBinIntRI h
  | cmpMR size op1 op2 => exact shifts_emitBinIntMR h
  | cmpMI size op1 op2 => exact shifts_emitBinIntMI h
  | raxR op size dx ax src =>
    cases h
    exact shifts_emitRegMem (fun _ _ => ⟨rfl, rfl⟩) fun _ => ⟨rfl, rfl⟩
  | raxM op size dx ax src =>
    obtain ⟨⟨m, used⟩, -, h⟩ := Option.bind_eq_some_iff.mp h
    cases h
    exact Shifts.plain ⟨rfl, rfl⟩
  | sextAxToDx size dx ax => cases size <;> cases h <;> exact Shifts.plain ⟨rfl, rfl⟩
  | shiftRR op size dst src => exact shifts_emitShiftRR h
  | shiftRI op size dst src =>
    cases h
    exact shifts_emitRegMem (fun _ hd => plain_of_writes rfl hd rfl rfl) fun _ => ⟨rfl, rfl⟩
  | unary op size dst =>
    cases h
    exact shifts_emitRegMem (fun _ hd => plain_of_writes rfl hd rfl rfl) fun _ => ⟨rfl, rfl⟩
  | movExtRR op dstSize dst srcSize src =>
    cases op with
    | movsx => exact shifts_emitMovExtRR h
    | movzx => exact shifts_emitMovzxRR h
  | movExtRM op dstSize dst srcSize src =>
    cases op with
    | movsx => exact shifts_emitMovExtRM h
    | movzx => exact shifts_emitMovzxRM h
  | fltRR op kind dst src => exact shifts_emitBinFltRR h
  | fltRM op kind dst src => exact shifts_emitBinFltRM h
  | movFltRR kind dst src =>
    simp only [genInstr] at h
    split at h
    · cases h; exact Shifts.nil
    · exact shifts_emitBinFltRR h
  | movFltRM kind dst src => exact shifts_emitBinFltRM h
  | movFltMR kind dst src => exact shifts_emitBinFltMR h
  | cvtFltRR srcKind dst src => exact shifts_emitCvtFltRR h
  | cvtFltRM srcKind dst src => exact shifts_emitCvtFltRM h
  | cvtFltIntRR srcKind dstSize dst src => exact shifts_emitCvtFltIntRR h
  | cvtFltIntRM srcKind dstSize dst src => exact shifts_emitCvtFltIntRM h
  | cvtIntFltRR dstKind dst srcSize src => exact shifts_emitCvtIntFltRR h
  | cvtIntFltRM dstKind dst srcSize src => exact shifts_emitCvtIntFltRM h
  | lea dst mem => exact shifts_emitLea h
  | ucomisRR kind op1 op2 => exact shifts_emitUcomisRR h
  | ucomisRM kind op1 op2 => exact shifts_emitUcomisRM h
  | jmp target =>
    cases h
    split
    · exact Shifts.nil
    · exact Shifts.plain ⟨rfl, rfl⟩
  | jmpcc cond trueBb falseBb =>
    obtain ⟨t, -, rfl⟩ := Option.map_eq_some_iff.mp h
    exact Shifts.plain ⟨rfl, rfl⟩
  | setcc cond dst =>
    cases h
    exact shifts_emitRegMem (fun _ hd => plain_of_writes rfl hd rfl rfl) fun _ => ⟨rfl, rfl⟩
  | repMovsb rdi rsi rcx => cases h; exact Shifts.plain ⟨rfl, rfl⟩
  | repStosb rdi al rcx => cases h; exact Shifts.plain ⟨rfl, rfl⟩
  | syscall nr args rcx r11 => cases h; exact Shifts.plain ⟨rfl, rfl⟩
  | ret ax dx =>
    cases h
    exact skip (Shifts.plain ⟨rfl, rfl⟩) Shifts.nil
  | call sym c => cases hc
  | callR procLoc c => cases hc

end ProcState

end Nibble.X64
