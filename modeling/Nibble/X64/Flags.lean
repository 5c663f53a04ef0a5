import Nibble.X64.EmitExact
import Nibble.XIR.Compare

/-!
# Flags from a comparison to its consumer

What is emitted between the machine's comparison and the jump or `setcc` that
reads its flags restores the temporary register of a spilled operand. A
general-purpose register is popped, which leaves the flags. The 16 bytes of a
vector register are given back by an `add` to `rsp`, which does not.
-/

namespace Nibble.X64

open Nibble.IR (BBlockId)
open Nibble.XIR (XReg XMemAddr ArithOp)

/-- The instructions that modify the flags, as the machine has it. -/
def Instr.modifiesFlags : Instr → Bool
  | .aluRR _ _ _ _ | .aluRM _ _ _ _ | .aluMR _ _ _ _ | .aluRI _ _ _ _ | .aluMI _ _ _ _
  | .imulRR _ _ _ | .imulRM _ _ _ | .imulRI _ _ _ | .imulMI _ _ _ | .raxR _ _ _ | .raxM _ _ _
  | .shiftRR _ _ _ | .shiftMR _ _ _ | .shiftRI _ _ _ _ | .shiftMI _ _ _ _
  | .unaryR .neg _ _ | .unaryM .neg _ _ | .ucomisRR _ _ _ | .ucomisRM _ _ _
  | .call _ | .callR _ | .callM _ | .syscall => true
  | _ => false

/-- The comparisons of the machine. -/
def Instr.isCompare : Instr → Bool
  | .aluRR .cmp _ _ _ | .aluRM .cmp _ _ _ | .aluMR .cmp _ _ _ | .aluRI .cmp _ _ _
  | .aluMI .cmp _ _ _ | .ucomisRR _ _ _ | .ucomisRM _ _ _ => true
  | _ => false

/-- `jcc` and `setcc`. -/
def Instr.readsFlags : Instr → Bool
  | .jmpcc _ _ | .setccR _ _ | .setccM _ _ => true
  | _ => false

/-- An instruction that is neither a comparison nor a consumer. -/
def Instr.Aside (i : Instr) : Prop := i.isCompare = false ∧ i.readsFlags = false

/-- `mid` is what stands between the one comparison of the code and its one consumer. -/
def Between (code mid : List Instr) : Prop :=
  ∃ pre m k, code = pre ++ m :: (mid ++ [k]) ∧ m.isCompare = true ∧ k.readsFlags = true ∧
    (∀ i ∈ pre, i.Aside) ∧ ∀ i ∈ mid, i.Aside

/-- The flags of the comparison are those that the consumer reads. -/
def FlagsSurvive (code : List Instr) : Prop :=
  ∃ mid, Between code mid ∧ ∀ i ∈ mid, i.modifiesFlags = false

/-- The first place where a predicate holds splits a list in one way. -/
theorem append_cons_inj {α : Type} {p : α → Bool} {l l' r r' : List α} {a a' : α}
    (h : l ++ a :: r = l' ++ a' :: r') (ha : p a = true) (ha' : p a' = true)
    (hl : ∀ x ∈ l, p x = false) (hl' : ∀ x ∈ l', p x = false) : r = r' := by
  induction l generalizing l' with
  | nil =>
    cases l' with
    | nil => exact (List.cons.inj h).2
    | cons b l' =>
      have := hl' b List.mem_cons_self
      rw [← (List.cons.inj h).1, ha] at this
      cases this
  | cons b l ih =>
    cases l' with
    | nil =>
      have := hl b List.mem_cons_self
      rw [(List.cons.inj h).1, ha'] at this
      cases this
    | cons b' l' =>
      exact ih (List.cons.inj h).2 (fun x hx => hl x (List.mem_cons_of_mem _ hx))
        fun x hx => hl' x (List.mem_cons_of_mem _ hx)

theorem Between.unique {code mid mid' : List Instr} (h : Between code mid)
    (h' : Between code mid') : mid = mid' := by
  obtain ⟨pre, m, k, rfl, hm, -, hpre, -⟩ := h
  obtain ⟨pre', m', k', he, hm', -, hpre', -⟩ := h'
  have hr := append_cons_inj he hm hm' (fun i hi => (hpre i hi).1) fun i hi => (hpre' i hi).1
  exact (List.append_inj' hr rfl).1

theorem flagsSurvive_iff {code mid : List Instr} (h : Between code mid) :
    FlagsSurvive code ↔ ∀ i ∈ mid, i.modifiesFlags = false :=
  ⟨fun ⟨_, h', hmid⟩ => h.unique h' ▸ hmid, fun hmid => ⟨mid, h, hmid⟩⟩

/-! ## The code of a comparison -/

/-- Code around one comparison: what precedes it and what follows it. -/
def Around (code post : List Instr) : Prop :=
  ∃ pre m, code = pre ++ m :: post ∧ m.isCompare = true ∧ (∀ i ∈ pre, i.Aside) ∧
    ∀ i ∈ post, i.Aside

theorem Around.between {code post : List Instr} {k : Instr} (h : Around code post)
    (hk : k.readsFlags = true) : Between (code ++ [k]) post := by
  obtain ⟨pre, m, rfl, hm, hpre, hpost⟩ := h
  exact ⟨pre, m, k, by rw [List.append_assoc, List.cons_append], hm, hk, hpre, hpost⟩

theorem around_single {m : Instr} (hm : m.isCompare = true) : Around [m] [] :=
  ⟨[], m, rfl, hm, by simp, by simp⟩

theorem aside_pushReg (r : Reg) : ∀ i ∈ pushReg r, i.Aside := by
  cases r <;> simp [pushReg, Instr.Aside, Instr.isCompare, Instr.readsFlags]

theorem aside_popReg (r : Reg) : ∀ i ∈ popReg r, i.Aside := by
  cases r <;> simp [popReg, Instr.Aside, Instr.isCompare, Instr.readsFlags]

/-- A comparison of a temporary register, which is loaded before and restored after. -/
theorem around_bracket {r : Reg} {load m : Instr} (hl : load.Aside) (hm : m.isCompare = true) :
    Around (pushReg r ++ [load] ++ [m] ++ popReg r) (popReg r) := by
  refine ⟨pushReg r ++ [load], m, by simp, hm, fun i hi => ?_, aside_popReg r⟩
  rcases List.mem_append.mp hi with hi | hi
  · exact aside_pushReg r i hi
  · rw [List.mem_singleton.mp hi]
    exact hl

/-- Only the restoring of a vector register modifies the flags. -/
theorem popReg_modifiesFlags (r : Reg) :
    (∀ i ∈ popReg r, i.modifiesFlags = false) ↔ ∀ x, r ≠ .xmm x := by
  cases r <;> simp [popReg, Instr.modifiesFlags]

namespace ProcState

variable {P : ProcState} {x y : XReg} {addr : XMemAddr} {size : Size} {kind : FloatKind}
  {banned : RegMask} {code : List Instr}

/-- What follows the comparison of an integer register restores no vector register. -/
theorem around_withInt {body : Gpr → Option (List Instr)}
    (hb : ∀ g c, body g = some c → ∃ m, c = [m] ∧ m.isCompare = true)
    (h : P.withInt x size false banned body = some code) :
    ∃ post, Around code post ∧ ∀ i ∈ post, i.modifiesFlags = false := by
  unfold withInt getInt at h
  cases hx : P.intLoc x with
  | reg g =>
    simp only [hx, Option.bind_eq_bind, Option.bind_some] at h
    obtain ⟨c, hc, h⟩ := Option.bind_eq_some_iff.mp h
    cases h
    obtain ⟨m, rfl, hm⟩ := hb g c hc
    exact ⟨[], around_single hm, by simp⟩
  | stack offset =>
    simp only [hx, Option.bind_eq_bind, Option.bind_assoc] at h
    obtain ⟨g, -, h⟩ := Option.bind_eq_some_iff.mp h
    simp only [Option.pure_def, Option.bind_some] at h
    obtain ⟨c, hc, h⟩ := Option.bind_eq_some_iff.mp h
    cases h
    obtain ⟨m, rfl, hm⟩ := hb g c hc
    refine ⟨popReg (.int g), ?_, (popReg_modifiesFlags _).mpr fun _ => nofun⟩
    have := @around_bracket (.int g) (.movRM size g (rbpOffsetAddr offset)) m ⟨rfl, rfl⟩ hm
    simpa [endRegGroup, beginRegGroup, TmpReg.close] using this

/-- Whether the first operand of a float comparison is spilled. -/
def fltSpilled (P : ProcState) (x : XReg) : Bool :=
  match P.fltLoc x with
  | .reg _ => false
  | .stack _ => true

theorem around_withFlt {body : Xmm → Option (List Instr)}
    (hb : ∀ r c, body r = some c → ∃ m, c = [m] ∧ m.isCompare = true)
    (h : P.withFlt x kind false banned body = some code) :
    ∃ post, Around code post ∧
      ((∀ i ∈ post, i.modifiesFlags = false) ↔ P.fltSpilled x = false) := by
  unfold withFlt getFlt at h
  unfold fltSpilled
  cases hx : P.fltLoc x with
  | reg r =>
    simp only [hx, Option.bind_eq_bind, Option.bind_some] at h
    obtain ⟨c, hc, h⟩ := Option.bind_eq_some_iff.mp h
    cases h
    obtain ⟨m, rfl, hm⟩ := hb r c hc
    exact ⟨[], around_single hm, by simp⟩
  | stack offset =>
    simp only [hx, Option.bind_eq_bind, Option.bind_assoc] at h
    obtain ⟨r, -, h⟩ := Option.bind_eq_some_iff.mp h
    simp only [Option.pure_def, Option.bind_some] at h
    obtain ⟨c, hc, h⟩ := Option.bind_eq_some_iff.mp h
    cases h
    obtain ⟨m, rfl, hm⟩ := hb r c hc
    refine ⟨popReg (.xmm r), ?_, by simp [popReg_modifiesFlags]⟩
    have := @around_bracket (.xmm r) (.movFltRM kind r (rbpOffsetAddr offset)) m ⟨rfl, rfl⟩ hm
    simpa [endRegGroup, beginRegGroup, TmpReg.close] using this

/-- A comparison of integers between registers is one instruction; spilled operands are not
emitted at all. -/
theorem around_cmpRR (h : P.emitBinIntRR ⟨.alu .cmp, .rr⟩ false true size x y = some code) :
    ∃ post, Around code post ∧ ∀ i ∈ post, i.modifiesFlags = false := by
  unfold emitBinIntRR at h
  split at h
  · cases h
    exact ⟨[], around_single rfl, by simp⟩
  all_goals cases h

theorem around_cmpRI {imm : BitVec 64}
    (h : P.emitBinIntRI ⟨.alu .cmp, .ri⟩ size x imm = some code) :
    ∃ post, Around code post ∧ ∀ i ∈ post, i.modifiesFlags = false := by
  unfold emitBinIntRI at h
  split at h
  · cases h
    exact ⟨[], around_single rfl, by simp⟩
  · cases h

theorem around_cmpRM (h : P.emitBinIntRM ⟨.alu .cmp, .rm⟩ false size x addr = some code) :
    ∃ post, Around code post ∧ ∀ i ∈ post, i.modifiesFlags = false := by
  obtain ⟨⟨m, used⟩, -, h⟩ := Option.bind_eq_some_iff.mp h
  exact around_withInt (fun g c hc => by cases hc; exact ⟨_, rfl, rfl⟩) h

theorem around_cmpMR (h : P.emitBinIntMR ⟨.alu .cmp, .mr⟩ size addr x = some code) :
    ∃ post, Around code post ∧ ∀ i ∈ post, i.modifiesFlags = false := by
  obtain ⟨⟨m, used⟩, -, h⟩ := Option.bind_eq_some_iff.mp h
  exact around_withInt (fun g c hc => by cases hc; exact ⟨_, rfl, rfl⟩) h

theorem around_cmpMI {imm : BitVec 64}
    (h : P.emitBinIntMI ⟨.alu .cmp, .mi⟩ size addr imm = some code) :
    ∃ post, Around code post ∧ ∀ i ∈ post, i.modifiesFlags = false := by
  obtain ⟨⟨m, used⟩, -, h⟩ := Option.bind_eq_some_iff.mp h
  cases h
  exact ⟨[], around_single rfl, by simp⟩

theorem around_ucomisRR (h : P.emitUcomisRR kind x y = some code) :
    ∃ post, Around code post ∧
      ((∀ i ∈ post, i.modifiesFlags = false) ↔ P.fltSpilled x = false) := by
  refine around_withFlt (fun r c hc => ?_) h
  unfold readFlt at hc
  split at hc <;> cases hc <;> exact ⟨_, rfl, rfl⟩

theorem around_ucomisRM (h : P.emitUcomisRM kind x addr = some code) :
    ∃ post, Around code post ∧
      ((∀ i ∈ post, i.modifiesFlags = false) ↔ P.fltSpilled x = false) := by
  obtain ⟨⟨m, used⟩, -, h⟩ := Option.bind_eq_some_iff.mp h
  exact around_withFlt (fun r c hc => by cases hc; exact ⟨_, rfl, rfl⟩) h

/-- The comparison of floats whose first operand is in a stack slot. -/
def restoresXmm (P : ProcState) : XIR.Instr → Bool
  | .ucomisRR _ op1 _ | .ucomisRM _ op1 _ => P.fltSpilled op1
  | _ => false

theorem around_genInstr {last : Bool} {bb : BBlockId} {i : XIR.Instr} (hi : i.isCompare = true)
    (h : P.genInstr last bb i = some code) :
    ∃ post, Around code post ∧
      ((∀ j ∈ post, j.modifiesFlags = false) ↔ P.restoresXmm i = false) := by
  have int {i : XIR.Instr} (hr : P.restoresXmm i = false)
      (h : ∃ post, Around code post ∧ ∀ j ∈ post, j.modifiesFlags = false) :
      ∃ post, Around code post ∧
        ((∀ j ∈ post, j.modifiesFlags = false) ↔ P.restoresXmm i = false) := by
    obtain ⟨post, ha, hpost⟩ := h
    exact ⟨post, ha, iff_of_true hpost hr⟩
  unfold XIR.Instr.isCompare at hi
  split at hi
  · exact int rfl (around_cmpRR h)
  · exact int rfl (around_cmpRM h)
  · exact int rfl (around_cmpRI h)
  · exact int rfl (around_cmpMR h)
  · exact int rfl (around_cmpMI h)
  · exact around_ucomisRR h
  · exact around_ucomisRM h
  · cases hi

/-- A consumer is one instruction. -/
theorem genInstr_readsFlags {last : Bool} {bb : BBlockId} {j : XIR.Instr}
    (hj : j.readsFlags = true) (h : P.genInstr last bb j = some code) :
    ∃ k, code = [k] ∧ k.readsFlags = true := by
  cases j with
  | jmpcc cond trueBb falseBb =>
    obtain ⟨t, -, rfl⟩ := Option.map_eq_some_iff.mp h
    exact ⟨_, rfl, rfl⟩
  | setcc cond dst =>
    cases h
    unfold emitRegMem
    split <;> exact ⟨_, rfl, rfl⟩
  | _ => cases hj

/-- **Which flags survive.** Between a comparison and its consumer nothing that is emitted
modifies the flags, except where the first operand of a float comparison is spilled. -/
theorem flagsSurvive_genInstr_iff (P : ProcState) (last last' : Bool) (bb bb' : BBlockId)
    {i j : XIR.Instr} (hi : i.isCompare = true) (hj : j.readsFlags = true)
    {c₁ c₂ : List Instr} (h₁ : P.genInstr last bb i = some c₁)
    (h₂ : P.genInstr last' bb' j = some c₂) :
    FlagsSurvive (c₁ ++ c₂) ↔ P.restoresXmm i = false := by
  obtain ⟨post, ha, hpost⟩ := around_genInstr hi h₁
  obtain ⟨k, rfl, hk⟩ := genInstr_readsFlags hj h₂
  rw [flagsSurvive_iff (ha.between hk), hpost]

/-- A comparison of a float in a register with a spilled one, and its jump. -/
theorem flagsSurvive_genInstr_inReg :
    FlagsSurvive [.ucomisRM .f64 0 (rbpOffsetAddr (-8)), .jmpcc 5 .uLt] ↔
      oneReg.restoresXmm (.ucomisRR .f64 0 1) = false := by
  have h₁ : oneReg.genInstr false 0 (.ucomisRR .f64 0 1) =
      some [.ucomisRM .f64 0 (rbpOffsetAddr (-8))] := rfl
  have h₂ : oneReg.genInstr false 0 (.jmpcc .uLt (some 5) 6) = some [.jmpcc 5 .uLt] := rfl
  exact oneReg.flagsSurvive_genInstr_iff false false 0 0 rfl rfl h₁ h₂

/-- `a < b` of doubles with `a` spilled, and the jump on it: `add rsp, 16` stands between. -/
theorem not_flagsSurvive_spilled :
    ∃ (P : ProcState) (ρ : XIR.Regs) (i j : XIR.Instr) (c₁ c₂ : List Instr),
      ρ.convertFltCmp .f64 .uLt 2 1 (.reg 0) (some (.condJmp 0 (some 5) 6 2)) = [i, j] ∧
        i.isCompare = true ∧ j.readsFlags = true ∧ P.genInstr false 0 i = some c₁ ∧
        P.genInstr true 0 j = some c₂ ∧ ¬ FlagsSurvive (c₁ ++ c₂) := by
  have h₁ : oneReg.genInstr false 0 (.ucomisRR .f64 1 0) = some
      [.aluRI .sub .b8 .rsp 16, .movdquMR (rspOffsetAddr 0) 1,
        .movFltRM .f64 1 (rbpOffsetAddr (-8)), .ucomisRR .f64 1 0,
        .movdquRM 1 (rspOffsetAddr 0), .aluRI .add .b8 .rsp 16] := by decide
  obtain ⟨post, ha, hpost⟩ := around_genInstr rfl h₁
  refine ⟨oneReg, sameRegs, .ucomisRR .f64 1 0, .jmpcc .uLt (some 5) 6, _, [.jmpcc 5 .uLt], rfl,
    rfl, rfl, h₁, rfl, fun h => ?_⟩
  have := hpost.mp ((flagsSurvive_iff (ha.between rfl)).mp h)
  exact absurd this (by decide)

end ProcState

end Nibble.X64
