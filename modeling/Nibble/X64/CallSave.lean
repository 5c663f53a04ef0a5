import Nibble.X64.EmitCall
import Nibble.X64.RegAllocSound
import Nibble.XIR.LiveExact

/-!
# Registers across calls

A call is emitted between the pushes of the registers of its mask and the pops of
the same. The mask has the caller-saved registers of the intervals that start
before the call and end after it. So what such an interval holds comes back after
the call. The result of the call has been moved to its register by then, and the
pop loses it if its interval is such an interval itself. The registers that address
a small object as the result are read before the pops.
-/

namespace Nibble.X64

open Nibble.XIR (XReg Call LiveRanges LirProc)
open ProcState (saveRegs restoreRegs)

/-! ## Saved registers -/

/-- A word on the stack, or the sixteen bytes that an `xmm` register takes. -/
inductive SavedSlot where
  | word (v : BitVec 128)
  | wide (v : Option (BitVec 128))

/-- The registers, and what has been pushed. The depth of the stack stands for `rsp`. -/
structure SaveMachine where
  reg : Reg → BitVec 128
  saved : List SavedSlot

/-- What a register is saved to. -/
def savedSlot (reg : Reg → BitVec 128) : Reg → SavedSlot
  | .int g => .word (reg (.int g))
  | .xmm x => .wide (some (reg (.xmm x)))

namespace SaveMachine

/-- The instructions of `X64_push_reg_to_stack` and `X64_pop_reg_from_stack`. -/
def exec (σ : SaveMachine) : Instr → Option SaveMachine
  | .push g => some { σ with saved := .word (σ.reg (.int g)) :: σ.saved }
  | .pop g =>
    match σ.saved with
    | .word v :: rest => some ⟨Function.update σ.reg (.int g) v, rest⟩
    | _ => none
  | .aluRI .sub .b8 .rsp n => if n = 16 then some { σ with saved := .wide none :: σ.saved } else none
  | .aluRI .add .b8 .rsp n =>
    match σ.saved with
    | .wide _ :: rest => if n = 16 then some { σ with saved := rest } else none
    | _ => none
  | .movdquMR addr x =>
    match σ.saved with
    | .wide _ :: rest =>
      if addr = rspOffsetAddr 0 then some { σ with saved := .wide (some (σ.reg (.xmm x))) :: rest }
      else none
    | _ => none
  | .movdquRM x addr =>
    match σ.saved with
    | .wide (some v) :: _ =>
      if addr = rspOffsetAddr 0 then some { σ with reg := Function.update σ.reg (.xmm x) v }
      else none
    | _ => none
  | _ => none

/-- Instructions one after the other. -/
def run (σ : SaveMachine) (code : List Instr) : Option SaveMachine := code.foldlM exec σ

theorem run_append (σ : SaveMachine) (c₁ c₂ : List Instr) :
    σ.run (c₁ ++ c₂) = (σ.run c₁).bind fun σ => σ.run c₂ := List.foldlM_append ..

theorem run_pushReg (σ : SaveMachine) (r : Reg) :
    σ.run (pushReg r) = some { σ with saved := savedSlot σ.reg r :: σ.saved } := by
  cases r <;> rfl

theorem run_popReg {σ : SaveMachine} {v : Reg → BitVec 128} {r : Reg} {rest : List SavedSlot}
    (h : σ.saved = savedSlot v r :: rest) :
    σ.run (popReg r) = some ⟨Function.update σ.reg r (v r), rest⟩ := by
  obtain ⟨reg, saved⟩ := σ
  cases h
  cases r <;> rfl

theorem run_pushes (σ : SaveMachine) (regs : List Reg) :
    σ.run (regs.flatMap pushReg) =
      some { σ with saved := regs.reverse.map (savedSlot σ.reg) ++ σ.saved } := by
  induction regs generalizing σ with
  | nil => rfl
  | cons r regs ih =>
    rw [List.flatMap_cons, run_append, run_pushReg, Option.bind_some, ih]
    simp

theorem run_pops {v : Reg → BitVec 128} {rest : List SavedSlot} (regs : List Reg)
    {σ : SaveMachine} (h : σ.saved = regs.map (savedSlot v) ++ rest) :
    ∃ σ', σ.run (regs.flatMap popReg) = some σ' ∧
      ∀ r, σ'.reg r = if r ∈ regs then v r else σ.reg r := by
  induction regs generalizing σ with
  | nil => exact ⟨σ, rfl, by simp⟩
  | cons q regs ih =>
    obtain ⟨σ', hrun, hreg⟩ := @ih ⟨Function.update σ.reg q (v q), _⟩ rfl
    refine ⟨σ', ?_, fun r => ?_⟩
    · rw [List.map_cons, List.cons_append] at h
      rw [List.flatMap_cons, run_append, run_popReg h, Option.bind_some, hrun]
    · simp only [hreg, Function.update_apply, List.mem_cons]
      by_cases hq : r = q <;> by_cases hr : r ∈ regs <;> simp [hq, hr]

end SaveMachine

theorem RegMask.mem_regs {mask : RegMask} {r : Reg} : r ∈ mask.regs ↔ mask.mem r = true := by
  have hall : r ∈ ((List.range 16).map fun n => Reg.int (Gpr.ofVal n)) ++
      (List.finRange 16).map Reg.xmm := by
    cases r with
    | int g => exact List.mem_append_left _ (List.mem_map.mpr ⟨g.val, by cases g <;> decide, by simp⟩)
    | xmm x => exact List.mem_append_right _ (List.mem_map_of_mem (List.mem_finRange x))
  rw [RegMask.regs, ← List.filter_append, List.mem_filter]
  exact and_iff_right hall

/-- A call of the procedure: from `σ₀` the registers of the mask are pushed, the arguments placed
and the callee run, up to `σ₁`; then the result is moved and the registers are popped. Arguments go
to registers that the callee may change as well. -/
structure CallRun (mask : RegMask) (dst : Reg → Prop) (σ₀ σ₁ σ₂ σ₃ : SaveMachine) : Prop where
  call : ∃ σ, σ₀.run (saveRegs mask) = some σ ∧ σ₁.saved = σ.saved ∧
    ∀ r, r.isCalleeSaved = true → σ₁.reg r = σ.reg r
  move : σ₂.saved = σ₁.saved ∧ ∀ r, r.isCalleeSaved = true → ¬ dst r → σ₂.reg r = σ₁.reg r
  restore : σ₂.run (restoreRegs mask) = some σ₃

namespace CallRun

variable {mask : RegMask} {dst : Reg → Prop} {σ₀ σ₁ σ₂ σ₃ : SaveMachine} {r : Reg}

theorem reg_callee (h : CallRun mask dst σ₀ σ₁ σ₂ σ₃) (hr : r.isCalleeSaved = true) :
    σ₁.reg r = σ₀.reg r := by
  obtain ⟨σ, hrun, -, hreg⟩ := h.call
  rw [saveRegs, SaveMachine.run_pushes] at hrun
  cases hrun
  exact hreg r hr

/-- The registers of the mask are as before the call, the others as after the move. -/
theorem reg_restored (h : CallRun mask dst σ₀ σ₁ σ₂ σ₃) :
    σ₃.reg r = if mask.mem r = true then σ₀.reg r else σ₂.reg r := by
  obtain ⟨σ, hrun, hsaved, -⟩ := h.call
  rw [saveRegs, SaveMachine.run_pushes] at hrun
  cases hrun
  obtain ⟨σ', hrun', hreg⟩ := SaveMachine.run_pops mask.regs.reverse (h.move.1.trans hsaved)
  rw [← restoreRegs, h.restore] at hrun'
  cases hrun'
  simp only [hreg, List.mem_reverse, RegMask.mem_regs]

/-- The callee may leave anything in a caller-saved register. -/
theorem exists_clobbered (mask : RegMask) (dst : Reg → Prop) :
    ∃ σ₀ σ₁ σ₂ σ₃, CallRun mask dst σ₀ σ₁ σ₂ σ₃ ∧
      ∀ r, r.isCallerSaved = true → σ₁.reg r ≠ σ₀.reg r ∧ σ₂.reg r = σ₁.reg r := by
  let clobbered : SaveMachine := ⟨fun r => if r.isCallerSaved then 1 else 0,
    mask.regs.reverse.map (savedSlot fun _ => 0) ++ []⟩
  obtain ⟨σ₃, hrun, -⟩ := @SaveMachine.run_pops _ _ mask.regs.reverse clobbered rfl
  refine ⟨⟨fun _ => 0, []⟩, clobbered, clobbered, σ₃, ⟨?_, ⟨rfl, fun _ _ _ => rfl⟩, hrun⟩, ?_⟩
  · refine ⟨_, SaveMachine.run_pushes .., rfl, fun r hr => ?_⟩
    simp only [clobbered]
    rw [if_neg]
    simpa [Reg.isCalleeSaved, Reg.isCallerSaved] using hr
  · intro r hr
    simp only [clobbered, hr, if_true, and_true]
    decide

end CallRun

/-! ## Call sites -/

/-- `call_sites`, by number. -/
def callSites (p : LirProc) : List (Nat × Call) :=
  p.instrs.zipIdx.filterMap fun i => i.1.call?.map (i.2, ·)

theorem mem_callSites {p : LirProc} {site : Nat × Call} :
    site ∈ callSites p ↔ ∃ i, p.instrs[site.1]? = some i ∧ i.call? = some site.2 := by
  obtain ⟨ino, c⟩ := site
  simp only [callSites, List.mem_filterMap, Prod.exists, List.mem_zipIdx_iff_getElem?,
    Option.map_eq_some_iff, Prod.mk.injEq]
  constructor
  · rintro ⟨i, n, hi, c', hc, rfl, rfl⟩
    exact ⟨i, hi, hc⟩
  · rintro ⟨i, hi, hc⟩
    exact ⟨i, ino, hi, c, hc, rfl, rfl⟩

/-- Instructions are numbered in the order of the sites. -/
theorem callSites_sorted (p : LirProc) :
    ((callSites p).map fun site => (site.1 : Int)).Pairwise (· ≤ ·) := by
  have hidx : p.instrs.zipIdx.Pairwise fun i j => i.2 < j.2 := by
    have h : (p.instrs.zipIdx.map Prod.snd).Pairwise (· < ·) := by
      rw [List.zipIdx_map_snd]
      exact List.pairwise_lt_range'
    exact List.pairwise_map.mp h
  rw [List.pairwise_map, callSites, List.pairwise_filterMap]
  refine hidx.imp fun hlt site hsite site' hsite' => ?_
  obtain ⟨c, -, rfl⟩ := Option.map_eq_some_iff.mp hsite
  obtain ⟨c', -, rfl⟩ := Option.map_eq_some_iff.mp hsite'
  exact Int.ofNat_le.mpr (Nat.le_of_lt hlt)

/-- An `XIR_RegRange` once the live intervals have been computed. -/
def regRange (ranges : LiveRanges) (attrs : XReg → RegClass × AllocCtrl) (l : XReg) : RegRange where
  lreg := l
  start := (ranges l).elim (-1) fun r => r.start
  stop := (ranges l).elim (-1) fun r => r.stop
  regClass := (attrs l).1
  ctrl := (attrs l).2

/-- The builder as the allocator finds it; `attrs` is what lowering asks of the registers. -/
def lirRegs (p : LirProc) (ranges : LiveRanges) (attrs : XReg → RegClass × AllocCtrl) : LirRegs where
  ranges := (List.range p.lregAliases.length).map (regRange ranges attrs)
  aliases := p.lregAliases
  callSites := (callSites p).map fun site => (site.1 : Int)
  lregs := by simp [Function.comp_def, regRange]

/-- The location of a virtual register is a register. -/
def InReg (p : LirProc) (res : RegAllocResult) (l : XReg) (r : Reg) : Prop :=
  ∃ root, p.find l = some root ∧ res.loc root = some (.reg r)

/-- The interval starts before the instruction and ends after it. -/
def LiveAcross (ino : Int) (x : RegRange) : Prop := x.start < ino ∧ ino < x.stop

/-- The registers that address a small object as the result. -/
def copyLregs (c : Call) : List XReg :=
  if c.retType.isObjLike ∧ ¬ isObjRetargLarge c.retType.size then c.addrLregs else []

section

variable (p : LirProc) (b : LirRegs) (res : RegAllocResult) (site : Nat × Call)

/-- The register of the result of the call. -/
def ResultReg (r : Reg) : Prop := ∃ l ∈ site.2.resultLregs, InReg p res l r

/-- The mask is right, and what the call has to keep is kept. -/
structure SiteKeeps (mask : RegMask) : Prop where
  exact : ∀ r, mask.mem r = true ↔ ∃ x ∈ b.unhandled, LiveAcross site.1 x ∧
    res.loc x.lreg = some (.reg r) ∧ r.isCallerSaved = true
  /-- What is live across the call is there afterwards. -/
  kept : ∀ σ₀ σ₁ σ₂ σ₃, CallRun mask (ResultReg p res site) σ₀ σ₁ σ₂ σ₃ →
    ∀ x ∈ b.unhandled, LiveAcross site.1 x → (∀ l ∈ site.2.resultLregs, p.find l ≠ some x.lreg) →
      ∀ r, res.loc x.lreg = some (.reg r) → σ₃.reg r = σ₀.reg r
  /-- What addresses the object is there when the callee has returned. -/
  copied : ∀ σ₀ σ₁ σ₂ σ₃, CallRun mask (ResultReg p res site) σ₀ σ₁ σ₂ σ₃ →
    ∀ l ∈ copyLregs site.2, ∀ r, InReg p res l r → σ₁.reg r = σ₀.reg r
  /-- The result stays where it was moved to. -/
  result : ∀ σ₀ σ₁ σ₂ σ₃, CallRun mask (ResultReg p res site) σ₀ σ₁ σ₂ σ₃ →
    ∀ r, ResultReg p res site r → σ₃.reg r = σ₂.reg r

/-- The callee changes no register that the call needs. -/
structure SiteClear : Prop where
  result : ∀ l ∈ site.2.resultLregs, ∀ x ∈ b.unhandled, p.find l = some x.lreg →
    LiveAcross site.1 x → ∀ r, res.loc x.lreg = some (.reg r) → r.isCallerSaved = false
  copied : ∀ l ∈ copyLregs site.2, ∀ r, InReg p res l r → r.isCallerSaved = false

end

/-- Two lists that agree by `R` agree by `S` exactly if the elements of the first have `T`. -/
theorem forall₂_iff {α β : Type} {R S : α → β → Prop} {T : α → Prop} {l : List α} {m : List β}
    (h : List.Forall₂ R l m) (hiff : ∀ a ∈ l, ∀ b, R a b → (S a b ↔ T a)) :
    List.Forall₂ S l m ↔ ∀ a ∈ l, T a := by
  induction h with
  | nil => simp
  | @cons a b l m hab _ ih =>
    rw [List.forall₂_cons, List.forall_mem_cons, hiff a (List.mem_cons_self ..) b hab,
      ih fun a' ha' => hiff a' (List.mem_cons_of_mem _ ha')]

section

variable {p : LirProc} {ranges : LiveRanges} {attrs : XReg → RegClass × AllocCtrl}

theorem mem_unhandled_lirRegs {x : RegRange} :
    x ∈ (lirRegs p ranges attrs).unhandled ↔
      ∃ l, p.lregAliases[l]? = some l ∧ regRange ranges attrs l = x := by
  simp only [LirRegs.mem_unhandled, LirRegs.isRoot, decide_eq_true_eq, lirRegs, List.mem_map,
    List.mem_range]
  constructor
  · rintro ⟨⟨l, -, rfl⟩, hroot⟩
    exact ⟨l, hroot, rfl⟩
  · rintro ⟨l, hroot, rfl⟩
    exact ⟨⟨l, (List.getElem?_eq_some_iff.mp hroot).1, rfl⟩, hroot⟩

/-- The result of a call is written by it, so its interval contains the call. -/
theorem exists_result_range (attrs : XReg → RegClass × AllocCtrl)
    (hr : p.computeLiveIntervals = some ranges) {site : Nat × Call}
    (hsite : site ∈ callSites p) {l root : XReg} (hl : l ∈ site.2.resultLregs)
    (hroot : p.find l = some root) :
    ∃ x ∈ (lirRegs p ranges attrs).unhandled, x.lreg = root ∧ x.start ≤ site.1 ∧ site.1 ≤ x.stop := by
  obtain ⟨i, hi, hc⟩ := mem_callSites.mp hsite
  have hwrites : p.Writes root site.1 := by
    refine ⟨i, hi, l, ?_, hroot⟩
    cases i <;> cases hc <;> exact hl
  obtain ⟨r, hrange, hstart, hstop⟩ := LirProc.computeLiveIntervals_contains hr (.inr hwrites)
  refine ⟨_, mem_unhandled_lirRegs.mpr ⟨root, XIR.findAliasReg_root hroot, rfl⟩, rfl, ?_, ?_⟩
  · simp only [regRange, Option.mem_def.mp hrange, Option.elim_some]
    omega
  · simp only [regRange, Option.mem_def.mp hrange, Option.elim_some]
    omega

variable {scratch : ScratchRegs} {stackOffset : BitVec 32} {res : RegAllocResult}
  {site : Nat × Call} {mask : RegMask}

/-- An interval that is live across a call shares no register with the result. -/
theorem not_resultReg (hr : p.computeLiveIntervals = some ranges)
    (h : linearScanRegAlloc (lirRegs p ranges attrs) scratch stackOffset = some res)
    (hsite : site ∈ callSites p) {x : RegRange} (hx : x ∈ (lirRegs p ranges attrs).unhandled)
    (hlive : LiveAcross site.1 x) (hno : ∀ l ∈ site.2.resultLregs, p.find l ≠ some x.lreg)
    {r : Reg} (hloc : res.loc x.lreg = some (.reg r)) : ¬ ResultReg p res site r := by
  rintro ⟨l, hl, root, hroot, hloc'⟩
  obtain ⟨y, hy, rfl, hstart, hstop⟩ := exists_result_range attrs hr hsite hl hroot
  obtain ⟨s, I, hres, -, -⟩ := linearScanRegAlloc_inv h
  rw [hres] at hloc hloc'
  have hne : x.lreg ≠ y.lreg := fun he => hno l hl (he ▸ hroot)
  have hapart := I.apart x (I.mem_known_of_done hx) y (I.mem_known_of_done hy) r
    (AllocState.reg?_eq_some.mpr hloc) (AllocState.reg?_eq_some.mpr hloc') hne
  obtain ⟨hlt, hgt⟩ := hlive
  omega

/-- With the right mask, a call keeps what it has to exactly if the callee changes nothing that it
needs. -/
theorem siteKeeps_iff (hr : p.computeLiveIntervals = some ranges)
    (h : linearScanRegAlloc (lirRegs p ranges attrs) scratch stackOffset = some res)
    (hsite : site ∈ callSites p)
    (hexact : ∀ r, mask.mem r = true ↔ ∃ x ∈ (lirRegs p ranges attrs).unhandled,
      LiveAcross site.1 x ∧ res.loc x.lreg = some (.reg r) ∧ r.isCallerSaved = true) :
    SiteKeeps p (lirRegs p ranges attrs) res site mask ↔
      SiteClear p (lirRegs p ranges attrs) res site := by
  have hcallee : ∀ r : Reg, r.isCallerSaved = false → r.isCalleeSaved = true := fun r hr => by
    rw [Reg.isCallerSaved] at hr
    rw [Reg.isCalleeSaved, hr, Bool.not_false]
  constructor
  · intro hk
    obtain ⟨σ₀, σ₁, σ₂, σ₃, hrun, hclob⟩ := CallRun.exists_clobbered mask (ResultReg p res site)
    constructor
    · intro l hl x hx hroot hlive r hloc
      -- the pop brings back what the register held before the call
      by_contra hsaved
      rw [Bool.not_eq_false] at hsaved
      have hmem := (hk.exact r).mpr ⟨x, hx, hlive, hloc, hsaved⟩
      have hres := hk.result _ _ _ _ hrun r ⟨l, hl, x.lreg, hroot, hloc⟩
      rw [hrun.reg_restored, if_pos hmem] at hres
      obtain ⟨h₁, h₂⟩ := hclob r hsaved
      exact h₁ (h₂.symm.trans hres.symm)
    · intro l hl r hin
      by_contra hsaved
      rw [Bool.not_eq_false] at hsaved
      exact (hclob r hsaved).1 (hk.copied _ _ _ _ hrun l hl r hin)
  · intro hclear
    refine ⟨hexact, ?_, ?_, ?_⟩
    · intro σ₀ σ₁ σ₂ σ₃ hrun x hx hlive hno r hloc
      rw [hrun.reg_restored]
      cases hs : r.isCallerSaved with
      | true => rw [if_pos ((hexact r).mpr ⟨x, hx, hlive, hloc, hs⟩)]
      | false =>
        have hnot : mask.mem r ≠ true := fun hm => by
          obtain ⟨_, _, _, _, hs'⟩ := (hexact r).mp hm
          rw [hs] at hs'
          cases hs'
        rw [if_neg hnot, hrun.move.2 r (hcallee r hs) (not_resultReg hr h hsite hx hlive hno hloc),
          hrun.reg_callee (hcallee r hs)]
    · intro σ₀ σ₁ σ₂ σ₃ hrun l hl r hin
      exact hrun.reg_callee (hcallee r (hclear.copied l hl r hin))
    · rintro σ₀ σ₁ σ₂ σ₃ hrun r ⟨l, hl, root, hroot, hloc⟩
      have hnot : mask.mem r ≠ true := fun hm => by
        obtain ⟨x, hx, hlive, hloc', hs⟩ := (hexact r).mp hm
        by_cases hown : ∃ l ∈ site.2.resultLregs, p.find l = some x.lreg
        · obtain ⟨l', hl', hroot'⟩ := hown
          rw [hclear.result l' hl' x hx hroot' hlive r hloc'] at hs
          cases hs
        · refine not_resultReg hr h hsite hx hlive (fun l' hl' he => hown ⟨l', hl', he⟩) hloc' ?_
          exact ⟨l, hl, root, hroot, hloc⟩
      rw [hrun.reg_restored, if_neg hnot]

/-- **Registers across calls.** The masks that the allocator gives the call sites keep what they
have to exactly if at every site the interval of the result is not live across the call in a
caller-saved register, and no caller-saved register addresses a small object as the result. -/
theorem callSites_keep_iff (hr : p.computeLiveIntervals = some ranges)
    (h : linearScanRegAlloc (lirRegs p ranges attrs) scratch stackOffset = some res) :
    List.Forall₂ (SiteKeeps p (lirRegs p ranges attrs) res) (callSites p) res.saveRegMasks ↔
      ∀ site ∈ callSites p, SiteClear p (lirRegs p ranges attrs) res site := by
  have hmasks := linearScanRegAlloc_saveRegMasks (callSites_sorted p) h
  have hmasks : List.Forall₂ (fun (site : Nat × Call) (mask : RegMask) => ∀ r, mask.mem r = true ↔
      ∃ x ∈ (lirRegs p ranges attrs).unhandled, LiveAcross site.1 x ∧
        res.loc x.lreg = some (.reg r) ∧ r.isCallerSaved = true) (callSites p) res.saveRegMasks :=
    List.forall₂_map_left_iff.mp hmasks
  exact forall₂_iff hmasks fun site hsite mask hexact => siteKeeps_iff hr h hsite hexact

end

/-- `return c ? f() : g();`: the register of both results is the one of their merge. -/
def ternaryCalls : LirProc where
  bblocks := [[.cmpMI .b1 (.sibd ⟨some 0, none, -1, 0⟩) 0, .jmpcc .eq (some 2) 1],
    [.call 0 ⟨.integer .s32, .reg 1, [], 0, 0, rfl⟩, .jmp 3],
    [.call 1 ⟨.integer .s32, .reg 2, [], 0, 0, rfl⟩, .jmp 3],
    [.movRR .b4 4 3, .ret (some 4) none]]
  lregAliases := [0, 3, 3, 3, 4]
  lregRbp := 0

/-- The merged register is wanted in `rax`. -/
def ternaryAttrs : XReg → RegClass × AllocCtrl
  | 0 => (.int, .forceReg (.int .rbp))
  | 3 => (.int, .hintPhysReg (.int .rax))
  | 4 => (.int, .forceReg (.int .rax))
  | _ => (.int, .none)

/-- The second call, whose result is merged with that of the first. -/
def secondCall : Nat × Call := (4, ⟨.integer .s32, .reg 2, [], 0, 0, rfl⟩)

/-- The merged register sits in `rax` from the first call on. -/
theorem ternaryCalls_alloc :
    ∃ ranges, ternaryCalls.computeLiveIntervals = some ranges ∧ ranges 3 = some ⟨2, 6⟩ ∧
      ∃ res, linearScanRegAlloc (lirRegs ternaryCalls ranges ternaryAttrs) nonleafScratchRegs 24 =
        some res ∧ res.loc 3 = some (.reg (.int .rax)) := by
  have h : ∃ ranges, ternaryCalls.computeLiveIntervals = some ranges ∧ ranges 3 = some ⟨2, 6⟩ ∧
      (linearScanRegAlloc (lirRegs ternaryCalls ranges ternaryAttrs) nonleafScratchRegs 24).map
        (fun res => res.loc 3) = some (some (.reg (.int .rax))) := ⟨_, rfl, by decide, by decide⟩
  obtain ⟨ranges, hr, hrange, hloc⟩ := h
  exact ⟨ranges, hr, hrange, Option.map_eq_some_iff.mp hloc⟩

theorem callSites_keep_iff_ternaryCalls :
    ∃ ranges, ternaryCalls.computeLiveIntervals = some ranges ∧
      ∃ res, linearScanRegAlloc (lirRegs ternaryCalls ranges ternaryAttrs) nonleafScratchRegs 24 =
          some res ∧
        (List.Forall₂ (SiteKeeps ternaryCalls (lirRegs ternaryCalls ranges ternaryAttrs) res)
            (callSites ternaryCalls) res.saveRegMasks ↔
          ∀ site ∈ callSites ternaryCalls,
            SiteClear ternaryCalls (lirRegs ternaryCalls ranges ternaryAttrs) res site) := by
  obtain ⟨ranges, hr, -, res, hres, -⟩ := ternaryCalls_alloc
  exact ⟨ranges, hr, res, hres, callSites_keep_iff hr hres⟩

/-- The value of the first call is saved at the second, and popped over the result of the second. -/
theorem not_siteKeeps_ternaryCalls :
    ∃ ranges, ternaryCalls.computeLiveIntervals = some ranges ∧
      ∃ res, linearScanRegAlloc (lirRegs ternaryCalls ranges ternaryAttrs) nonleafScratchRegs 24 =
          some res ∧ secondCall ∈ callSites ternaryCalls ∧
        ∀ mask, ¬ SiteKeeps ternaryCalls (lirRegs ternaryCalls ranges ternaryAttrs) res secondCall
          mask := by
  obtain ⟨ranges, hr, hrange, res, hres, hloc⟩ := ternaryCalls_alloc
  have hsite : secondCall ∈ callSites ternaryCalls := by decide
  refine ⟨ranges, hr, res, hres, hsite, fun mask hk => ?_⟩
  have hclear := (siteKeeps_iff hr hres hsite hk.exact).mp hk
  have hlive : LiveAcross 4 (regRange ranges ternaryAttrs 3) := by
    simp only [LiveAcross, regRange, hrange, Option.elim_some]
    decide
  have hrax := hclear.result 2 (by decide) (regRange ranges ternaryAttrs 3)
    (mem_unhandled_lirRegs.mpr ⟨3, rfl, rfl⟩) (by decide : ternaryCalls.find 2 = some 3) hlive _ hloc
  cases hrax

end Nibble.X64
