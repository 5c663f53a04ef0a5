import Mathlib.Logic.Function.Basic
import Nibble.X64.RegAlloc

/-!
# The moves of the register allocator

What one interval can do to the state of the allocation, as four moves: an active interval
retires, an active interval is evicted to the stack, the current interval is given a free
register, or it is spilled. `Placed` says which of them a step of the scan makes.
-/

namespace Nibble.X64

open Nibble.Lib
open Nibble.XIR (XReg)

theorem RegMask.mem_not (m : RegMask) (r : Reg) : RegMask.mem (~~~m) r = !m.mem r := by
  have hr := r.num_lt
  simp only [regCount] at hr
  simp [mem, hr]

theorem RegMask.set_of_mem {m : RegMask} {r : Reg} (h : m.mem r = true) : m.set r = m := by
  apply BitVec.eq_of_getLsbD_eq
  intro i hi
  simp only [set, BitVec.getLsbD_or, BitVec.getLsbD_shiftLeft, BitVec.getLsbD_one]
  by_cases he : i = r.num
  · subst he
    simp only [mem] at h
    simp [h]
  · have : ¬ (i - r.num = 0 ∧ r.num ≤ i) := by omega
    by_cases hle : r.num ≤ i
    · simp [show i - r.num ≠ 0 by omega]
    · simp [show i < r.num by omega]

/-- The registers a control kind allows. -/
def AllocCtrl.admits : AllocCtrl → Reg → Bool
  | .forceReg p, r => r = p
  | .forceAnyReg mask, r => mask.mem r
  | .forceRegOrSpill mask, r => mask.mem r
  | _, _ => true

/-- The control kinds of the last branch of the loop. -/
def AllocCtrl.isUnforced : AllocCtrl → Bool
  | .none | .hintLirReg _ | .hintPhysReg _ => true
  | _ => false

theorem AllocCtrl.forcesReg_of_isUnforced {c : AllocCtrl} (h : c.isUnforced = true) :
    c.forcesReg = false := by
  cases c <;> first | rfl | cases h

/-- Only registers that a later interval forces are banned. -/
theorem mem_bannedRegs {stop : Int} {rest : List RegRange} (hs : SortedBy RegRange.start rest)
    {m : RegMask} {r : Reg} :
    (bannedRegs stop rest m).mem r = true ↔
      m.mem r = true ∨ ∃ j ∈ rest, j.start < stop ∧ j.ctrl = .forceReg r := by
  induction rest generalizing m with
  | nil => simp [bannedRegs]
  | cons j rest ih =>
    obtain ⟨hj, hs⟩ := List.pairwise_cons.mp hs
    unfold bannedRegs
    split
    next hle =>
      refine ⟨Or.inl, fun h => h.resolve_right ?_⟩
      rintro ⟨k, hk, hlt, -⟩
      rcases List.mem_cons.mp hk with rfl | hk
      · omega
      · have := hj k hk
        omega
    next hlt =>
      rw [ih hs]
      simp only [List.mem_cons, exists_eq_or_imp, show j.start < stop by omega, true_and]
      cases hc : j.ctrl with
      | forceReg p =>
        simp only [RegMask.mem_set, Bool.or_eq_true, decide_eq_true_eq, AllocCtrl.forceReg.injEq]
        rw [or_assoc]
      | _ => simp only [reduceCtorEq, false_or]

namespace AllocState

@[simp] theorem allocReg_active (s : AllocState) (r : Reg) (l : XReg) :
    (s.allocReg r l).active = s.active := rfl

@[simp] theorem allocReg_handled (s : AllocState) (r : Reg) (l : XReg) :
    (s.allocReg r l).handled = s.handled := rfl

theorem reg?_eq_some {s : AllocState} {x : RegRange} {r : Reg} :
    s.reg? x = some r ↔ s.loc x.lreg = some (.reg r) := by
  unfold reg?
  split <;> simp_all

/-! ## Moves -/

/-- An active interval has ended. -/
def retire (s : AllocState) (e : RegRange) (r : Reg) : AllocState :=
  { s with
    active := s.active.erase e
    rmap := Function.update s.rmap r none
    handled := addBy RegRange.start e s.handled }

/-- An active interval loses its register and goes to the stack. -/
def evict (s : AllocState) (donor : RegRange) (r : Reg) : AllocState :=
  { s with
    active := s.active.erase donor
    rmap := Function.update s.rmap r none : AllocState }.spillRegLoc donor

/-- The current interval is given a register. -/
def assign (s : AllocState) (x : RegRange) (r : Reg) : AllocState := (s.allocReg r x.lreg).place x r

theorem reg?_assign (s : AllocState) (x y : RegRange) (r : Reg) :
    (s.assign x r).reg? y = if y.lreg = x.lreg then some r else s.reg? y := by
  by_cases h : y.lreg = x.lreg <;>
    simp only [assign, place, reg?, Function.update_apply, allocReg, h, if_true, if_false]

theorem reg?_spillRegLoc (s : AllocState) (x y : RegRange) :
    (s.spillRegLoc x).reg? y = if y.lreg = x.lreg then none else s.reg? y := by
  by_cases h : y.lreg = x.lreg <;>
    simp only [spillRegLoc, reg?, Function.update_apply, h, if_true, if_false]

theorem reg?_evict (s : AllocState) (x y : RegRange) (r : Reg) :
    (s.evict x r).reg? y = if y.lreg = x.lreg then none else s.reg? y := by
  simp only [evict, reg?_spillRegLoc]
  rfl

@[simp] theorem reg?_retire (s : AllocState) (e y : RegRange) (r : Reg) :
    (s.retire e r).reg? y = s.reg? y := rfl

/-- A stolen register is one whose owner was evicted. -/
theorem stealReg_eq {s t : AllocState} {donor x : RegRange} (hne : x.lreg ≠ donor.lreg)
    (hc : ∀ r, s.reg? donor = some r → r.isCalleeSaved = true → s.usedCalleeRegs.mem r = true)
    (h : s.stealReg donor x = some t) :
    ∃ r, s.reg? donor = some r ∧ t = (s.evict donor r).assign x r := by
  obtain ⟨r, hr, rfl⟩ := Option.map_eq_some_iff.mp h
  refine ⟨r, hr, ?_⟩
  have hmask : (if r.isCalleeSaved = true then s.usedCalleeRegs.set r else s.usedCalleeRegs) =
      s.usedCalleeRegs := by
    split
    next hs => exact RegMask.set_of_mem (hc r hr hs)
    next => rfl
  simp only [assign, place, allocReg, evict, spillRegLoc, Function.update_idem, hmask,
    Function.update_comm hne]

/-! ## What a step does -/

/-- A register that `X64_next_reg` returns is free, allowed and of the class of the interval. -/
theorem nextReg_eq_some {s : AllocState} {scratch : ScratchRegs} {x : RegRange} {banned : RegMask}
    {hint : Option Reg} {r : Reg} (h : s.nextReg scratch x banned hint = some (some r)) :
    s.isFree banned r = true ∧ r.cls = x.regClass := by
  unfold nextReg at h
  split at h
  next q hq =>
    split at h
    next hcls =>
      cases h
      exact ⟨(Option.filter_eq_some_iff.mp hq).2, hcls⟩
    next => cases h
  next =>
    split at h
    next q hq =>
      split at h
      next hcls =>
        cases h
        exact ⟨List.find?_some hq, hcls.1⟩
      next => cases h
    next => cases h

theorem isFree_iff {s : AllocState} {banned : RegMask} {r : Reg} :
    s.isFree banned r = true ↔ s.rmap r = none ∧ banned.mem r = false := by
  simp [isFree]

/-- One interval is given a free register, is spilled, or takes the register of another one. -/
inductive Placed (s : AllocState) (x : RegRange) (rest : List RegRange) : AllocState → Prop where
  | assign (r : Reg) (free : s.rmap r = none) (admits : x.ctrl.admits r = true)
    (cls : (∀ p, x.ctrl ≠ .forceReg p) → r.cls = x.regClass)
    (banned : x.ctrl.isUnforced = true → (bannedRegs x.stop rest 0).mem r = false) :
    Placed s x rest (s.assign x r)
  | spill (h : x.ctrl.forcesReg = false) : Placed s x rest (s.spillRegLoc x)
  | steal (donor : RegRange) (t : AllocState) (mem : donor ∈ s.active)
    (unforced : x.ctrl.isUnforced = true) (donor_spills : donor.ctrl.forcesReg = false)
    (cls : donor.regClass = x.regClass)
    (banned : ∀ r, s.reg? donor = some r → (bannedRegs x.stop rest 0).mem r = false)
    (h : s.stealReg donor x = some t) : Placed s x rest t

theorem lastActive_eq_some {s : AllocState} {cls : RegClass} {banned : RegMask} {e : RegRange}
    (h : s.lastActive cls banned = some e) :
    e ∈ s.active ∧ e.ctrl.forcesReg = false ∧ e.regClass = cls ∧
      ∀ r, s.reg? e = some r → banned.mem r = false := by
  have hp := List.find?_some h
  simp only [Bool.and_eq_true, Bool.not_eq_true', decide_eq_true_eq] at hp
  obtain ⟨⟨hf, hcls⟩, hb⟩ := hp
  refine ⟨List.mem_reverse.mp (List.mem_of_find?_eq_some h), hf, hcls, fun r hr => ?_⟩
  rw [hr] at hb
  exact hb

theorem allocUnforced_placed {b : LirRegs} {scratch : ScratchRegs} {s t : AllocState}
    {x : RegRange} {rest : List RegRange} (hx : x.ctrl.isUnforced = true)
    (hadm : ∀ r, x.ctrl.admits r = true) (h : s.allocUnforced b scratch x rest = some t) :
    Placed s x rest t := by
  have hf := AllocCtrl.forcesReg_of_isUnforced hx
  unfold allocUnforced at h
  simp only [hf, Bool.false_eq_true, if_false, Bool.false_or, decide_eq_true_eq] at h
  split at h
  · cases h
  split at h
  · split at h
    · cases h
      exact .spill hf
    next last hlast =>
      obtain ⟨hmem, hspills, hcls, hban⟩ := lastActive_eq_some hlast
      split at h
      · exact .steal last t hmem hx hspills hcls hban h
      · cases h
        exact .spill hf
  · simp only [Option.bind_eq_bind, Option.bind_eq_some_iff, Option.pure_def] at h
    obtain ⟨hint, -, reg, hreg, r, rfl, h⟩ := h
    cases h
    obtain ⟨hfree, hcls⟩ := nextReg_eq_some hreg
    obtain ⟨hfree, hban⟩ := isFree_iff.mp hfree
    exact .assign r hfree (hadm r) (fun _ => hcls) fun _ => hban

theorem allocInterval_placed {b : LirRegs} {scratch : ScratchRegs} {s t : AllocState}
    {x : RegRange} {rest : List RegRange} (h : s.allocInterval b scratch x rest = some t) :
    Placed s x rest t := by
  unfold allocInterval at h
  split at h
  next p hctrl =>
    split at h
    next hfree =>
      cases h
      exact .assign p hfree (by simp [hctrl, AllocCtrl.admits])
        (fun h => absurd hctrl (h p)) (by simp [hctrl, AllocCtrl.isUnforced])
    next => cases h
  next mask hctrl =>
    split at h
    · cases h
    simp only [Option.bind_eq_bind, Option.bind_eq_some_iff, Option.pure_def] at h
    obtain ⟨reg, hreg, r, rfl, h⟩ := h
    cases h
    obtain ⟨hfree, hcls⟩ := nextReg_eq_some hreg
    obtain ⟨hfree, hmem⟩ := isFree_iff.mp hfree
    rw [RegMask.mem_not, Bool.not_eq_false'] at hmem
    exact .assign r hfree (by simpa only [hctrl, AllocCtrl.admits] using hmem) (fun _ => hcls)
      (by simp [hctrl, AllocCtrl.isUnforced])
  next mask hctrl =>
    split at h
    · cases h
    simp only [Option.bind_eq_bind, Option.bind_eq_some_iff, Option.pure_def] at h
    obtain ⟨reg, hreg, h⟩ := h
    split at h
    next r =>
      cases h
      obtain ⟨hfree, hcls⟩ := nextReg_eq_some hreg
      obtain ⟨hfree, hmem⟩ := isFree_iff.mp hfree
      rw [RegMask.mem_not, Bool.not_eq_false'] at hmem
      exact .assign r hfree (by simpa only [hctrl, AllocCtrl.admits] using hmem) (fun _ => hcls)
        (by simp [hctrl, AllocCtrl.isUnforced])
    next =>
      cases h
      exact .spill (by simp [hctrl, AllocCtrl.forcesReg])
  next h₁ h₂ h₃ =>
    refine allocUnforced_placed ?_ ?_ h <;> cases hc : x.ctrl <;>
      simp_all [AllocCtrl.isUnforced, AllocCtrl.admits]

end AllocState

end Nibble.X64
