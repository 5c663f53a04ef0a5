import Nibble.X64.RegAllocSound

/-!
# When the register allocator succeeds

For the intervals that lowering makes, the scan succeeds exactly if it never meets one of three
situations: a register that is forced while an interval sits in it that took it from a mask; a
mask without a free register; and a class with registers to spare by their number, none of which
the current interval may have. Intervals without a forced register are never in the way of a
forced one, since they keep off the registers that later intervals force.
-/

namespace Nibble.X64

open Nibble.Lib
open Nibble.XIR (XReg)

/-! ## What lowering promises -/

/-- The scratch registers have their class, and are not those of the frame. -/
def ScratchRegs.Ok (scratch : ScratchRegs) : Prop :=
  ∀ cls, ∀ r ∈ scratch cls, r.cls = cls ∧ r ≠ .int .rbp ∧ r ≠ .int .rsp

theorem leafScratchRegs_ok : leafScratchRegs.Ok := by
  intro cls
  cases cls <;> decide

theorem nonleafScratchRegs_ok : nonleafScratchRegs.Ok := by
  intro cls
  cases cls <;> decide

/-- An interval as `XIR_emit_instrs` makes it: `XIR_def_phys_reg` gives it the class of the
register it forces, `XIR_force_arg_reg` and `XIR_force_stack_arg_reg` a mask that is not empty,
and hints are between registers of one class. -/
def RegRange.Lowered (b : LirRegs) (x : RegRange) : Prop :=
  match x.ctrl with
  | .forceReg p | .hintPhysReg p => p.cls = x.regClass
  | .forceRegOrSpill mask => mask ≠ 0
  | .hintLirReg l => b.ranges[l]?.map RegRange.regClass = some x.regClass
  | _ => True

instance (b : LirRegs) (x : RegRange) : Decidable (x.Lowered b) := by
  unfold RegRange.Lowered
  split <;> infer_instance

def LirRegs.Lowered (b : LirRegs) : Prop := ∀ x ∈ b.ranges, x.Lowered b

def AllocCtrl.isForceReg : AllocCtrl → Bool
  | .forceReg _ => true
  | _ => false

/-- No interval is forced into a register while another one is live that is forced into it. -/
def LirRegs.ForcedApart (b : LirRegs) : Prop :=
  ∀ a ∈ b.unhandled, ∀ c ∈ b.unhandled, a.lreg ≠ c.lreg → a.ctrl.isForceReg = true →
    c.ctrl = a.ctrl → ¬ (a.start ≤ c.start ∧ c.start < a.stop)

theorem LirRegs.eq_of_lreg (b : LirRegs) {x y : RegRange} (hx : x ∈ b.ranges) (hy : y ∈ b.ranges)
    (h : x.lreg = y.lreg) : x = y :=
  List.inj_on_of_nodup_map (by rw [b.lregs]; exact List.nodup_range) hx hy h

/-- The control kinds that take a register from a mask. -/
def AllocCtrl.takesFromMask : AllocCtrl → Bool
  | .forceAnyReg _ | .forceRegOrSpill _ => true
  | _ => false

namespace AllocState

/-- The intervals that are still live when one starts. -/
def live (s : AllocState) (start : Int) : List RegRange := s.active.filter fun a => start < a.stop

/-- No live interval sits in the register. -/
def Vacant (s : AllocState) (start : Int) (r : Reg) : Prop := ∀ a ∈ s.live start, s.reg? a ≠ some r

/-- The state lets an interval in. -/
def Admits (b : LirRegs) (scratch : ScratchRegs) (s : AllocState) (x : RegRange)
    (rest : List RegRange) : Prop :=
  match x.ctrl with
  | .forceReg p => ∀ a ∈ s.live x.start, a.ctrl.takesFromMask = true → s.reg? a ≠ some p
  | .forceAnyReg mask => ∃ r ∈ scratch x.regClass, mask.mem r = true ∧ s.Vacant x.start r
  | .forceRegOrSpill _ => True
  | ctrl =>
    let used := (s.live x.start).countP fun a => a.regClass = x.regClass
    let total := (scratch x.regClass).length
    used = total ∨ used < total ∧
      ∃ r, (r ∈ scratch x.regClass ∨ s.pregHint b ctrl = some (some r)) ∧
        s.Vacant x.start r ∧ (bannedRegs x.stop rest 0).mem r = false

/-- What the scan keeps besides `Inv`: registers have the class of their intervals, and no
interval without a forced register is in one that an interval to come forces. -/
structure Clear (s : AllocState) (todo : List RegRange) : Prop where
  cls : ∀ a ∈ s.known, ∀ r, s.reg? a = some r → r.cls = a.regClass
  ahead : ∀ a ∈ s.active, a.ctrl.isUnforced = true → ∀ j ∈ todo, ∀ p, j.ctrl = .forceReg p →
    j.start < a.stop → s.reg? a ≠ some p

theorem reg?_congr {s t : AllocState} (h : t.loc = s.loc) (a : RegRange) : t.reg? a = s.reg? a := by
  unfold reg?
  rw [h]

namespace Clear

variable {base : Nat} {all : List RegRange} {s : AllocState} {x : RegRange} {rest : List RegRange}

theorem evict {todo : List RegRange} (C : s.Clear todo) (I : s.Inv base all todo) {e : RegRange}
    {r : Reg} (he : e ∈ s.active) : (s.evict e r).Clear todo := by
  have hreg : ∀ a q, (s.evict e r).reg? a = some q → s.reg? a = some q := by
    intro a q h
    rw [reg?_evict] at h
    split at h
    · cases h
    · exact h
  constructor
  · intro a ha q hq
    exact C.cls a ((I.mem_known_evict he).mp ha) q (hreg a q hq)
  · intro a ha hu j hj p hp hlt h
    exact C.ahead a (List.mem_of_mem_erase ha) hu j hj p hp hlt (hreg a p h)

theorem spill (C : s.Clear (x :: rest)) (I : s.Inv base all (x :: rest)) :
    (s.spillRegLoc x).Clear rest := by
  have hreg : ∀ a q, (s.spillRegLoc x).reg? a = some q → a.lreg ≠ x.lreg ∧ s.reg? a = some q := by
    intro a q h
    rw [reg?_spillRegLoc] at h
    split at h
    · cases h
    next hne => exact ⟨hne, h⟩
  constructor
  · intro a ha q hq
    obtain ⟨hne, hq⟩ := hreg a q hq
    rcases mem_known_spillRegLoc.mp ha with rfl | ha
    · exact absurd rfl hne
    · exact C.cls a ha q hq
  · intro a ha hu j hj p hp hlt h
    exact C.ahead a ha hu j (List.mem_cons_of_mem _ hj) p hp hlt (hreg a p h).2

theorem assign (C : s.Clear (x :: rest)) (I : s.Inv base all (x :: rest)) {r : Reg}
    (hcls : r.cls = x.regClass)
    (hban : x.ctrl.isUnforced = true → (bannedRegs x.stop rest 0).mem r = false) :
    (s.assign x r).Clear rest := by
  have hself : (s.assign x r).reg? x = some r := by rw [reg?_assign, if_pos rfl]
  have hkeep : ∀ a ∈ s.known, (s.assign x r).reg? a = s.reg? a := by
    intro a ha
    rw [reg?_assign, if_neg (I.lreg_ne_head ha)]
  constructor
  · intro a ha q hq
    rcases mem_known_assign.mp ha with rfl | ha
    · rw [hself] at hq
      cases hq
      exact hcls
    · exact C.cls a ha q ((hkeep a ha).symm.trans hq)
  · intro a ha hu j hj p hp hlt h
    rcases mem_addBy.mp ha with rfl | ha
    · rw [hself] at h
      cases h
      have hmem : (bannedRegs a.stop rest 0).mem r = true :=
        (mem_bannedRegs (List.pairwise_cons.mp I.sorted).2).mpr (.inr ⟨j, hj, hlt, hp⟩)
      rw [hban hu] at hmem
      cases hmem
    · rw [hkeep a (mem_known.mpr (.inl ha))] at h
      exact C.ahead a ha hu j (List.mem_cons_of_mem _ hj) p hp hlt h

end Clear

section Step

variable {b : LirRegs} {scratch : ScratchRegs} {base : Nat} {s t : AllocState} {x : RegRange}
  {rest : List RegRange}

theorem Inv.mem_ranges (I : s.Inv base b.unhandled (x :: rest)) : x ∈ b.ranges :=
  (b.mem_unhandled.mp (I.perm.mem_iff.mp
    (List.mem_append_right _ (List.mem_cons_self ..)))).1

/-- Old intervals expire, and what they leave is in order. -/
theorem exists_expired (I : s.Inv base b.unhandled (x :: rest)) (C : s.Clear (x :: rest)) :
    ∃ u, expire x.start s.active s = some u ∧ u.Inv base b.unhandled (x :: rest) ∧
      u.Clear (x :: rest) ∧ u.active = s.live x.start ∧ u.loc = s.loc := by
  obtain ⟨u, hu, Iu, hact, hloc, hmem⟩ := I.exists_expire rfl I.start_le
  refine ⟨u, hu, Iu, ⟨fun a ha r hr => ?_, fun a ha hun j hj p hp hlt hr => ?_⟩, hact, hloc⟩
  · exact C.cls a ((hmem a).mp ha) r ((reg?_congr hloc a).symm.trans hr)
  · rw [hact] at ha
    exact C.ahead a (List.mem_filter.mp ha).1 hun j hj p hp hlt ((reg?_congr hloc a).symm.trans hr)

theorem Clear.handle (hb : b.Lowered) (I : s.Inv base b.unhandled (x :: rest))
    (C : s.Clear (x :: rest)) (h : s.handle b scratch x rest = some t) : t.Clear rest := by
  obtain ⟨u, hu, Iu, Cu, -, -⟩ := exists_expired I C
  obtain ⟨u', hu', ht⟩ := Option.bind_eq_some_iff.mp h
  rw [hu] at hu'
  cases hu'
  cases allocInterval_placed ht with
  | assign r hfree hadm hcls hban =>
    refine Cu.assign Iu ?_ hban
    by_cases hf : ∃ p, x.ctrl = .forceReg p
    · obtain ⟨p, hp⟩ := hf
      rw [hp, AllocCtrl.admits, decide_eq_true_eq] at hadm
      have hlow := hb x I.mem_ranges
      rw [RegRange.Lowered, hp] at hlow
      exact hadm ▸ hlow
    · exact hcls fun p hp => hf ⟨p, hp⟩
  | spill hf => exact Cu.spill Iu
  | steal donor _ hmem hunforced hspills hdonor hban hsteal =>
    have hknown : donor ∈ u.known := mem_known.mpr (.inl hmem)
    have hne : x.lreg ≠ donor.lreg := (Iu.lreg_ne_head hknown).symm
    obtain ⟨r, hr, rfl⟩ := stealReg_eq hne (Iu.callee donor hknown) hsteal
    exact (Cu.evict Iu hmem).assign (Iu.evict hmem hr hspills)
      ((Cu.cls donor hknown r hr).trans hdonor) fun _ => hban r hr

/-! ## When a step succeeds -/

/-- Without a hint, `X64_next_reg` is the first free scratch register. -/
theorem nextReg_none (hs : scratch.Ok) (banned : RegMask) :
    s.nextReg scratch x banned none = some ((scratch x.regClass).find? (s.isFree banned)) := by
  unfold nextReg
  simp only [Option.filter_none]
  split
  next r hr =>
    rw [if_pos (hs _ r (List.mem_of_find?_eq_some hr)), hr]
  next hr => rw [hr]

/-- With a hint of the right class, there is a register if the hint or a scratch register is
free. -/
theorem exists_nextReg_iff (hs : scratch.Ok) (banned : RegMask) {hint : Option Reg}
    (hhint : ∀ r, hint = some r → r.cls = x.regClass) :
    (∃ r, s.nextReg scratch x banned hint = some (some r)) ↔
      ∃ r, (r ∈ scratch x.regClass ∨ hint = some r) ∧ s.isFree banned r = true := by
  cases hf : hint.filter (s.isFree banned) with
  | some r =>
    obtain ⟨hr, hfree⟩ := Option.filter_eq_some_iff.mp hf
    refine iff_of_true ⟨r, ?_⟩ ⟨r, .inr hr, hfree⟩
    simp only [nextReg, hf, hhint r hr, if_true]
  | none =>
    have hno : ∀ r, hint = some r → ¬ s.isFree banned r = true := by
      rintro r rfl h
      simp [Option.filter_some, h] at hf
    have heq : s.nextReg scratch x banned hint = s.nextReg scratch x banned none := by
      simp only [nextReg, hf, Option.filter_none]
    rw [heq, nextReg_none hs]
    simp only [Option.some.injEq, ← Option.isSome_iff_exists, List.find?_isSome]
    constructor
    · rintro ⟨r, hr, hfree⟩
      exact ⟨r, .inl hr, hfree⟩
    · rintro ⟨r, hr | hr, hfree⟩
      · exact ⟨r, hr, hfree⟩
      · exact absurd hfree (hno r hr)

/-- A register is vacant for an interval if it is free once the old ones have expired. -/
theorem vacant_iff {u : AllocState} (Iu : u.Inv base b.unhandled (x :: rest))
    (hact : u.active = s.live x.start) (hloc : u.loc = s.loc) {r : Reg} :
    s.Vacant x.start r ↔ u.rmap r = none := by
  rw [Iu.free_iff, hact, Vacant]
  simp only [reg?_congr hloc]

/-- A forced register is free unless an interval sits in it that took it from a mask. -/
theorem forced_free_iff {u : AllocState} (hf : b.ForcedApart)
    (Iu : u.Inv base b.unhandled (x :: rest)) (Cu : u.Clear (x :: rest))
    (hact : u.active = s.live x.start) {p : Reg} (hx : x.ctrl = .forceReg p) :
    u.rmap p = none ↔ ∀ a ∈ u.active, a.ctrl.takesFromMask = true → u.reg? a ≠ some p := by
  rw [Iu.free_iff]
  refine ⟨fun h a ha _ => h a ha, fun h a ha hr => ?_⟩
  have hknown : a ∈ u.known := mem_known.mpr (.inl ha)
  have hmem : a ∈ b.unhandled := Iu.perm.mem_iff.mp (List.mem_append_left _ hknown)
  have hxmem : x ∈ b.unhandled :=
    Iu.perm.mem_iff.mp (List.mem_append_right _ (List.mem_cons_self ..))
  have hlive : x.start < a.stop := by
    rw [hact] at ha
    simpa using (List.mem_filter.mp ha).2
  have hstart : a.start ≤ x.start := Iu.started a ha x (List.mem_cons_self ..)
  by_cases hmask : a.ctrl.takesFromMask = true
  · exact h a ha hmask hr
  by_cases hforce : ∃ q, a.ctrl = .forceReg q
  · obtain ⟨q, hq⟩ := hforce
    have hadm := Iu.admits a hknown p hr (by rw [hq]; rfl)
    rw [hq, AllocCtrl.admits, decide_eq_true_eq] at hadm
    exact hf a hmem x hxmem (Iu.lreg_ne_head hknown) (by rw [hq]; rfl) (by rw [hx, hq, hadm])
      ⟨hstart, hlive⟩
  · have hun : a.ctrl.isUnforced = true := by
      cases hc : a.ctrl with
      | forceReg q => exact absurd ⟨q, hc⟩ hforce
      | forceAnyReg m => rw [hc] at hmask; exact absurd rfl hmask
      | forceRegOrSpill m => rw [hc] at hmask; exact absurd rfl hmask
      | _ => rfl
    exact Cu.ahead a ha hun x (List.mem_cons_self ..) p hx hlive hr

/-- A hint names a register of the class of the interval. -/
theorem exists_pregHint {u : AllocState} (hb : b.Lowered)
    (Iu : u.Inv base b.unhandled (x :: rest)) (Cu : u.Clear (x :: rest)) :
    ∃ hint, u.pregHint b x.ctrl = some hint ∧ ∀ r, hint = some r → r.cls = x.regClass := by
  have hx := hb x Iu.mem_ranges
  unfold RegRange.Lowered at hx
  cases hc : x.ctrl with
  | hintPhysReg p =>
    rw [hc] at hx
    refine ⟨some p, rfl, fun r hr => ?_⟩
    cases hr
    exact hx
  | hintLirReg l =>
    rw [hc] at hx
    obtain ⟨y, hy, hcls⟩ := Option.map_eq_some_iff.mp hx
    refine ⟨u.reg? y, by rw [pregHint, hy]; rfl, fun r hr => ?_⟩
    have hloc : u.loc y.lreg ≠ none := by rw [reg?_eq_some.mp hr]; simp
    obtain ⟨a, ha, hl⟩ := (Iu.located y.lreg).mp hloc
    have hmem : a ∈ b.ranges :=
      (b.mem_unhandled.mp (Iu.perm.mem_iff.mp (List.mem_append_left _ ha))).1
    have he : a = y := b.eq_of_lreg hmem (List.mem_of_getElem? hy) hl
    exact (Cu.cls y (he ▸ ha) r hr).trans hcls
  | _ => exact ⟨none, rfl, fun r hr => by cases hr⟩

/-- Out of registers, an interval without a forced register is spilled or steals one. -/
theorem exists_allocUnforced_full {u : AllocState} (hu : x.ctrl.isUnforced = true)
    (Iu : u.Inv base b.unhandled (x :: rest))
    (hfull : u.classCount x.regClass = (scratch x.regClass).length) :
    ∃ t, u.allocUnforced b scratch x rest = some t := by
  have hf := AllocCtrl.forcesReg_of_isUnforced hu
  unfold allocUnforced
  simp only [hfull, Nat.lt_irrefl, if_false, if_true, hf, Bool.false_eq_true, Bool.false_or,
    decide_eq_true_eq]
  split
  · exact ⟨_, rfl⟩
  next last hlast =>
    split
    · obtain ⟨r, hr, -⟩ := Iu.held last (lastActive_eq_some hlast).1
      exact ⟨_, by rw [stealReg, hr]; rfl⟩
    · exact ⟨_, rfl⟩

theorem exists_allocUnforced_iff {u : AllocState} (hs : scratch.Ok) (hb : b.Lowered)
    (hu : x.ctrl.isUnforced = true) (Iu : u.Inv base b.unhandled (x :: rest))
    (Cu : u.Clear (x :: rest)) :
    (∃ t, u.allocUnforced b scratch x rest = some t) ↔
      u.classCount x.regClass = (scratch x.regClass).length ∨
        u.classCount x.regClass < (scratch x.regClass).length ∧
          ∃ r, (r ∈ scratch x.regClass ∨ u.pregHint b x.ctrl = some (some r)) ∧
            u.isFree (bannedRegs x.stop rest 0) r = true := by
  rcases Nat.lt_trichotomy (u.classCount x.regClass) (scratch x.regClass).length with h | h | h
  · obtain ⟨hint, hhint, hcls⟩ := exists_pregHint hb Iu Cu
    have hiff := exists_nextReg_iff (s := u) hs (bannedRegs x.stop rest 0) hcls
    simp only [h, Nat.ne_of_lt h, false_or, true_and, hhint, Option.some.injEq, ← hiff]
    unfold allocUnforced
    simp only [Nat.lt_asymm h, if_false, Nat.ne_of_lt h, hhint, Option.bind_eq_bind,
      Option.bind_some, Option.pure_def]
    constructor
    · rintro ⟨t, ht⟩
      obtain ⟨reg, hreg, r, rfl, -⟩ := by
        simpa only [Option.bind_eq_some_iff] using ht
      exact ⟨r, hreg⟩
    · rintro ⟨r, hr⟩
      exact ⟨_, by rw [hr]; rfl⟩
  · exact iff_of_true (exists_allocUnforced_full hu Iu h) (.inl h)
  · refine iff_of_false ?_ (by omega)
    rintro ⟨t, ht⟩
    unfold allocUnforced at ht
    rw [if_pos h] at ht
    cases ht

/-- **The step.** A step of the scan succeeds exactly if its state lets the interval in. -/
theorem exists_handle_iff (hs : scratch.Ok) (hb : b.Lowered) (hf : b.ForcedApart)
    (I : s.Inv base b.unhandled (x :: rest)) (C : s.Clear (x :: rest)) :
    (∃ t, s.handle b scratch x rest = some t) ↔ s.Admits b scratch x rest := by
  obtain ⟨u, hu, Iu, Cu, hact, hloc⟩ := exists_expired I C
  have hvac : ∀ r, s.Vacant x.start r ↔ u.rmap r = none := fun r => vacant_iff Iu hact hloc
  have hreg : ∀ a, u.reg? a = s.reg? a := reg?_congr hloc
  simp only [AllocState.handle, hu, Option.bind_some]
  cases hc : x.ctrl with
  | forceReg p =>
    simp only [allocInterval, Admits, hc, ← hact, ← hreg]
    rw [← forced_free_iff hf Iu Cu hact hc]
    split
    next h => exact iff_of_true ⟨_, rfl⟩ h
    next h => exact iff_of_false (fun ⟨_, ht⟩ => by cases ht) h
  | forceAnyReg mask =>
    simp only [allocInterval, Admits, hc, hvac, nextReg_none hs]
    have hiff : (∃ r ∈ scratch x.regClass, mask.mem r = true ∧ u.rmap r = none) ↔
        ((scratch x.regClass).find? (u.isFree (~~~mask))).isSome = true := by
      simp only [List.find?_isSome, isFree_iff, RegMask.mem_not, Bool.not_eq_false']
      exact exists_congr fun r => and_congr_right fun _ => and_comm
    rw [hiff]
    split
    next h0 =>
      -- An empty mask fails the assertion, and allows no register.
      refine iff_of_false (fun ⟨_, ht⟩ => by cases ht) fun h => ?_
      obtain ⟨r, -, hr, -⟩ := hiff.mpr h
      rw [h0, RegMask.mem_zero] at hr
      cases hr
    next =>
      cases hfind : (scratch x.regClass).find? (u.isFree (~~~mask)) with
      | none => exact iff_of_false (fun ⟨_, ht⟩ => by cases ht) (by simp)
      | some r => exact iff_of_true ⟨_, rfl⟩ rfl
  | forceRegOrSpill mask =>
    have hmask := hb x Iu.mem_ranges
    rw [RegRange.Lowered, hc] at hmask
    simp only [allocInterval, Admits, hc, nextReg_none hs, iff_true, if_neg hmask]
    cases (scratch x.regClass).find? (u.isFree (~~~mask)) with
    | none => exact ⟨_, rfl⟩
    | some r => exact ⟨_, rfl⟩
  | _ =>
    have hun : x.ctrl.isUnforced = true := by rw [hc]; rfl
    have h := exists_allocUnforced_iff hs hb hun Iu Cu
    have hhint : u.pregHint b x.ctrl = s.pregHint b x.ctrl := by
      rw [hc]
      simp only [pregHint, funext hreg]
    simp only [allocInterval, Admits, hc, ← hact, hvac] at h ⊢
    rw [hc] at hhint
    simp only [h, hhint, isFree_iff, classCount]

/-- Along a scan the invariants hold. -/
theorem scans_inv (hb : b.Lowered) {stackOffset : BitVec 32} {todo : List RegRange}
    (h : Scans (AllocState.handle b scratch) (init stackOffset) b.unhandled t todo) :
    t.Inv stackOffset.toNat b.unhandled todo ∧ t.Clear todo := by
  have hstep : ∀ (s : AllocState) x rest t,
      s.Inv stackOffset.toNat b.unhandled (x :: rest) ∧ s.Clear (x :: rest) →
      s.handle b scratch x rest = some t →
        t.Inv stackOffset.toNat b.unhandled rest ∧ t.Clear rest :=
    fun _ _ _ _ ⟨I, C⟩ h => ⟨I.handle h, C.handle hb I h⟩
  have hinit : (init stackOffset).Clear b.unhandled := ⟨by simp [init, known], by simp [init]⟩
  exact @Scans.keeps _ _ _ (fun s todo => s.Inv stackOffset.toNat b.unhandled todo ∧ s.Clear todo)
    hstep _ _ _ _ h ⟨init_inv b stackOffset, hinit⟩

/-- At the end of the scan every interval has been handled. -/
theorem Inv.length_finish (I : s.Inv base b.unhandled []) : b.unhandled.length = s.finish.length := by
  have h₁ := I.perm.length_eq
  have h₂ := (@foldl_addBy_perm _ RegRange.start s.active s.handled).length_eq
  rw [List.append_nil, known] at h₁
  exact h₁.symm.trans h₂.symm

end Step

end AllocState

open AllocState

/-- The intervals of `*p = *q / *r` in a leaf procedure: the frame pointer, the three pointers, the
registers of the division and its quotient. -/
def threeDerefs : LirRegs where
  ranges := [⟨0, 0, 8, .int, .forceReg (.int .rbp)⟩, ⟨1, 0, 7, .int, .forceAnyReg 0xFFCF⟩,
    ⟨2, 1, 3, .int, .forceAnyReg 0xFFCF⟩, ⟨3, 2, 5, .int, .forceAnyReg 0xFFCF⟩,
    ⟨4, 3, 6, .int, .forceReg (.int .rax)⟩, ⟨5, 4, 5, .int, .forceReg (.int .rdx)⟩,
    ⟨6, 6, 7, .int, .hintLirReg 4⟩]
  aliases := [0, 1, 2, 3, 4, 5, 6]
  callSites := []
  lregs := rfl

end Nibble.X64
