import Nibble.X64.RegAllocStep

/-!
# Soundness of the register allocator

The invariant of the scan: the active intervals own distinct registers, an interval that gave
its register back has ended, and the intervals on the stack have one slot each in the order they
were spilled. Each move of a step keeps it, hence so does the scan.
-/

namespace Nibble.X64

open Nibble.Lib
open Nibble.XIR (XReg)

/-! ## Stack slots -/

/-- The offset of the `n`-th slot under a frame of `base` bytes. -/
def slotOffset (base n : Nat) : BitVec 32 := -BitVec.ofNat 32 (base + 8 * n)

/-- Virtual registers in their slots, the latest first. -/
def Stacked (loc : XReg → Option (Loc Reg)) (base : Nat) : List XReg → Prop
  | [] => True
  | l :: sp => loc l = some (.stack (slotOffset base (sp.length + 1))) ∧ l ∉ sp ∧
      Stacked loc base sp

theorem Stacked.update {loc : XReg → Option (Loc Reg)} {base : Nat} {sp : List XReg}
    (h : Stacked loc base sp) {x : XReg} (hx : x ∉ sp) (v : Option (Loc Reg)) :
    Stacked (Function.update loc x v) base sp := by
  induction sp with
  | nil => trivial
  | cons l sp ih =>
    obtain ⟨hl, hnot, hs⟩ := h
    obtain ⟨hne, hx⟩ := List.ne_and_not_mem_of_not_mem_cons hx
    exact ⟨by rw [Function.update_of_ne (Ne.symm hne), hl], hnot, ih hs hx⟩

/-- A slot has a position, and positions are not shared. -/
theorem Stacked.exists_position {loc : XReg → Option (Loc Reg)} {base : Nat} {sp : List XReg}
    (h : Stacked loc base sp) {l : XReg} (hl : l ∈ sp) :
    ∃ n, 0 < n ∧ n ≤ sp.length ∧ loc l = some (.stack (slotOffset base n)) ∧
      ∀ l' ∈ sp, l' ≠ l → ∃ n', 0 < n' ∧ n' ≤ sp.length ∧ n' ≠ n ∧
        loc l' = some (.stack (slotOffset base n')) := by
  induction sp generalizing l with
  | nil => cases hl
  | cons k sp ih =>
    obtain ⟨hk, hnot, hs⟩ := h
    rcases List.mem_cons.mp hl with rfl | hl
    · refine ⟨sp.length + 1, Nat.succ_pos _, Nat.le_refl _, hk, fun l' hl' hne => ?_⟩
      obtain ⟨n', hpos, hle, hloc, -⟩ := ih hs (List.mem_of_ne_of_mem hne hl')
      exact ⟨n', hpos, Nat.le_succ_of_le hle, by omega, hloc⟩
    · obtain ⟨n, hpos, hle, hloc, hrest⟩ := ih hs hl
      refine ⟨n, hpos, Nat.le_succ_of_le hle, hloc, fun l' hl' hne => ?_⟩
      rcases List.mem_cons.mp hl' with rfl | hl'
      · exact ⟨sp.length + 1, Nat.succ_pos _, Nat.le_refl _, by omega, hk⟩
      · obtain ⟨n', hpos', hle', hne', hloc'⟩ := hrest l' hl' hne
        exact ⟨n', hpos', Nat.le_succ_of_le hle', hne', hloc'⟩

theorem Stacked.nodup {loc : XReg → Option (Loc Reg)} {base : Nat} {sp : List XReg}
    (h : Stacked loc base sp) : sp.Nodup := by
  induction sp with
  | nil => exact List.nodup_nil
  | cons k sp ih => exact List.nodup_cons.mpr ⟨h.2.1, ih h.2.2⟩

theorem Stacked.mem {loc : XReg → Option (Loc Reg)} {base : Nat} {sp : List XReg}
    (h : Stacked loc base sp) {l : XReg} (hl : l ∈ sp) : ∃ o, loc l = some (.stack o) := by
  obtain ⟨n, -, -, hloc, -⟩ := h.exists_position hl
  exact ⟨_, hloc⟩

/-- An offset of a frame that fits 31 bits is that many bytes below the frame pointer. -/
theorem toInt_slotOffset {base n : Nat} (h : base + 8 * n ≤ 2 ^ 31) :
    (slotOffset base n).toInt = -((base + 8 * n : Nat) : Int) := by
  have hlt : base + 8 * n < 2 ^ 32 := Nat.lt_of_le_of_lt h (by decide)
  rw [slotOffset, BitVec.toInt_neg, BitVec.toInt_eq_toNat_bmod, BitVec.toNat_ofNat,
    Nat.mod_eq_of_lt hlt]
  simp only [Int.bmod_def]
  omega

namespace AllocState

/-- The intervals that have a location. -/
def known (s : AllocState) : List RegRange := s.active ++ s.handled

theorem mem_known {s : AllocState} {x : RegRange} :
    x ∈ s.known ↔ x ∈ s.active ∨ x ∈ s.handled := List.mem_append

theorem mem_known_assign {s : AllocState} {x a : RegRange} {r : Reg} :
    a ∈ (s.assign x r).known ↔ a = x ∨ a ∈ s.known := by
  simp only [mem_known, assign, place, mem_addBy, allocReg_active, allocReg_handled, or_assoc]

theorem mem_known_spillRegLoc {s : AllocState} {x a : RegRange} :
    a ∈ (s.spillRegLoc x).known ↔ a = x ∨ a ∈ s.known := by
  simp only [mem_known, spillRegLoc, mem_addBy]
  exact or_left_comm

/-- The spilled intervals fill the slots below the initial offset. -/
def Slots (base : Nat) (s : AllocState) : Prop :=
  ∃ sp : List XReg, s.stackOffset = BitVec.ofNat 32 (base + 8 * sp.length) ∧
    Stacked s.loc base sp ∧ (∀ l o, s.loc l = some (.stack o) → l ∈ sp) ∧
    ∀ l ∈ sp, ∃ x ∈ s.known, x.lreg = l

/-- The invariant of the scan over the intervals `all`, with `todo` still to come. -/
structure Inv (base : Nat) (all : List RegRange) (s : AllocState) (todo : List RegRange) :
    Prop where
  nodup : (all.map RegRange.lreg).Nodup
  perm : (s.known ++ todo).Perm all
  sorted : SortedBy RegRange.start todo
  activeSorted : SortedBy RegRange.stop s.active
  handledSorted : SortedBy RegRange.start s.handled
  started : ∀ a ∈ s.active, ∀ j ∈ todo, a.start ≤ j.start
  held : ∀ a ∈ s.active, ∃ r, s.reg? a = some r ∧ s.rmap r = some a.lreg
  owner : ∀ r l, s.rmap r = some l → ∃ a ∈ s.active, a.lreg = l ∧ s.reg? a = some r
  located : ∀ l, s.loc l ≠ none ↔ ∃ a ∈ s.known, a.lreg = l
  ended : ∀ e ∈ s.handled, ∀ r, s.reg? e = some r → ∀ j ∈ todo, e.stop ≤ j.start
  apart : ∀ a ∈ s.known, ∀ c ∈ s.known, ∀ r, s.reg? a = some r → s.reg? c = some r →
    a.lreg ≠ c.lreg → a.stop ≤ c.start ∨ c.stop ≤ a.start
  meets : ∀ a ∈ s.known, a.ctrl.forcesReg = true → s.reg? a ≠ none
  admits : ∀ a ∈ s.known, ∀ r, s.reg? a = some r → a.ctrl.forcesReg = true →
    a.ctrl.admits r = true
  callee : ∀ a ∈ s.known, ∀ r, s.reg? a = some r → r.isCalleeSaved = true →
    s.usedCalleeRegs.mem r = true
  slots : s.Slots base

namespace Inv

variable {base : Nat} {all : List RegRange} {s : AllocState} {todo : List RegRange}

theorem eq_of_lreg (I : s.Inv base all todo) {a c : RegRange} (ha : a ∈ s.known ++ todo)
    (hc : c ∈ s.known ++ todo) (h : a.lreg = c.lreg) : a = c :=
  List.inj_on_of_nodup_map I.nodup (I.perm.mem_iff.mp ha) (I.perm.mem_iff.mp hc) h

theorem known_nodup (I : s.Inv base all todo) : (s.known ++ todo).Nodup :=
  I.perm.nodup_iff.mpr (List.Nodup.of_map _ I.nodup)

/-- Active intervals are told apart by their virtual registers. -/
theorem eq_of_active (I : s.Inv base all todo) {a c : RegRange} (ha : a ∈ s.active)
    (hc : c ∈ s.active) (h : a.lreg = c.lreg) : a = c :=
  I.eq_of_lreg (List.mem_append_left _ (mem_known.mpr (.inl ha)))
    (List.mem_append_left _ (mem_known.mpr (.inl hc))) h

theorem rmap_of_active (I : s.Inv base all todo) {a : RegRange} {r : Reg} (ha : a ∈ s.active)
    (hr : s.reg? a = some r) : s.rmap r = some a.lreg := by
  obtain ⟨q, hq, hm⟩ := I.held a ha
  rw [hr] at hq
  cases hq
  exact hm

/-- A register is free exactly if no active interval sits in it. -/
theorem free_iff (I : s.Inv base all todo) {r : Reg} :
    s.rmap r = none ↔ ∀ a ∈ s.active, s.reg? a ≠ some r := by
  constructor
  · intro h a ha hr
    rw [I.rmap_of_active ha hr] at h
    cases h
  · intro h
    cases hm : s.rmap r with
    | none => rfl
    | some l =>
      obtain ⟨a, ha, -, hr⟩ := I.owner r l hm
      exact absurd hr (h a ha)

theorem not_handled_of_active (I : s.Inv base all todo) {e : RegRange} (he : e ∈ s.active) :
    e ∉ s.handled := by
  intro h
  have hnd : (s.active ++ s.handled).Nodup := (List.nodup_append.mp I.known_nodup).1
  exact List.disjoint_of_nodup_append hnd he h

/-- Everyone but `e` is left of the active intervals when `e` is taken off. -/
theorem mem_erase (I : s.Inv base all todo) {e : RegRange} (he : e ∈ s.active) {a : RegRange} :
    a ∈ s.active.erase e ↔ a ∈ s.active ∧ a.lreg ≠ e.lreg := by
  have hnd : s.active.Nodup := (List.nodup_append.mp (List.nodup_append.mp I.known_nodup).1).1
  rw [hnd.mem_erase_iff]
  constructor
  · rintro ⟨hne, ha⟩
    exact ⟨ha, fun h => hne (I.eq_of_active ha he h)⟩
  · rintro ⟨ha, hne⟩
    exact ⟨fun h => hne (congrArg _ h), ha⟩

/-- The interval of the current step has no location yet. -/
theorem lreg_ne_head {x : RegRange} {rest : List RegRange} (I : s.Inv base all (x :: rest))
    {a : RegRange} (ha : a ∈ s.known) : a.lreg ≠ x.lreg := by
  intro h
  have he := I.eq_of_lreg (List.mem_append_left _ ha)
    (List.mem_append_right _ (List.mem_cons_self ..)) h
  subst he
  exact List.disjoint_of_nodup_append I.known_nodup ha (List.mem_cons_self ..)

/-! ## The moves keep the invariant -/

/-- Taking an active interval off and handing it over keeps all intervals. -/
theorem perm_handOver (I : s.Inv base all todo) {e : RegRange} (he : e ∈ s.active) :
    (s.active.erase e ++ addBy RegRange.start e s.handled ++ todo).Perm all := by
  refine List.Perm.trans ?_ I.perm
  refine List.Perm.append_right _ ?_
  have h₁ : (s.active.erase e ++ addBy RegRange.start e s.handled).Perm
      (s.active.erase e ++ e :: s.handled) := (addBy_perm e s.handled).append_left _
  have h₂ : (e :: s.active.erase e ++ s.handled).Perm (s.active ++ s.handled) :=
    (List.perm_cons_erase he).symm.append_right _
  exact h₁.trans (List.perm_middle.trans h₂)

theorem mem_handOver {e a : RegRange} (I : s.Inv base all todo) (he : e ∈ s.active) :
    a ∈ s.active.erase e ++ addBy RegRange.start e s.handled ↔ a ∈ s.known := by
  rw [List.mem_append, I.mem_erase he, mem_addBy, mem_known]
  constructor
  · rintro (⟨h, -⟩ | rfl | h)
    exacts [.inl h, .inl he, .inr h]
  · rintro (h | h)
    · by_cases hl : a.lreg = e.lreg
      · exact .inr (.inl (I.eq_of_active h he hl))
      · exact .inl ⟨h, hl⟩
    · exact .inr (.inr h)

/-- The others keep their registers when `e` gives its own back. -/
theorem held_of_release (I : s.Inv base all todo) {e a : RegRange} {r : Reg} (he : e ∈ s.active)
    (hr : s.reg? e = some r) (ha : a ∈ s.active.erase e) :
    ∃ q, s.reg? a = some q ∧ Function.update s.rmap r none q = some a.lreg := by
  obtain ⟨ha, hne⟩ := (I.mem_erase he).mp ha
  obtain ⟨q, hq, hm⟩ := I.held a ha
  refine ⟨q, hq, ?_⟩
  rw [Function.update_of_ne ?_, hm]
  rintro rfl
  rw [I.rmap_of_active he hr] at hm
  exact hne (Option.some.inj hm).symm

theorem owner_of_release (I : s.Inv base all todo) {e : RegRange} {r q : Reg} {l : XReg}
    (he : e ∈ s.active) (hr : s.reg? e = some r)
    (hq : Function.update s.rmap r none q = some l) :
    ∃ a ∈ s.active.erase e, a.lreg = l ∧ s.reg? a = some q := by
  have hne : q ≠ r := by
    rintro rfl
    simp at hq
  rw [Function.update_of_ne hne] at hq
  obtain ⟨a, ha, hl, hreg⟩ := I.owner q l hq
  refine ⟨a, (I.mem_erase he).mpr ⟨ha, fun h => hne ?_⟩, hl, hreg⟩
  rw [I.eq_of_active ha he h, hr] at hreg
  exact (Option.some.inj hreg).symm

/-- An active interval that has ended before every interval to come can give its register back. -/
theorem retire (I : s.Inv base all todo) {e : RegRange} {r : Reg} (he : e ∈ s.active)
    (hr : s.reg? e = some r) (hend : ∀ j ∈ todo, e.stop ≤ j.start) :
    (s.retire e r).Inv base all todo := by
  have hmem : ∀ a, a ∈ (s.retire e r).known ↔ a ∈ s.known := fun a => I.mem_handOver he
  constructor
  case nodup => exact I.nodup
  case perm => exact I.perm_handOver he
  case sorted => exact I.sorted
  case activeSorted => exact I.activeSorted.sublist List.erase_sublist
  case handledSorted => exact addBy_sorted I.handledSorted
  case started => exact fun a ha => I.started a (List.mem_of_mem_erase ha)
  case held =>
    exact fun a ha => I.held_of_release he hr ha
  case owner =>
    intro q l hq
    exact I.owner_of_release he hr hq
  case located =>
    intro l
    simp only [hmem]
    exact I.located l
  case ended =>
    intro c hc q hq
    rcases mem_addBy.mp hc with rfl | hc
    · exact hend
    · exact I.ended c hc q hq
  case apart =>
    intro a ha c hc
    exact I.apart a ((hmem a).mp ha) c ((hmem c).mp hc)
  case meets => exact fun a ha => I.meets a ((hmem a).mp ha)
  case admits => exact fun a ha => I.admits a ((hmem a).mp ha)
  case callee => exact fun a ha => I.callee a ((hmem a).mp ha)
  case slots =>
    obtain ⟨sp, hoff, hst, hall, hown⟩ := I.slots
    refine ⟨sp, hoff, hst, hall, fun l hl => ?_⟩
    obtain ⟨x, hx, hxl⟩ := hown l hl
    exact ⟨x, (hmem x).mpr hx, hxl⟩

/-- Moving an interval to the next slot keeps the stack. -/
theorem slots_spill (I : s.Inv base all todo) {x : RegRange} {t : AllocState}
    (hnot : ∀ o, s.loc x.lreg ≠ some (.stack o))
    (hoff : t.stackOffset = s.stackOffset + 8)
    (hloc : t.loc = Function.update s.loc x.lreg (some (.stack (-(s.stackOffset + 8)))))
    (hx : x ∈ t.known) (hk : ∀ a ∈ s.known, a ∈ t.known) : t.Slots base := by
  obtain ⟨sp, hso, hst, hall, hown⟩ := I.slots
  have hxsp : x.lreg ∉ sp := fun h => by
    obtain ⟨o, ho⟩ := hst.mem h
    exact hnot o ho
  have hnext : s.stackOffset + 8 = BitVec.ofNat 32 (base + 8 * (sp.length + 1)) := by
    rw [hso, show base + 8 * (sp.length + 1) = base + 8 * sp.length + 8 by omega]
    exact (BitVec.ofNat_add _ _).symm
  refine ⟨x.lreg :: sp, by rw [hoff, hnext, List.length_cons], ?_, ?_, ?_⟩
  · refine ⟨?_, hxsp, hloc ▸ hst.update hxsp _⟩
    rw [hloc, Function.update_self, hnext, slotOffset]
  · intro l o h
    rw [hloc, Function.update_apply] at h
    split at h
    next he => exact he ▸ List.mem_cons_self ..
    next => exact List.mem_cons_of_mem _ (hall l o h)
  · intro l hl
    rcases List.mem_cons.mp hl with rfl | hl
    · exact ⟨x, hx, rfl⟩
    · obtain ⟨y, hy, hyl⟩ := hown l hl
      exact ⟨y, hk y hy, hyl⟩

theorem loc_of_reg? {x : RegRange} {r : Reg} (h : s.reg? x = some r) (o : BitVec 32) :
    s.loc x.lreg ≠ some (.stack o) := by
  rw [reg?_eq_some.mp h]
  simp

/-- An active interval that is not forced into a register can go to the stack. -/
theorem evict (I : s.Inv base all todo) {e : RegRange} {r : Reg} (he : e ∈ s.active)
    (hr : s.reg? e = some r) (hf : e.ctrl.forcesReg = false) :
    (s.evict e r).Inv base all todo := by
  have hmem : ∀ a, a ∈ (s.evict e r).known ↔ a ∈ s.known := fun a => I.mem_handOver he
  have hreg : ∀ a q, (s.evict e r).reg? a = some q → s.reg? a = some q := by
    intro a q h
    rw [reg?_evict] at h
    split at h
    · cases h
    · exact h
  have hkeep : ∀ a, a.lreg ≠ e.lreg → (s.evict e r).reg? a = s.reg? a := by
    intro a hne
    rw [reg?_evict, if_neg hne]
  constructor
  case nodup => exact I.nodup
  case perm => exact I.perm_handOver he
  case sorted => exact I.sorted
  case activeSorted => exact I.activeSorted.sublist List.erase_sublist
  case handledSorted => exact addBy_sorted I.handledSorted
  case started => exact fun a ha => I.started a (List.mem_of_mem_erase ha)
  case held =>
    intro a ha
    rw [hkeep a ((I.mem_erase he).mp ha).2]
    exact I.held_of_release he hr ha
  case owner =>
    intro q l hq
    obtain ⟨a, ha, hl, ha'⟩ := I.owner_of_release he hr hq
    exact ⟨a, ha, hl, (hkeep a ((I.mem_erase he).mp ha).2).trans ha'⟩
  case located =>
    intro l
    simp only [hmem, ← I.located l]
    simp only [AllocState.evict, spillRegLoc, Function.update_apply]
    split
    next h => simp [h, reg?_eq_some.mp hr]
    next => rfl
  case ended =>
    intro c hc q hq
    rcases mem_addBy.mp hc with rfl | hc
    · rw [reg?_evict, if_pos rfl] at hq
      cases hq
    · exact I.ended c hc q (hreg c q hq)
  case apart =>
    intro a ha c hc q haq hcq
    exact I.apart a ((hmem a).mp ha) c ((hmem c).mp hc) q (hreg a q haq) (hreg c q hcq)
  case meets =>
    intro a ha hfa
    have hne : a.lreg ≠ e.lreg := by
      intro h
      have := I.eq_of_lreg (List.mem_append_left _ ((hmem a).mp ha))
        (List.mem_append_left _ (mem_known.mpr (.inl he))) h
      rw [this, hf] at hfa
      cases hfa
    rw [hkeep a hne]
    exact I.meets a ((hmem a).mp ha) hfa
  case admits => exact fun a ha q hq => I.admits a ((hmem a).mp ha) q (hreg a q hq)
  case callee => exact fun a ha q hq => I.callee a ((hmem a).mp ha) q (hreg a q hq)
  case slots =>
    exact I.slots_spill (loc_of_reg? hr) rfl rfl ((hmem e).mpr (mem_known.mpr (.inl he)))
      fun a ha => (hmem a).mpr ha

theorem mem_known_evict (I : s.Inv base all todo) {e a : RegRange} {r : Reg} (he : e ∈ s.active) :
    a ∈ (s.evict e r).known ↔ a ∈ s.known := I.mem_handOver he

variable {x : RegRange} {rest : List RegRange}

theorem loc_head (I : s.Inv base all (x :: rest)) : s.loc x.lreg = none := by
  by_contra h
  obtain ⟨a, ha, hl⟩ := (I.located x.lreg).mp h
  exact I.lreg_ne_head ha hl

/-- The current interval can take a free register that its control allows. -/
theorem assign (I : s.Inv base all (x :: rest)) {r : Reg} (hfree : s.rmap r = none)
    (hadm : x.ctrl.admits r = true) : (s.assign x r).Inv base all rest := by
  have hmem : ∀ a, a ∈ (s.assign x r).known ↔ a = x ∨ a ∈ s.known := fun _ => mem_known_assign
  have hself : (s.assign x r).reg? x = some r := by rw [reg?_assign, if_pos rfl]
  have hkeep : ∀ a ∈ s.known, (s.assign x r).reg? a = s.reg? a := by
    intro a ha
    rw [reg?_assign, if_neg (I.lreg_ne_head ha)]
  have hact : ∀ a ∈ s.active, a ∈ s.known := fun a ha => mem_known.mpr (.inl ha)
  have hhead := List.pairwise_cons.mp I.sorted
  -- No interval in the register of `x` can still be live: the active ones do not have it.
  have hpast : ∀ c ∈ s.known, s.reg? c = some r → c.stop ≤ x.start := by
    intro c hc hcr
    rcases mem_known.mp hc with hc | hc
    · exact absurd hcr (I.free_iff.mp hfree c hc)
    · exact I.ended c hc r hcr x (List.mem_cons_self ..)
  constructor
  case nodup => exact I.nodup
  case perm =>
    refine List.Perm.trans ?_ I.perm
    have h : (addBy RegRange.stop x s.active ++ s.handled).Perm (x :: s.known) :=
      (addBy_perm x s.active).append_right _
    exact (h.append_right rest).trans List.perm_middle.symm
  case sorted => exact hhead.2
  case activeSorted => exact addBy_sorted I.activeSorted
  case handledSorted => exact I.handledSorted
  case started =>
    intro a ha j hj
    rcases mem_addBy.mp ha with rfl | ha
    · exact hhead.1 j hj
    · exact I.started a ha j (List.mem_cons_of_mem _ hj)
  case held =>
    intro a ha
    rcases mem_addBy.mp ha with rfl | ha
    · exact ⟨r, hself, Function.update_self ..⟩
    · obtain ⟨q, hq, hm⟩ := I.held a ha
      refine ⟨q, (hkeep a (hact a ha)).trans hq, (Function.update_of_ne ?_ _ _).trans hm⟩
      rintro rfl
      rw [hfree] at hm
      cases hm
  case owner =>
    intro q l hq
    have hq : Function.update s.rmap r (some x.lreg) q = some l := hq
    rw [Function.update_apply] at hq
    split at hq
    next h =>
      cases hq
      exact ⟨x, mem_addBy.mpr (.inl rfl), rfl, h ▸ hself⟩
    next =>
      obtain ⟨a, ha, hl, har⟩ := I.owner q l hq
      exact ⟨a, mem_addBy.mpr (.inr ha), hl, (hkeep a (hact a ha)).trans har⟩
  case located =>
    intro l
    simp only [hmem, or_and_right, exists_or, ← I.located l, exists_eq_left]
    simp only [AllocState.assign, place, allocReg, Function.update_apply]
    split
    next h => simp [h]
    next h => simp [Ne.symm h]
  case ended =>
    intro e he q hq j hj
    rw [hkeep e (mem_known.mpr (.inr he))] at hq
    exact I.ended e he q hq j (List.mem_cons_of_mem _ hj)
  case apart =>
    intro a ha c hc q haq hcq hne
    rcases (hmem a).mp ha with rfl | ha'
    · rw [hself] at haq
      cases haq
      rcases (hmem c).mp hc with rfl | hc'
      · exact absurd rfl hne
      · exact .inr (hpast c hc' ((hkeep c hc').symm.trans hcq))
    · rw [hkeep a ha'] at haq
      rcases (hmem c).mp hc with rfl | hc'
      · rw [hself] at hcq
        cases hcq
        exact .inl (hpast a ha' haq)
      · exact I.apart a ha' c hc' q haq ((hkeep c hc').symm.trans hcq) hne
  case meets =>
    intro a ha hf
    rcases (hmem a).mp ha with rfl | ha
    · rw [hself]
      exact Option.some_ne_none r
    · rw [hkeep a ha]
      exact I.meets a ha hf
  case admits =>
    intro a ha q hq hf
    rcases (hmem a).mp ha with rfl | ha
    · rw [hself] at hq
      cases hq
      exact hadm
    · exact I.admits a ha q ((hkeep a ha).symm.trans hq) hf
  case callee =>
    intro a ha q hq hs
    have hused : (s.assign x r).usedCalleeRegs =
      if r.isCalleeSaved then s.usedCalleeRegs.set r else s.usedCalleeRegs := rfl
    rcases (hmem a).mp ha with rfl | ha
    · rw [hself] at hq
      cases hq
      rw [hused, if_pos hs, RegMask.mem_set]
      simp
    · have hq := I.callee a ha q ((hkeep a ha).symm.trans hq) hs
      rw [hused]
      split
      · rw [RegMask.mem_set, hq]
        rfl
      · exact hq
  case slots =>
    obtain ⟨sp, hoff, hst, hall, hown⟩ := I.slots
    have hx : x.lreg ∉ sp := fun h => by
      obtain ⟨a, ha, hl⟩ := hown _ h
      exact I.lreg_ne_head ha hl
    refine ⟨sp, hoff, hst.update hx _, fun l o h => ?_, fun l hl => ?_⟩
    · have h : Function.update s.loc x.lreg (some (.reg r)) l = some (.stack o) := h
      rw [Function.update_apply] at h
      split at h
      · cases h
      · exact hall l o h
    · obtain ⟨a, ha, hl⟩ := hown l hl
      exact ⟨a, (hmem a).mpr (.inr ha), hl⟩

/-- The current interval can go to the stack unless it is forced into a register. -/
theorem spill (I : s.Inv base all (x :: rest)) (hf : x.ctrl.forcesReg = false) :
    (s.spillRegLoc x).Inv base all rest := by
  have hmem : ∀ a, a ∈ (s.spillRegLoc x).known ↔ a = x ∨ a ∈ s.known :=
    fun _ => mem_known_spillRegLoc
  have hself : (s.spillRegLoc x).reg? x = none := by rw [reg?_spillRegLoc, if_pos rfl]
  have hkeep : ∀ a ∈ s.known, (s.spillRegLoc x).reg? a = s.reg? a := by
    intro a ha
    rw [reg?_spillRegLoc, if_neg (I.lreg_ne_head ha)]
  have hreg : ∀ a ∈ (s.spillRegLoc x).known, ∀ q, (s.spillRegLoc x).reg? a = some q →
      a ∈ s.known ∧ s.reg? a = some q := by
    intro a ha q hq
    rcases (hmem a).mp ha with rfl | ha
    · rw [hself] at hq
      cases hq
    · exact ⟨ha, (hkeep a ha).symm.trans hq⟩
  have hact : ∀ a ∈ s.active, a ∈ s.known := fun a ha => mem_known.mpr (.inl ha)
  constructor
  case nodup => exact I.nodup
  case perm =>
    refine List.Perm.trans ?_ I.perm
    have h : (s.active ++ addBy RegRange.start x s.handled).Perm (x :: s.known) :=
      ((addBy_perm x s.handled).append_left _).trans List.perm_middle
    exact (h.append_right rest).trans List.perm_middle.symm
  case sorted => exact (List.pairwise_cons.mp I.sorted).2
  case activeSorted => exact I.activeSorted
  case handledSorted => exact addBy_sorted I.handledSorted
  case started => exact fun a ha j hj => I.started a ha j (List.mem_cons_of_mem _ hj)
  case held =>
    intro a ha
    rw [hkeep a (hact a ha)]
    exact I.held a ha
  case owner =>
    intro q l hq
    obtain ⟨a, ha, hl, har⟩ := I.owner q l hq
    exact ⟨a, ha, hl, (hkeep a (hact a ha)).trans har⟩
  case located =>
    intro l
    simp only [hmem, or_and_right, exists_or, ← I.located l, exists_eq_left]
    simp only [spillRegLoc, Function.update_apply]
    split
    next h => simp [h]
    next h => simp [Ne.symm h]
  case ended =>
    intro e he q hq j hj
    rcases mem_addBy.mp he with rfl | he
    · rw [hself] at hq
      cases hq
    · rw [hkeep e (mem_known.mpr (.inr he))] at hq
      exact I.ended e he q hq j (List.mem_cons_of_mem _ hj)
  case apart =>
    intro a ha c hc q haq hcq
    obtain ⟨ha, haq⟩ := hreg a ha q haq
    obtain ⟨hc, hcq⟩ := hreg c hc q hcq
    exact I.apart a ha c hc q haq hcq
  case meets =>
    intro a ha hfa
    rcases (hmem a).mp ha with rfl | ha
    · rw [hf] at hfa
      cases hfa
    · rw [hkeep a ha]
      exact I.meets a ha hfa
  case admits =>
    intro a ha q hq
    obtain ⟨ha, hq⟩ := hreg a ha q hq
    exact I.admits a ha q hq
  case callee =>
    intro a ha q hq
    obtain ⟨ha, hq⟩ := hreg a ha q hq
    exact I.callee a ha q hq
  case slots =>
    refine I.slots_spill ?_ rfl rfl ((hmem x).mpr (.inl rfl)) fun a ha => (hmem a).mpr (.inr ha)
    intro o h
    rw [I.loc_head] at h
    cases h

/-- Old intervals can always expire; the others keep their locations. -/
theorem exists_expire {start : Int} {l : List RegRange} (hl : s.active = l)
    (I : s.Inv base all todo) (hstart : ∀ j ∈ todo, start ≤ j.start) :
    ∃ t, expire start l s = some t ∧ t.Inv base all todo ∧
      t.active = l.filter (fun a => start < a.stop) ∧ t.loc = s.loc ∧
      ∀ a, a ∈ t.known ↔ a ∈ s.known := by
  induction l generalizing s with
  | nil => exact ⟨s, rfl, I, hl, rfl, fun _ => Iff.rfl⟩
  | cons e l ih =>
    have he : e ∈ s.active := hl ▸ List.mem_cons_self ..
    obtain ⟨r, hr, -⟩ := I.held e he
    simp only [expire]
    split
    next hlt =>
      refine ⟨s, rfl, I, ?_, rfl, fun _ => Iff.rfl⟩
      have hsorted := I.activeSorted
      rw [hl] at hsorted ⊢
      refine (List.filter_eq_self.mpr fun a ha => decide_eq_true ?_).symm
      rcases List.mem_cons.mp ha with rfl | ha
      · exact hlt
      · exact Int.lt_of_lt_of_le hlt ((List.pairwise_cons.mp hsorted).1 a ha)
    next hge =>
      have hret := I.retire he hr fun j hj => Int.le_trans (Int.not_lt.mp hge) (hstart j hj)
      have herase : s.active.erase e = l := by rw [hl, List.erase_cons_head]
      obtain ⟨t, ht, It, hact, hloc, hmem⟩ := ih herase hret
      refine ⟨t, ?_, It, ?_, hloc, fun a => (hmem a).trans (I.mem_handOver he)⟩
      · rw [hr]
        simpa only [AllocState.retire, herase, Option.bind_some] using ht
      · rw [hact, List.filter_cons, if_neg (by simpa using hge)]

theorem start_le (I : s.Inv base all (x :: rest)) : ∀ j ∈ x :: rest, x.start ≤ j.start := by
  intro j hj
  rcases List.mem_cons.mp hj with rfl | hj
  · exact Int.le_refl _
  · exact (List.pairwise_cons.mp I.sorted).1 j hj

theorem handle {b : LirRegs} {scratch : ScratchRegs} {t : AllocState}
    (I : s.Inv base all (x :: rest)) (h : s.handle b scratch x rest = some t) :
    t.Inv base all rest := by
  obtain ⟨u, hu, ht⟩ := Option.bind_eq_some_iff.mp h
  obtain ⟨u', hu', Iu, -, -, -⟩ := I.exists_expire rfl I.start_le
  rw [hu] at hu'
  cases hu'
  cases allocInterval_placed ht with
  | assign r hfree hadm _ _ => exact Iu.assign hfree hadm
  | spill hf => exact Iu.spill hf
  | steal donor _ hmem hunforced hspills _ _ hsteal =>
    have hne : x.lreg ≠ donor.lreg := (Iu.lreg_ne_head (mem_known.mpr (.inl hmem))).symm
    obtain ⟨r, hr, rfl⟩ := stealReg_eq hne (Iu.callee donor (mem_known.mpr (.inl hmem))) hsteal
    refine (Iu.evict hmem hr hspills).assign (Function.update_self ..) ?_
    cases hc : x.ctrl <;> rw [hc] at hunforced <;> first | rfl | cases hunforced

end Inv

theorem init_inv (b : LirRegs) (stackOffset : BitVec 32) :
    (init stackOffset).Inv stackOffset.toNat b.unhandled b.unhandled where
  nodup := b.unhandled_nodup
  perm := List.Perm.refl _
  sorted := b.unhandled_sorted
  activeSorted := List.Pairwise.nil
  handledSorted := List.Pairwise.nil
  started := by simp [init]
  held := by simp [init]
  owner := by simp [init]
  located := by simp [init, known]
  ended := by simp [init]
  apart := by simp [init, known]
  meets := by simp [init, known]
  admits := by simp [init, known]
  callee := by simp [init, known]
  slots := ⟨[], by simp [init], trivial, by simp [init], by simp⟩

end AllocState

/-! ## The allocation -/

/-- Two live ranges share an interior instruction number. -/
def RegRange.Overlap (a c : RegRange) : Prop :=
  ∃ n, (a.start < n ∧ n < a.stop) ∧ (c.start < n ∧ n < c.stop)

namespace RegAllocResult

variable (res : RegAllocResult) (all : List RegRange)

/-- Registers are not shared by overlapping intervals, forced ones are obeyed, and every
callee-saved one in use is recorded. -/
structure RegsSound : Prop where
  apart : ∀ a ∈ all, ∀ c ∈ all, a.lreg ≠ c.lreg → a.Overlap c →
    ∀ r, res.loc a.lreg = some (.reg r) → res.loc c.lreg ≠ some (.reg r)
  forceReg : ∀ a ∈ all, ∀ p, a.ctrl = .forceReg p → res.loc a.lreg = some (.reg p)
  forceAnyReg : ∀ a ∈ all, ∀ mask, a.ctrl = .forceAnyReg mask →
    ∃ r, res.loc a.lreg = some (.reg r) ∧ mask.mem r = true
  calleeSaved : ∀ a ∈ all, ∀ r, res.loc a.lreg = some (.reg r) → r.isCalleeSaved = true →
    res.usedCalleeRegs.mem r = true

/-- Intervals on the stack have disjoint eight-byte slots below the first `frame` bytes. -/
structure SlotsApart (frame : Nat) : Prop where
  beyond : ∀ a ∈ all, ∀ o, res.loc a.lreg = some (.stack o) → o.toInt + 8 ≤ -(frame : Int)
  apart : ∀ a ∈ all, ∀ c ∈ all, a.lreg ≠ c.lreg →
    ∀ o o', res.loc a.lreg = some (.stack o) → res.loc c.lreg = some (.stack o') →
      o.toInt + 8 ≤ o'.toInt ∨ o'.toInt + 8 ≤ o.toInt

/-- The intervals on the stack. -/
def onStack (x : RegRange) : Bool :=
  match res.loc x.lreg with
  | some (.stack _) => true
  | _ => false

end RegAllocResult

open AllocState

/-- A result is made from a final state of the scan. -/
theorem linearScanRegAlloc_final {b : LirRegs} {scratch : ScratchRegs} {stackOffset : BitVec 32}
    {res : RegAllocResult} (h : linearScanRegAlloc b scratch stackOffset = some res) :
    ∃ s : AllocState, s.Inv stackOffset.toNat b.unhandled [] ∧
      res = ⟨alignUpMask s.stackOffset 16, s.usedCalleeRegs, s.loc,
        s.saveRegMasks b.callSites s.finish⟩ := by
  unfold linearScanRegAlloc at h
  simp only [Option.bind_eq_bind, Option.bind_eq_some_iff, Option.pure_def] at h
  obtain ⟨s, hs, h⟩ := h
  split at h
  · cases h
    have hstep : ∀ (t : AllocState) x rest t', t.Inv stackOffset.toNat b.unhandled (x :: rest) →
        t.handle b scratch x rest = some t' → t'.Inv stackOffset.toNat b.unhandled rest :=
      fun _ _ _ _ I h => I.handle h
    exact ⟨s, scan_keeps hstep (init_inv b stackOffset) hs, rfl⟩
  · cases h

theorem linearScanRegAlloc_inv {b : LirRegs} {scratch : ScratchRegs} {stackOffset : BitVec 32}
    {res : RegAllocResult} (h : linearScanRegAlloc b scratch stackOffset = some res) :
    ∃ s : AllocState, s.Inv stackOffset.toNat b.unhandled [] ∧ res.loc = s.loc ∧
      res.usedCalleeRegs = s.usedCalleeRegs ∧
      res.saveRegMasks = s.saveRegMasks b.callSites s.finish := by
  obtain ⟨s, I, rfl⟩ := linearScanRegAlloc_final h
  exact ⟨s, I, rfl, rfl, rfl⟩

namespace AllocState.Inv

variable {base : Nat} {all : List RegRange} {s : AllocState}

theorem mem_known_of_done (I : s.Inv base all []) {a : RegRange} (ha : a ∈ all) : a ∈ s.known := by
  have h := I.perm.mem_iff.mpr ha
  rwa [List.append_nil] at h

theorem regsSound {res : RegAllocResult} (I : s.Inv base all []) (hloc : res.loc = s.loc)
    (hused : res.usedCalleeRegs = s.usedCalleeRegs) : res.RegsSound all where
  apart a ha c hc hne := by
    rintro ⟨n, hna, hnc⟩ r har hcr
    rw [hloc] at har hcr
    have := I.apart a (I.mem_known_of_done ha) c (I.mem_known_of_done hc) r
      (reg?_eq_some.mpr har) (reg?_eq_some.mpr hcr) hne
    omega
  forceReg a ha p hctrl := by
    have ha := I.mem_known_of_done ha
    have hf : a.ctrl.forcesReg = true := by rw [hctrl]; rfl
    obtain ⟨r, hr⟩ := Option.ne_none_iff_exists'.mp (I.meets a ha hf)
    have hadm := I.admits a ha r hr hf
    rw [hctrl, AllocCtrl.admits, decide_eq_true_eq] at hadm
    rw [hloc, reg?_eq_some.mp hr, hadm]
  forceAnyReg a ha mask hctrl := by
    have ha := I.mem_known_of_done ha
    have hf : a.ctrl.forcesReg = true := by rw [hctrl]; rfl
    obtain ⟨r, hr⟩ := Option.ne_none_iff_exists'.mp (I.meets a ha hf)
    have hadm := I.admits a ha r hr hf
    rw [hctrl, AllocCtrl.admits] at hadm
    exact ⟨r, by rw [hloc, reg?_eq_some.mp hr], hadm⟩
  calleeSaved a ha r har hs := by
    rw [hloc] at har
    rw [hused]
    exact I.callee a (I.mem_known_of_done ha) r (reg?_eq_some.mpr har) hs

/-- There are no more slots than intervals on the stack. -/
theorem length_le_onStack {res : RegAllocResult} (I : s.Inv base all []) (hloc : res.loc = s.loc)
    {sp : List XReg} (hst : Stacked s.loc base sp)
    (hown : ∀ l ∈ sp, ∃ x ∈ s.known, x.lreg = l) : sp.length ≤ all.countP res.onStack := by
  have hsub : sp ⊆ (all.filter res.onStack).map RegRange.lreg := by
    intro l hl
    obtain ⟨x, hx, rfl⟩ := hown l hl
    obtain ⟨o, ho⟩ := hst.mem hl
    refine List.mem_map_of_mem (List.mem_filter.mpr ⟨?_, ?_⟩)
    · exact I.perm.mem_iff.mp (List.mem_append_left _ hx)
    · rw [RegAllocResult.onStack, hloc, ho]
  have hle := (List.subperm_of_subset hst.nodup hsub).length_le
  rwa [List.length_map, ← List.countP_eq_length_filter] at hle

theorem slotsApart {res : RegAllocResult} (I : s.Inv base all []) (hloc : res.loc = s.loc)
    (hframe : base + 8 * all.countP res.onStack ≤ 2 ^ 31) : res.SlotsApart all base := by
  obtain ⟨sp, -, hst, hall, hown⟩ := I.slots
  have hlen := I.length_le_onStack hloc hst hown
  constructor
  · intro a ha o ho
    rw [hloc] at ho
    obtain ⟨n, hpos, hle, hn, -⟩ := hst.exists_position (hall _ _ ho)
    rw [ho] at hn
    cases hn
    rw [toInt_slotOffset (by omega)]
    omega
  · intro a ha c hc hne o o' ho ho'
    rw [hloc] at ho ho'
    obtain ⟨n, hpos, hle, hn, hrest⟩ := hst.exists_position (hall _ _ ho)
    obtain ⟨n', hpos', hle', hne', hn'⟩ := hrest c.lreg (hall _ _ ho') (Ne.symm hne)
    rw [ho] at hn
    rw [ho'] at hn'
    cases hn
    cases hn'
    rw [toInt_slotOffset (by omega), toInt_slotOffset (by omega)]
    omega

end AllocState.Inv

/-- **Soundness of the allocator.** Where it succeeds, the registers are sound; so are the stack
slots if the frame they make fits 31 bits. -/
theorem linearScanRegAlloc_sound (b : LirRegs) (scratch : ScratchRegs) (stackOffset : BitVec 32)
    (res : RegAllocResult) (h : linearScanRegAlloc b scratch stackOffset = some res) :
    res.RegsSound b.unhandled ∧
      (stackOffset.toNat + 8 * b.unhandled.countP res.onStack ≤ 2 ^ 31 →
        res.SlotsApart b.unhandled stackOffset.toNat) := by
  obtain ⟨s, I, hloc, hused, -⟩ := linearScanRegAlloc_inv h
  exact ⟨I.regsSound hloc hused, I.slotsApart hloc⟩

/-- Two arguments for one register: the second is spilled. -/
def twoArgs : LirRegs where
  ranges := [⟨0, 1, 5, .int, .forceRegOrSpill 0x80⟩, ⟨1, 2, 6, .int, .forceRegOrSpill 0x80⟩]
  aliases := [0, 1]
  callSites := []
  lregs := rfl

theorem linearScanRegAlloc_sound_twoArgs :
    (linearScanRegAlloc twoArgs leafScratchRegs 32).isSome = true ∧
      ∀ res, linearScanRegAlloc twoArgs leafScratchRegs 32 = some res →
        res.RegsSound twoArgs.unhandled ∧ res.SlotsApart twoArgs.unhandled 32 := by
  refine ⟨by decide, fun res h => ?_⟩
  obtain ⟨hr, hs⟩ := linearScanRegAlloc_sound twoArgs leafScratchRegs 32 res h
  refine ⟨hr, hs ?_⟩
  have hle := List.countP_le_length (p := res.onStack) (l := twoArgs.unhandled)
  have hlen : twoArgs.unhandled.length = 2 := by decide
  have hnat : (32 : BitVec 32).toNat = 32 := by decide
  omega

/-- Under a frame of half the address range of an offset, the offset of a slot is positive. -/
theorem not_slotsApart_twoArgs :
    ¬ ∀ (b : LirRegs) (scratch : ScratchRegs) (stackOffset : BitVec 32) (res : RegAllocResult),
      linearScanRegAlloc b scratch stackOffset = some res →
        res.RegsSound b.unhandled ∧ res.SlotsApart b.unhandled stackOffset.toNat := by
  intro hall
  obtain ⟨res, hres⟩ : ∃ res, linearScanRegAlloc twoArgs leafScratchRegs 0x80000000 = some res :=
    ⟨_, rfl⟩
  have hloc : (linearScanRegAlloc twoArgs leafScratchRegs 0x80000000).map (fun r => r.loc 1) =
      some (some (.stack 0x7FFFFFF8)) := by decide
  rw [hres] at hloc
  have hbeyond := (hall twoArgs leafScratchRegs 0x80000000 res hres).2.beyond
    ⟨1, 2, 6, .int, .forceRegOrSpill 0x80⟩ (by decide) _ (Option.some.inj hloc)
  revert hbeyond
  decide

/-! ## Registers saved across calls -/

namespace AllocState

variable {s : AllocState}

theorem savesAt_eq_some {ino : Int} {x : RegRange} {r : Reg} :
    s.savesAt ino x = some r ↔
      (x.start < ino ∧ ino < x.stop) ∧ s.reg? x = some r ∧ r.isCallerSaved = true := by
  unfold savesAt
  split
  next h => simp [h, Option.filter_eq_some_iff]
  next h => simp [h]

theorem mem_saveRegMask {ino : Int} {xs : List RegRange} (hs : SortedBy RegRange.start xs)
    {mask : RegMask} {r : Reg} :
    (s.saveRegMask ino xs mask).mem r = true ↔
      mask.mem r = true ∨ ∃ x ∈ xs, s.savesAt ino x = some r := by
  induction xs generalizing mask with
  | nil => simp [saveRegMask]
  | cons x xs ih =>
    obtain ⟨hx, hs⟩ := List.pairwise_cons.mp hs
    unfold saveRegMask
    split
    next hle =>
      refine ⟨Or.inl, fun h => h.resolve_right ?_⟩
      rintro ⟨y, hy, hsave⟩
      have hlt := (savesAt_eq_some.mp hsave).1.1
      rcases List.mem_cons.mp hy with rfl | hy
      · omega
      · have := hx y hy
        omega
    next =>
      rw [ih hs]
      simp only [List.mem_cons, exists_eq_or_imp]
      cases hsave : s.savesAt ino x with
      | none => simp only [reduceCtorEq, false_or]
      | some q =>
        simp only [RegMask.mem_set, Bool.or_eq_true, decide_eq_true_eq, Option.some.injEq]
        rw [or_assoc]

/-- What is skipped for one site would not be saved at a later one. -/
theorem exists_skipTo_iff {ino ino' : Int} (hle : ino ≤ ino') {xs : List RegRange} {r : Reg} :
    (∃ x ∈ s.skipTo ino xs, s.savesAt ino' x = some r) ↔ ∃ x ∈ xs, s.savesAt ino' x = some r := by
  induction xs with
  | nil => rfl
  | cons x xs ih =>
    unfold skipTo
    split
    · rfl
    next hstart =>
      split
      · rfl
      next hnone =>
        rw [ih]
        refine ⟨fun ⟨y, hy, h⟩ => ⟨y, List.mem_cons_of_mem _ hy, h⟩, fun ⟨y, hy, h⟩ => ?_⟩
        rcases List.mem_cons.mp hy with rfl | hy
        · obtain ⟨⟨-, hstop⟩, hr⟩ := savesAt_eq_some.mp h
          have : s.savesAt ino y = some r := savesAt_eq_some.mpr ⟨⟨by omega, by omega⟩, hr⟩
          rw [this] at hnone
          exact absurd rfl hnone
        · exact ⟨y, hy, h⟩

theorem skipTo_sorted {ino : Int} {xs : List RegRange} (hs : SortedBy RegRange.start xs) :
    SortedBy RegRange.start (s.skipTo ino xs) := by
  induction xs with
  | nil => exact hs
  | cons x xs ih =>
    unfold skipTo
    split
    · exact hs
    · split
      · exact hs
      · exact ih (List.pairwise_cons.mp hs).2

/-- The masks of sites in order, scanning a list that agrees with `xs` on all of them. -/
theorem saveRegMasks_mem {sites : List Int} (hsites : sites.Pairwise (· ≤ ·))
    (xs : List RegRange) {ys : List RegRange} (hs : SortedBy RegRange.start ys)
    (hagree : ∀ ino ∈ sites, ∀ r,
      (∃ x ∈ ys, s.savesAt ino x = some r) ↔ ∃ x ∈ xs, s.savesAt ino x = some r) :
    List.Forall₂ (fun ino (mask : RegMask) =>
      ∀ r, mask.mem r = true ↔ ∃ x ∈ xs, s.savesAt ino x = some r)
      sites (s.saveRegMasks sites ys) := by
  induction sites generalizing ys with
  | nil => exact .nil
  | cons ino sites ih =>
    obtain ⟨hino, hsites⟩ := List.pairwise_cons.mp hsites
    have hskip : SortedBy RegRange.start (s.skipTo ino ys) := skipTo_sorted hs
    refine .cons (fun r => ?_) (ih hsites hskip fun ino' hmem r => ?_)
    · rw [mem_saveRegMask hskip, RegMask.mem_zero, exists_skipTo_iff (Int.le_refl ino)]
      simp only [Bool.false_eq_true, false_or, hagree ino (List.mem_cons_self ..)]
    · rw [exists_skipTo_iff (hino ino' hmem), hagree ino' (List.mem_cons_of_mem _ hmem)]

end AllocState

/-- Where the call sites come in order, the mask of a site has exactly the caller-saved registers
of the intervals that are live across it. -/
theorem linearScanRegAlloc_saveRegMasks {b : LirRegs} {scratch : ScratchRegs}
    {stackOffset : BitVec 32} {res : RegAllocResult} (hsites : b.callSites.Pairwise (· ≤ ·))
    (h : linearScanRegAlloc b scratch stackOffset = some res) :
    List.Forall₂ (fun ino (mask : RegMask) => ∀ r, mask.mem r = true ↔
      ∃ x ∈ b.unhandled, (x.start < ino ∧ ino < x.stop) ∧ res.loc x.lreg = some (.reg r) ∧
        r.isCallerSaved = true) b.callSites res.saveRegMasks := by
  obtain ⟨s, I, hloc, -, hmasks⟩ := linearScanRegAlloc_inv h
  have hsorted : SortedBy RegRange.start s.finish := foldl_addBy_sorted _ I.handledSorted
  have hmem : ∀ x, x ∈ s.finish ↔ x ∈ b.unhandled := by
    intro x
    rw [finish, (foldl_addBy_perm s.active s.handled).mem_iff, ← I.perm.mem_iff, List.append_nil]
    rfl
  rw [hmasks]
  refine (saveRegMasks_mem hsites s.finish hsorted fun _ _ _ => Iff.rfl).imp fun ino mask hm r => ?_
  rw [hm]
  simp only [hmem, savesAt_eq_some, reg?_eq_some, hloc]

end Nibble.X64
