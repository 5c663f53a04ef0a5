import Nibble.IR.Frame
import Nibble.IR.DeadExact

/-!
# The graphs that emission produces

`Produced` are the builders that come about by the primitives of emission:
blocks are allocated, instructions are added to open blocks, jumps receive their
targets. The primitives keep the predecessor lists: they count the jumps.
-/

namespace Nibble.IR

open Nibble.Lib Nibble.Lib.Flow

variable {B B' : ProcBuilder} {b p s t x : BBlockId} {i : Instr} {j : InstrId}

/-- The loop of `IR_emit_instr_switch_case_jmp` over the targets. -/
def connectTargets (b : BBlockId) : List BBlockId → Build Unit
  | [] => pure ()
  | t :: ts => do
    connectBBlocks b t
    connectTargets b ts

/-- `IR_emit_instr_switch_case_jmp`. -/
def emitInstrSwitchCaseJmp (b : BBlockId) (val : OpRIA) (targets : List BBlockId)
    (caseRanges : List CaseRange) : Build InstrId := do
  let j ← addInstr b (.switchCaseJmp b val targets caseRanges)
  connectTargets b targets
  pure j

/-- A builder with the start block only. -/
def startProc : ProcBuilder := ⟨[], [⟨[], [], false, false⟩], [], 0, [], none, []⟩

/-- No block and no jump differs. A comparison may have been inverted. -/
structure SameFlow (B B' : ProcBuilder) : Prop where
  length : B'.instrs.length = B.instrs.length
  block : ∀ x : BBlockId, (B'.bblocks[x]?).map (fun bb => (bb.instrs, bb.preds, bb.closed)) =
    (B.bblocks[x]?).map fun bb => (bb.instrs, bb.preds, bb.closed)
  instr : ∀ (j : InstrId) i, B.instrs[j]? = some i → B'.instrs[j]? = some i ∨
    i.isControl = false ∧ ∃ i', B'.instrs[j]? = some i' ∧ i'.isControl = false

/-- The builders that emission can produce. The start block is no target, nothing is added to a
block after its switch, and a jump receives its target once. -/
inductive Produced : ProcBuilder → Prop where
  | start : Produced startProc
  | alloc {B B' : ProcBuilder} {b : BBlockId} (h : Produced B)
      (hrun : allocBBlock B = some (b, B')) : Produced B'
  | instr {B B' : ProcBuilder} {b : BBlockId} {i : Instr} {j : InstrId} (h : Produced B)
      (hi : i.isJump = false) (hs : ¬ B.EndsInSwitch b) (hrun : addInstr b i B = some (j, B')) :
      Produced B'
  | jmp {B B' : ProcBuilder} {b : BBlockId} {target : Option BBlockId} {j : InstrId}
      (h : Produced B) (ht : target ≠ some 0) (hs : ¬ B.EndsInSwitch b)
      (hrun : emitInstrJmp b target B = some (j, B')) : Produced B'
  | condJmp {B B' : ProcBuilder} {b falseBb : BBlockId} {trueBb : Option BBlockId} {a : Reg}
      {j : InstrId} (h : Produced B) (ht : trueBb ≠ some 0) (hf : falseBb ≠ 0)
      (hs : ¬ B.EndsInSwitch b) (hrun : emitInstrCondJmp b trueBb falseBb a B = some (j, B')) :
      Produced B'
  | switchCaseJmp {B B' : ProcBuilder} {b : BBlockId} {val : OpRIA} {targets : List BBlockId}
      {caseRanges : List CaseRange} {j : InstrId} (h : Produced B) (ht : ∀ t ∈ targets, t ≠ 0)
      (hs : ¬ B.EndsInSwitch b)
      (hrun : emitInstrSwitchCaseJmp b val targets caseRanges B = some (j, B')) : Produced B'
  | patch {B B' : ProcBuilder} {j : InstrId} {target : BBlockId} (h : Produced B)
      (hj : (∃ s, B.instrs[j]? = some (.jmp s none)) ∨ ∃ s f a, B.instrs[j]? = some (.condJmp s none f a))
      (ht : target ≠ 0) (hrun : patchJmpTarget j target B = some ((), B')) : Produced B'
  | same {B B' : ProcBuilder} (h : Produced B) (hs : SameFlow B B') : Produced B'

/-! ## The invariant -/

/-- The id of the last instruction. -/
def ProcBuilder.lastId (B : ProcBuilder) (b : BBlockId) : Option InstrId :=
  (B.bblocks[b]?).bind fun bb => bb.instrs.getLast?

theorem lastInstr_lastId :
    B.lastInstr b = some (j, i) ↔ B.lastId b = some j ∧ B.instrs[j]? = some i := by
  rw [lastInstr_eq_some]
  unfold ProcBuilder.lastId
  cases B.bblocks[b]? <;> simp

/-- The jumps know their block, and the predecessor lists count them. -/
structure CfgInv (B : ProcBuilder) : Prop where
  valid : ∀ x : BBlockId, ∀ j ∈ B.blockInstrs x, j < B.instrs.length
  own : ∀ x y : BBlockId, ∀ j ∈ B.blockInstrs x, j ∈ B.blockInstrs y → x = y
  target : ∀ p t : BBlockId, some t ∈ B.succs p → t < B.bblocks.length
  count : ∀ x p : BBlockId, (B.preds x).count p = (B.succs p).count (some x)
  start : B.preds 0 = []
  closed : ∀ x bb j i, B.bblocks[x]? = some bb → B.lastInstr x = some (j, i) → bb.closed = i.closes
  jmp : ∀ (j : InstrId) s t, B.instrs[j]? = some (.jmp s t) → B.lastId s = some j
  condJmp : ∀ (j : InstrId) s t f a, B.instrs[j]? = some (.condJmp s t f a) → B.lastId s = some j

theorem CfgInv.congr (h : CfgInv B) (hi : B'.instrs = B.instrs) (hb : B'.bblocks = B.bblocks) :
    CfgInv B' := by
  obtain ⟨instrs, bblocks, _, _, _, _, _⟩ := B
  obtain ⟨instrs', bblocks', _, _, _, _, _⟩ := B'
  cases hi
  cases hb
  exact ⟨h.valid, h.own, h.target, h.count, h.start, h.closed, h.jmp, h.condJmp⟩

theorem mem_blockInstrs_of_lastId (h : B.lastId x = some j) : j ∈ B.blockInstrs x := by
  unfold ProcBuilder.lastId at h
  unfold ProcBuilder.blockInstrs
  cases hx : B.bblocks[x]? with
  | none => simp [hx] at h
  | some bb =>
    rw [hx, Option.bind_some] at h
    exact List.mem_of_getLast? h

theorem succs_eq_nil (h : ∀ j i, B.lastInstr b = some (j, i) → exitTargets i.exit = []) :
    B.succs b = [] := by
  cases hs : B.succs b with
  | nil => rfl
  | cons y ys =>
    obtain ⟨j, i, hl⟩ := lastInstr_of_mem_succs (x := y) (by rw [hs]; exact List.mem_cons_self)
    rw [succs_of_lastInstr hl, h j i hl] at hs
    cases hs

/-- An open block that does not end in a switch does not jump yet. -/
theorem CfgInv.succs_open (h : CfgInv B) (ho : B.IsOpen b) (hs : ¬ B.EndsInSwitch b) :
    B.succs b = [] := by
  obtain ⟨bb, hbb, hc⟩ := ho
  refine succs_eq_nil fun j i hl => ?_
  have hcl := h.closed b bb j i hbb hl
  rw [hc] at hcl
  cases i with
  | jmp | condJmp => cases hcl
  | switchCaseJmp s v ts rs => exact absurd ⟨j, s, v, ts, rs, hl⟩ hs
  | _ => rfl

/-! ## The primitives keep it -/

section Views

variable {k : BBlockId}

theorem lastId_eq : B.lastId x = (B.blockInstrs x).getLast? := by
  unfold ProcBuilder.lastId ProcBuilder.blockInstrs
  cases B.bblocks[x]? <;> rfl

theorem preds_push : (B.push b i).preds x = B.preds x := by
  unfold ProcBuilder.preds ProcBuilder.push
  by_cases h : b = x
  · subst h
    cases hb : B.bblocks[b]? <;> simp [hb, BBlock.addInstr]
  · simp [h]

theorem preds_connect_self (h : k < B.bblocks.length) :
    (B.connect p k).preds k = B.preds k ++ [p] := by
  simp [ProcBuilder.preds, ProcBuilder.connect, h]

theorem preds_connect_other (h : x ≠ k) : (B.connect p k).preds x = B.preds x := by
  simp [ProcBuilder.preds, ProcBuilder.connect, Ne.symm h]

theorem preds_alloc : B.alloc.preds x = B.preds x := by
  unfold ProcBuilder.preds ProcBuilder.alloc
  rcases Nat.lt_trichotomy x B.bblocks.length with h | h | h
  · simp [List.getElem?_append_left h]
  · subst h
    simp
  · rw [List.getElem?_eq_none (by simp; omega), List.getElem?_eq_none (by omega)]

/-- The last instruction decides about the successors. -/
theorem succs_congr (h : ∀ j i, B'.lastInstr x = some (j, i) ↔ B.lastInstr x = some (j, i)) :
    B'.succs x = B.succs x := by
  cases hl : B.lastInstr x with
  | some p => rw [succs_of_lastInstr ((h p.1 p.2).mpr hl), succs_of_lastInstr hl]
  | none =>
    have h1 : B.succs x = [] := succs_eq_nil fun j i hl' => by
      rw [hl] at hl'
      cases hl'
    have h2 : B'.succs x = [] := succs_eq_nil fun j i hl' => by
      rw [(h j i).mp hl'] at hl
      cases hl
    rw [h1, h2]

theorem closed_of_some {bb : BBlock} (hbb : B.bblocks[x]? = some bb) :
    bb.closed = false ↔ B.IsOpen x := by
  constructor
  · intro h
    exact ⟨bb, hbb, h⟩
  · rintro ⟨bb', hbb', h⟩
    rw [hbb] at hbb'
    cases hbb'
    exact h

end Views

/-- `i` has been added to `b`, which has joined the predecessors of `ts`. -/
structure Added (B : ProcBuilder) (b : BBlockId) (i : Instr) (ts : List BBlockId)
    (B' : ProcBuilder) : Prop where
  instrs : B'.instrs = B.instrs ++ [i]
  length : B'.bblocks.length = B.bblocks.length
  self : B'.blockInstrs b = B.blockInstrs b ++ [B.instrs.length]
  other : ∀ x, x ≠ b → B'.blockInstrs x = B.blockInstrs x
  count : ∀ x p, (B'.preds x).count p = (B.preds x).count p + if p = b then ts.count x else 0
  start : B'.preds 0 = B.preds 0
  closed : ∀ (x : BBlockId) bb', B'.bblocks[x]? = some bb' →
    (x = b → bb'.closed = i.closes) ∧ (x ≠ b → ∃ bb, B.bblocks[x]? = some bb ∧ bb'.closed = bb.closed)
  targets : ∀ t ∈ ts, t < B.bblocks.length

theorem Added.push (ho : B.IsOpen b) : Added B b i [] (B.push b i) := by
  obtain ⟨bb, hbb, hc⟩ := ho
  have hlt : B.bblocks.length > b := (List.getElem?_eq_some_iff.mp hbb).1
  refine ⟨rfl, by simp, ProcBuilder.blockInstrs_push_self hlt,
    fun x hx => ProcBuilder.blockInstrs_push_other hx, fun x p => ?_, preds_push, fun x bb' hx => ?_,
    by simp⟩
  · rw [preds_push]
    simp
  · unfold ProcBuilder.push at hx
    by_cases e : x = b
    · subst e
      simp only [List.getElem?_modify_eq, hbb, Option.map_eq_map, Option.map_some,
        Option.some.injEq] at hx
      subst hx
      exact ⟨fun _ => rfl, fun h => absurd rfl h⟩
    · simp only [List.getElem?_modify, if_neg (Ne.symm e), Option.map_eq_map, Option.map_id_fun',
        id_eq] at hx
      exact ⟨fun h => absurd h e, fun _ => ⟨bb', hx, rfl⟩⟩

theorem Added.connect {ts : List BBlockId} (h : Added B b i ts B') (ht : t ≠ 0)
    (hlt : t < B.bblocks.length) : Added B b i (ts ++ [t]) (B'.connect b t) := by
  have hlt' : t < B'.bblocks.length := by rw [h.length]; exact hlt
  refine ⟨h.instrs, by rw [ProcBuilder.connect_length, h.length],
    by rw [ProcBuilder.blockInstrs_connect, h.self],
    fun x hx => by rw [ProcBuilder.blockInstrs_connect, h.other x hx], fun x p => ?_,
    (preds_connect_other ht.symm).trans h.start, fun x bb' hx => ?_, fun u hu => ?_⟩
  · by_cases e : x = t
    · subst e
      rw [preds_connect_self hlt', List.count_append, h.count, List.count_append]
      by_cases e' : p = b
      · subst e'
        simp
        omega
      · simp [e', Ne.symm e']
    · rw [preds_connect_other e, h.count, List.count_append]
      have : List.count x [t] = 0 := List.count_eq_zero_of_not_mem (by simpa using e)
      rw [this, Nat.add_zero]
  · unfold ProcBuilder.connect at hx
    simp only [List.getElem?_modify] at hx
    obtain ⟨bb₁, hbb₁, hbb'⟩ := Option.map_eq_some_iff.mp hx
    have hcl : bb'.closed = bb₁.closed := by
      rw [← hbb']
      split <;> rfl
    obtain ⟨h1, h2⟩ := h.closed x bb₁ hbb₁
    exact ⟨fun e => hcl.trans (h1 e), fun e => (h2 e).imp fun bb hbb => ⟨hbb.1, hcl.trans hbb.2⟩⟩
  · rcases List.mem_append.mp hu with hu | hu
    · exact h.targets u hu
    · rw [List.mem_singleton] at hu
      subst hu
      exact hlt

theorem Added.congr {B'' : ProcBuilder} {ts : List BBlockId} (h : Added B b i ts B')
    (hi : B''.instrs = B'.instrs) (hb : B''.bblocks = B'.bblocks) : Added B b i ts B'' := by
  obtain ⟨instrs, bblocks, _, _, _, _, _⟩ := B'
  obtain ⟨instrs', bblocks', _, _, _, _, _⟩ := B''
  cases hi
  cases hb
  exact ⟨h.instrs, h.length, h.self, h.other, h.count, h.start, h.closed, h.targets⟩

section

variable {ts : List BBlockId} (hB : CfgInv B) (hA : Added B b i ts B')
include hA

theorem Added.lastInstr_self : B'.lastInstr b = some (B.instrs.length, i) := by
  rw [lastInstr_lastId, lastId_eq, hA.self, hA.instrs]
  simp

theorem Added.lastId_other (hx : x ≠ b) : B'.lastId x = B.lastId x := by
  rw [lastId_eq, lastId_eq, hA.other x hx]

include hB

theorem Added.lastInstr_other (hx : x ≠ b) (k : InstrId) (i' : Instr) :
    B'.lastInstr x = some (k, i') ↔ B.lastInstr x = some (k, i') := by
  rw [lastInstr_lastId, lastInstr_lastId, hA.lastId_other hx, hA.instrs]
  refine and_congr_right fun hk => ?_
  rw [List.getElem?_append_left (hB.valid x k (mem_blockInstrs_of_lastId hk))]

theorem CfgInv.added (ho : B.succs b = []) (hts : (exitTargets i.exit).filterMap id = ts)
    (hj : ∀ s t, i = .jmp s t → s = b) (hc : ∀ s t f a, i = .condJmp s t f a → s = b)
    (hlast : ∀ k i', B.lastInstr b = some (k, i') → i'.isJump = false) : CfgInv B' := by
  have hsuccs : B'.succs b = exitTargets i.exit := succs_of_lastInstr (hA.lastInstr_self)
  have hother : ∀ {x}, x ≠ b → B'.succs x = B.succs x := fun hx =>
    succs_congr fun k i' => hA.lastInstr_other hB hx k i'
  have hcount : ∀ x : BBlockId, (exitTargets i.exit).count (some x) = ts.count x := by
    intro x
    rw [← hts]
    generalize exitTargets i.exit = l
    induction l with
    | nil => rfl
    | cons y l ih => cases y <;> simp [List.count_cons, ih]
  have hids : ∀ {x k}, k ∈ B'.blockInstrs x → k ∈ B.blockInstrs x ∨ x = b ∧ k = B.instrs.length := by
    intro x k hk
    by_cases e : x = b
    · subst e
      rw [hA.self] at hk
      rcases List.mem_append.mp hk with hk | hk
      · exact .inl hk
      · exact .inr ⟨rfl, List.mem_singleton.mp hk⟩
    · rw [hA.other x e] at hk
      exact .inl hk
  -- an instruction that was there is no jump of `b`
  have hkeep : ∀ {s k i'}, B.lastId s = some k → B.instrs[k]? = some i' → i'.isJump = true →
      B'.lastId s = some k := by
    intro s k i' hs hi hjmp
    by_cases e : s = b
    · subst e
      rw [hlast k i' (lastInstr_lastId.mpr ⟨hs, hi⟩)] at hjmp
      cases hjmp
    · rw [hA.lastId_other e, hs]
  have hnew : ∀ {k i'}, B'.instrs[k]? = some i' → B.instrs[k]? = some i' ∨
      k = B.instrs.length ∧ i' = i := by
    intro k i' hk
    rw [hA.instrs] at hk
    rcases Nat.lt_trichotomy k B.instrs.length with hlt | rfl | hgt
    · rw [List.getElem?_append_left hlt] at hk
      exact .inl hk
    · simp only [List.getElem?_append_right (Nat.le_refl _), Nat.sub_self,
        List.getElem?_cons_zero, Option.some.injEq] at hk
      exact .inr ⟨rfl, hk.symm⟩
    · rw [List.getElem?_eq_none (by simp; omega)] at hk
      cases hk
  have hself : B'.lastId b = some B.instrs.length := (lastInstr_lastId.mp (hA.lastInstr_self)).1
  refine ⟨fun x k hk => ?_, fun x y k hx hy => ?_, fun p u hu => ?_, fun x p => ?_,
    hA.start.trans hB.start, fun x bb k i' hbb hl => ?_, fun k s u hk => ?_, fun k s u f a hk => ?_⟩
  · rw [hA.instrs, List.length_append, List.length_singleton]
    rcases hids hk with hk | ⟨-, rfl⟩
    · exact Nat.lt_succ_of_lt (hB.valid x k hk)
    · exact Nat.lt_succ_self _
  · rcases hids hx with hx | ⟨rfl, hkx⟩ <;> rcases hids hy with hy | ⟨rfl, hky⟩
    · exact hB.own x y k hx hy
    · exact absurd (hB.valid x k hx) (by rw [hky]; exact Nat.lt_irrefl _)
    · exact absurd (hB.valid y k hy) (by rw [hkx]; exact Nat.lt_irrefl _)
    · rfl
  · rw [hA.length]
    by_cases e : p = b
    · subst e
      rw [hsuccs] at hu
      refine hA.targets u ?_
      rw [← hts]
      exact List.mem_filterMap.mpr ⟨some u, hu, rfl⟩
    · rw [hother e] at hu
      exact hB.target p u hu
  · rw [hA.count, hB.count]
    by_cases e : p = b
    · subst e
      rw [if_pos rfl, ho, hsuccs, hcount, List.count_nil, Nat.zero_add]
    · rw [if_neg e, hother e, Nat.add_zero]
  · obtain ⟨h1, h2⟩ := hA.closed x bb hbb
    by_cases e : x = b
    · subst e
      rw [hA.lastInstr_self] at hl
      cases hl
      exact h1 rfl
    · obtain ⟨bb₀, hbb₀, hcl⟩ := h2 e
      rw [hcl]
      exact hB.closed x bb₀ k i' hbb₀ ((hA.lastInstr_other hB e k i').mp hl)
  · rcases hnew hk with hk' | ⟨rfl, rfl⟩
    · exact hkeep (hB.jmp k s u hk') hk' rfl
    · rw [hj s u rfl, hself]
  · rcases hnew hk with hk' | ⟨rfl, rfl⟩
    · exact hkeep (hB.condJmp k s u f a hk') hk' rfl
    · rw [hc s u f a rfl, hself]

end

theorem CfgInv.lastInstr_open (h : CfgInv B) (ho : B.IsOpen b) (hs : ¬ B.EndsInSwitch b)
    {k : InstrId} {i : Instr} (hl : B.lastInstr b = some (k, i)) : i.isJump = false := by
  obtain ⟨bb, hbb, hc⟩ := ho
  have hcl := h.closed b bb k i hbb hl
  rw [hc] at hcl
  cases i with
  | jmp | condJmp => cases hcl
  | switchCaseJmp s v ts rs => exact absurd ⟨k, s, v, ts, rs, hl⟩ hs
  | _ => rfl

theorem addInstr_inv {u : InstrId} (h : addInstr b i B = some (u, B')) :
    B.IsOpen b ∧ B' = B.push b i := by
  have ho : B.IsOpen b := by
    unfold addInstr at h
    cases hbb : B.bblocks[b]? with
    | none => simp [hbb] at h
    | some bb =>
      refine ⟨bb, hbb, ?_⟩
      cases hc : bb.closed with
      | false => rfl
      | true => simp [hbb, hc] at h
  rw [addInstr_eq ho] at h
  cases h
  exact ⟨ho, rfl⟩

theorem connectBBlocks_inv {u : Unit} (h : connectBBlocks b t B = some (u, B')) :
    t < B.bblocks.length ∧ B' = B.connect b t := by
  have hlt : t < B.bblocks.length := by
    unfold connectBBlocks at h
    split at h
    · exact (List.getElem?_eq_some_iff.mp ‹_›).1
    · cases h
  rw [connectBBlocks_eq hlt] at h
  cases h
  exact ⟨hlt, rfl⟩

theorem notePatched_inv {u : Unit} (h : notePatched j B = some (u, B')) :
    B'.instrs = B.instrs ∧ B'.bblocks = B.bblocks := by
  cases h
  exact ⟨rfl, rfl⟩

theorem emitInstrJmp_added {target : Option BBlockId} (ht : target ≠ some 0)
    (h : emitInstrJmp b target B = some (j, B')) :
    B.IsOpen b ∧ Added B b (.jmp b target) target.toList B' := by
  unfold emitInstrJmp at h
  obtain ⟨_, B₁, h₁, h₂⟩ := bind_eq_some h
  obtain ⟨ho, rfl⟩ := addInstr_inv h₁
  have hA := Added.push (i := .jmp b target) ho
  refine ⟨ho, ?_⟩
  cases target with
  | none =>
    cases h₂
    exact hA
  | some t =>
    obtain ⟨_, B₂, h₃, h₄⟩ := bind_eq_some h₂
    obtain ⟨hi, hb⟩ := notePatched_inv h₃
    obtain ⟨_, B₃, h₅, h₆⟩ := bind_eq_some h₄
    obtain ⟨hlt, rfl⟩ := connectBBlocks_inv h₅
    cases h₆
    refine (hA.congr hi hb).connect (fun e => ht (congrArg some e)) ?_
    rwa [hb, ProcBuilder.push_length] at hlt

theorem emitInstrCondJmp_added {trueBb : Option BBlockId} {f : BBlockId} {a : Reg}
    (ht : trueBb ≠ some 0) (hf : f ≠ 0) (h : emitInstrCondJmp b trueBb f a B = some (j, B')) :
    B.IsOpen b ∧ Added B b (.condJmp b trueBb f a) (trueBb.toList ++ [f]) B' := by
  unfold emitInstrCondJmp at h
  obtain ⟨_, B₁, h₁, h₂⟩ := bind_eq_some h
  obtain ⟨ho, rfl⟩ := addInstr_inv h₁
  have hA := Added.push (i := .condJmp b trueBb f a) ho
  refine ⟨ho, ?_⟩
  cases trueBb with
  | none =>
    obtain ⟨_, B₂, h₃, h₄⟩ := bind_eq_some h₂
    obtain ⟨hlt, rfl⟩ := connectBBlocks_inv h₃
    cases h₄
    exact hA.connect hf (by simpa using hlt)
  | some t =>
    obtain ⟨_, B₂, h₃, h₄⟩ := bind_eq_some h₂
    obtain ⟨hi, hb⟩ := notePatched_inv h₃
    obtain ⟨_, B₃, h₅, h₆⟩ := bind_eq_some h₄
    obtain ⟨hlt, rfl⟩ := connectBBlocks_inv h₅
    obtain ⟨_, B₄, h₇, h₈⟩ := bind_eq_some h₆
    obtain ⟨hlt', rfl⟩ := connectBBlocks_inv h₇
    cases h₈
    refine ((hA.congr hi hb).connect (fun e => ht (congrArg some e)) ?_).connect hf ?_
    · rwa [hb, ProcBuilder.push_length] at hlt
    · rwa [ProcBuilder.connect_length, hb, ProcBuilder.push_length] at hlt'

theorem connectTargets_added {ts us : List BBlockId} {u : Unit} {B₁ : ProcBuilder}
    (h : Added B b i us B₁) (ht : ∀ t ∈ ts, t ≠ 0) (hrun : connectTargets b ts B₁ = some (u, B')) :
    Added B b i (us ++ ts) B' := by
  induction ts generalizing us B₁ with
  | nil =>
    cases hrun
    rw [List.append_nil]
    exact h
  | cons t ts ih =>
    obtain ⟨_, B₂, h₁, h₂⟩ := bind_eq_some hrun
    obtain ⟨hlt, rfl⟩ := connectBBlocks_inv h₁
    rw [List.append_cons]
    refine ih (h.connect (ht t List.mem_cons_self) ?_) (fun t ht' => ht t (List.mem_cons_of_mem _ ht')) h₂
    rw [← h.length]
    exact hlt

theorem CfgInv.startProc : CfgInv startProc := by
  have hblock : ∀ {x : BBlockId} {bb}, Nibble.IR.startProc.bblocks[x]? = some bb →
      x = 0 ∧ bb = ⟨[], [], false, false⟩ := by
    intro x bb h
    match x with
    | 0 =>
      cases h
      exact ⟨rfl, rfl⟩
    | x + 1 => cases h
  have hids : ∀ x, Nibble.IR.startProc.blockInstrs x = [] := by
    intro x
    match x with
    | 0 => rfl
    | x + 1 => rfl
  have hsuccs : ∀ x, Nibble.IR.startProc.succs x = [] := by
    intro x
    refine succs_eq_nil fun j i hl => ?_
    obtain ⟨bb, hbb, hj, -⟩ := lastInstr_eq_some.mp hl
    obtain ⟨-, rfl⟩ := hblock hbb
    cases hj
  have hpreds : ∀ x, Nibble.IR.startProc.preds x = [] := by
    intro x
    match x with
    | 0 => rfl
    | x + 1 => rfl
  refine ⟨fun x j hj => ?_, fun x y j hj => ?_, fun p t ht => ?_, fun x p => ?_, rfl,
    fun x bb j i hbb hl => ?_, fun j s t h => (by cases h), fun j s t f a h => (by cases h)⟩
  · rw [hids] at hj
    cases hj
  · rw [hids] at hj
    cases hj
  · rw [hsuccs] at ht
    cases ht
  · rw [hsuccs, hpreds]
    rfl
  · obtain ⟨bb', hbb', hj, -⟩ := lastInstr_eq_some.mp hl
    obtain ⟨-, rfl⟩ := hblock hbb'
    cases hj

theorem CfgInv.alloc (h : CfgInv B) : CfgInv B.alloc := by
  have hlastId : ∀ x, B.alloc.lastId x = B.lastId x := fun x => by
    rw [lastId_eq, lastId_eq, ProcBuilder.blockInstrs_alloc]
  have hlast : ∀ x k i, B.alloc.lastInstr x = some (k, i) ↔ B.lastInstr x = some (k, i) := by
    intro x k i
    rw [lastInstr_lastId, lastInstr_lastId, hlastId]
    rfl
  have hsuccs : ∀ x, B.alloc.succs x = B.succs x := fun x => succs_congr (hlast x)
  refine ⟨fun x k hk => ?_, fun x y k hx hy => ?_, fun p t ht => ?_, fun x p => ?_,
    preds_alloc.trans h.start, fun x bb k i hbb hl => ?_, fun k s t hk => ?_, fun k s t f a hk => ?_⟩
  · rw [ProcBuilder.blockInstrs_alloc] at hk
    exact h.valid x k hk
  · rw [ProcBuilder.blockInstrs_alloc] at hx hy
    exact h.own x y k hx hy
  · rw [hsuccs] at ht
    rw [ProcBuilder.alloc_length]
    exact Nat.lt_succ_of_lt (h.target p t ht)
  · rw [preds_alloc, hsuccs]
    exact h.count x p
  · have hl := (hlast x k i).mp hl
    obtain ⟨bb₀, hbb₀, -⟩ := lastInstr_eq_some.mp hl
    have hx : x < B.bblocks.length := (List.getElem?_eq_some_iff.mp hbb₀).1
    unfold ProcBuilder.alloc at hbb
    rw [List.getElem?_append_left hx] at hbb
    exact h.closed x bb k i hbb hl
  · rw [hlastId]
    exact h.jmp k s t hk
  · rw [hlastId]
    exact h.condJmp k s t f a hk

/-- A jump without a target receives one. -/
theorem CfgInv.setTarget {i' : Instr} {u : List (Option BBlockId)} (h : CfgInv B) (ht : t ≠ 0)
    (hlt : t < B.bblocks.length) (hs : B.lastId s = some j) (hi : B.instrs[j]? = some i)
    (hu : exitTargets i.exit = none :: u) (hu' : exitTargets i'.exit = some t :: u)
    (hcl : i'.closes = i.closes)
    (hsrc : (∃ t, i' = .jmp s t) ∨ ∃ t f a, i' = .condJmp s t f a) :
    CfgInv (B.setTarget j i' s t) := by
  have hj : j < B.instrs.length := (List.getElem?_eq_some_iff.mp hi).1
  have hlastId : ∀ x, (B.setTarget j i' s t).lastId x = B.lastId x := fun x => by
    rw [lastId_eq, lastId_eq, ProcBuilder.blockInstrs_setTarget]
  have hself : (B.setTarget j i' s t).lastInstr s = some (j, i') := by
    rw [lastInstr_lastId, hlastId]
    exact ⟨hs, by simp [hj]⟩
  have hother : ∀ x, x ≠ s → ∀ k i₀,
      (B.setTarget j i' s t).lastInstr x = some (k, i₀) ↔ B.lastInstr x = some (k, i₀) := by
    intro x hx k i₀
    rw [lastInstr_lastId, lastInstr_lastId, hlastId]
    refine and_congr_right fun hk => ?_
    have hne : j ≠ k := by
      rintro rfl
      exact hx (h.own x s j (mem_blockInstrs_of_lastId hk) (mem_blockInstrs_of_lastId hs))
    rw [ProcBuilder.setTarget_instrs, List.getElem?_set_ne hne]
  have hsuccs : (B.setTarget j i' s t).succs s = some t :: u := by
    rw [succs_of_lastInstr hself, hu']
  have hsuccs₀ : B.succs s = none :: u := by
    rw [succs_of_lastInstr (lastInstr_lastId.mpr ⟨hs, hi⟩), hu]
  have hsuccs' : ∀ x, x ≠ s → (B.setTarget j i' s t).succs x = B.succs x := fun x hx =>
    succs_congr (hother x hx)
  have hpreds : ∀ x, x ≠ t → (B.setTarget j i' s t).preds x = B.preds x := fun x hx =>
    preds_connect_other hx
  have hpredsTarget : (B.setTarget j i' s t).preds t = B.preds t ++ [s] := preds_connect_self hlt
  refine ⟨fun x k hk => ?_, fun x y k hx hy => ?_, fun p w hw => ?_, fun x p => ?_,
    (hpreds 0 ht.symm).trans h.start, fun x bb k i₀ hbb hl => ?_, fun k s' w hk => ?_,
    fun k s' w f a hk => ?_⟩
  · rw [ProcBuilder.blockInstrs_setTarget] at hk
    rw [ProcBuilder.setTarget_instrs, List.length_set]
    exact h.valid x k hk
  · rw [ProcBuilder.blockInstrs_setTarget] at hx hy
    exact h.own x y k hx hy
  · rw [ProcBuilder.setTarget_length]
    by_cases e : p = s
    · subst e
      rw [hsuccs] at hw
      rcases List.mem_cons.mp hw with hw | hw
      · cases hw
        exact hlt
      · exact h.target p w (by rw [hsuccs₀]; exact List.mem_cons_of_mem _ hw)
    · rw [hsuccs' p e] at hw
      exact h.target p w hw
  · have hold := h.count x p
    by_cases e : p = s
    · subst e
      rw [hsuccs₀, List.count_cons] at hold
      rw [hsuccs, List.count_cons]
      by_cases e' : x = t
      · subst e'
        rw [hpredsTarget, List.count_append, hold]
        simp
      · rw [hpreds x e', hold]
        simp [Ne.symm e']
    · rw [hsuccs' p e]
      by_cases e' : x = t
      · subst e'
        rw [hpredsTarget, List.count_append, hold]
        simp [Ne.symm e]
      · rw [hpreds x e', hold]
  · have hopen : ∀ {bb₀ : BBlock}, B.bblocks[x]? = some bb₀ → bb.closed = bb₀.closed := by
      intro bb₀ hbb₀
      unfold ProcBuilder.setTarget ProcBuilder.connect at hbb
      simp only [List.getElem?_modify] at hbb
      rw [hbb₀] at hbb
      cases hbb
      split <;> rfl
    by_cases e : x = s
    · subst e
      rw [hself] at hl
      cases hl
      have hl₀ : B.lastInstr x = some (j, i) := lastInstr_lastId.mpr ⟨hs, hi⟩
      obtain ⟨bb₀, hbb₀, -⟩ := lastInstr_eq_some.mp hl₀
      rw [hopen hbb₀, hcl]
      exact h.closed x bb₀ j i hbb₀ hl₀
    · have hl₀ := (hother x e k i₀).mp hl
      obtain ⟨bb₀, hbb₀, -⟩ := lastInstr_eq_some.mp hl₀
      rw [hopen hbb₀]
      exact h.closed x bb₀ k i₀ hbb₀ hl₀
  · rw [hlastId]
    by_cases e : j = k
    · subst e
      rw [ProcBuilder.setTarget_instrs, List.getElem?_set_self hj] at hk
      cases hk
      rcases hsrc with ⟨_, e⟩ | ⟨_, _, _, e⟩ <;> cases e
      exact hs
    · rw [ProcBuilder.setTarget_instrs, List.getElem?_set_ne e] at hk
      exact h.jmp k s' w hk
  · rw [hlastId]
    by_cases e : j = k
    · subst e
      rw [ProcBuilder.setTarget_instrs, List.getElem?_set_self hj] at hk
      cases hk
      rcases hsrc with ⟨_, e⟩ | ⟨_, _, _, e⟩ <;> cases e
      exact hs
    · rw [ProcBuilder.setTarget_instrs, List.getElem?_set_ne e] at hk
      exact h.condJmp k s' w f a hk

theorem SameFlow.blockInstrs (h : SameFlow B B') (x : BBlockId) :
    B'.blockInstrs x = B.blockInstrs x := by
  have hx := h.block x
  unfold ProcBuilder.blockInstrs
  cases hb : B.bblocks[x]? <;> cases hb' : B'.bblocks[x]? <;> simp_all

theorem SameFlow.preds (h : SameFlow B B') (x : BBlockId) : B'.preds x = B.preds x := by
  have hx := h.block x
  unfold ProcBuilder.preds
  cases hb : B.bblocks[x]? <;> cases hb' : B'.bblocks[x]? <;> simp_all

theorem SameFlow.instr_back (h : SameFlow B B') {k : InstrId} {i' : Instr}
    (hk : B'.instrs[k]? = some i') : B.instrs[k]? = some i' ∨
      i'.isControl = false ∧ ∃ i, B.instrs[k]? = some i ∧ i.isControl = false := by
  have hlt : k < B.instrs.length := by
    rw [← h.length]
    exact (List.getElem?_eq_some_iff.mp hk).1
  have hold := List.getElem?_eq_getElem hlt
  rcases h.instr k _ hold with hsame | ⟨hc, i₁, hi₁, hc₁⟩
  · rw [hk] at hsame
    exact .inl (hold.trans hsame.symm)
  · rw [hk] at hi₁
    cases hi₁
    exact .inr ⟨hc₁, _, hold, hc⟩

theorem exitTargets_of_not_control {i : Instr} (h : i.isControl = false) :
    exitTargets i.exit = [] ∧ i.closes = false := by
  cases i <;> first | exact ⟨rfl, rfl⟩ | cases h

theorem SameFlow.cfgInv (h : SameFlow B B') (hB : CfgInv B) : CfgInv B' := by
  have hlastId : ∀ x, B'.lastId x = B.lastId x := fun x => by
    rw [lastId_eq, lastId_eq, h.blockInstrs]
  have hsuccs : ∀ x, B'.succs x = B.succs x := by
    intro x
    cases hl : B'.lastInstr x with
    | none =>
      have hnil : B'.succs x = [] := succs_eq_nil fun j i hl' => by
        rw [hl] at hl'
        cases hl'
      have hnil₀ : B.succs x = [] := succs_eq_nil fun j i hl' => by
        obtain ⟨h1, h2⟩ := lastInstr_lastId.mp hl'
        rcases h.instr j i h2 with h3 | ⟨-, i', h3, -⟩
        all_goals
          have := lastInstr_lastId.mpr ⟨(hlastId x).trans h1, h3⟩
          rw [hl] at this
          cases this
      rw [hnil, hnil₀]
    | some q =>
      obtain ⟨j, i'⟩ := q
      obtain ⟨h1, h2⟩ := lastInstr_lastId.mp hl
      rw [hlastId] at h1
      rw [succs_of_lastInstr hl]
      rcases h.instr_back h2 with h3 | ⟨hc, i, h3, hc'⟩
      · rw [succs_of_lastInstr (lastInstr_lastId.mpr ⟨h1, h3⟩)]
      · rw [succs_of_lastInstr (lastInstr_lastId.mpr ⟨h1, h3⟩), (exitTargets_of_not_control hc).1,
          (exitTargets_of_not_control hc').1]
  have hlen : ∀ x : BBlockId, x < B.bblocks.length → x < B'.bblocks.length := by
    intro x hx
    have := h.block x
    rw [List.getElem?_eq_getElem hx, Option.map_some] at this
    obtain ⟨bb, hbb, -⟩ := Option.map_eq_some_iff.mp this
    exact (List.getElem?_eq_some_iff.mp hbb).1
  refine ⟨fun x k hk => ?_, fun x y k hx hy => ?_, fun p t ht => ?_, fun x p => ?_,
    (h.preds 0).trans hB.start, fun x bb k i hbb hl => ?_, fun k s t hk => ?_, fun k s t f a hk => ?_⟩
  · rw [h.blockInstrs] at hk
    rw [h.length]
    exact hB.valid x k hk
  · rw [h.blockInstrs] at hx hy
    exact hB.own x y k hx hy
  · rw [hsuccs] at ht
    exact hlen t (hB.target p t ht)
  · rw [h.preds, hsuccs]
    exact hB.count x p
  · have hx := h.block x
    rw [hbb, Option.map_some] at hx
    obtain ⟨bb₀, hbb₀, he⟩ := Option.map_eq_some_iff.mp hx.symm
    have hcl : bb₀.closed = bb.closed := congrArg (fun q => q.2.2) he
    obtain ⟨h1, h2⟩ := lastInstr_lastId.mp hl
    rw [hlastId] at h1
    rw [← hcl]
    rcases h.instr_back h2 with h3 | ⟨hc, i₀, h3, hc'⟩
    · exact hB.closed x bb₀ k i hbb₀ (lastInstr_lastId.mpr ⟨h1, h3⟩)
    · rw [hB.closed x bb₀ k i₀ hbb₀ (lastInstr_lastId.mpr ⟨h1, h3⟩),
        (exitTargets_of_not_control hc).2, (exitTargets_of_not_control hc').2]
  · rw [hlastId]
    rcases h.instr_back hk with h3 | ⟨hc, -⟩
    · exact hB.jmp k s t h3
    · cases hc
  · rw [hlastId]
    rcases h.instr_back hk with h3 | ⟨hc, -⟩
    · exact hB.condJmp k s t f a h3
    · cases hc

theorem patchJmpTarget_inv (hB : CfgInv B)
    (hj : (∃ s, B.instrs[j]? = some (.jmp s none)) ∨ ∃ s f a, B.instrs[j]? = some (.condJmp s none f a))
    (ht : t ≠ 0) (h : patchJmpTarget j t B = some ((), B')) : CfgInv B' := by
  have hlen : t < B.bblocks.length := by
    unfold patchJmpTarget at h
    obtain ⟨_, _, h₁, h₂⟩ := bind_eq_some h
    cases h₁
    rcases hj with ⟨s, hj⟩ | ⟨s, f, a, hj⟩
    all_goals
      rw [hj] at h₂
      obtain ⟨_, B₁, h₃, h₄⟩ := bind_eq_some h₂
      obtain ⟨_, B₂, h₅, h₆⟩ := bind_eq_some h₄
      cases h₃
      cases h₅
      exact (connectBBlocks_inv h₆).1
  rcases hj with ⟨s, hj⟩ | ⟨s, f, a, hj⟩
  · have hrun : patchJmpTarget j t B = some ((), B.setTarget j (.jmp s (some t)) s t) := by
      simp only [patchJmpTarget, bind, StateT.bind, get, getThe, MonadStateOf.get, StateT.get, pure,
        Option.bind, hj, setInstr, notePatched]
      rw [connectBBlocks_eq (by simpa using hlen)]
      rfl
    rw [hrun] at h
    cases h
    exact hB.setTarget (u := []) ht hlen (hB.jmp j s none hj) hj rfl rfl rfl (.inl ⟨_, rfl⟩)
  · rw [patchJmpTarget_condJmp hj hlen] at h
    cases h
    exact hB.setTarget (u := [some f]) ht hlen (hB.condJmp j s none f a hj) hj rfl rfl rfl
      (.inr ⟨_, _, _, rfl⟩)

/-- The primitives of emission keep the predecessor lists right. -/
theorem Produced.cfgInv (h : Produced B) : CfgInv B := by
  induction h with
  | start => exact CfgInv.startProc
  | alloc _ hrun ih =>
    cases hrun
    exact ih.alloc
  | @instr B B' b i j _ hi hs hrun ih =>
    obtain ⟨ho, rfl⟩ := addInstr_inv hrun
    refine ih.added (Added.push ho) (ih.succs_open ho hs) ?_ ?_ ?_ fun k i' => ih.lastInstr_open ho hs
    · cases i <;> first | rfl | cases hi
    · rintro s t rfl
      cases hi
    · rintro s t f a rfl
      cases hi
  | @jmp B B' b target j _ ht hs hrun ih =>
    obtain ⟨ho, hA⟩ := emitInstrJmp_added ht hrun
    refine ih.added hA (ih.succs_open ho hs) ?_ ?_ ?_ fun k i' => ih.lastInstr_open ho hs
    · cases target <;> rfl
    · rintro s t e
      cases e
      rfl
    · rintro s t f a e
      cases e
  | @condJmp B B' b falseBb trueBb a j _ ht hf hs hrun ih =>
    obtain ⟨ho, hA⟩ := emitInstrCondJmp_added ht hf hrun
    refine ih.added hA (ih.succs_open ho hs) ?_ ?_ ?_ fun k i' => ih.lastInstr_open ho hs
    · cases trueBb <;> rfl
    · rintro s t e
      cases e
    · rintro s t f a e
      cases e
      rfl
  | @switchCaseJmp B B' b val targets caseRanges j _ ht hs hrun ih =>
    unfold emitInstrSwitchCaseJmp at hrun
    obtain ⟨_, B₁, h₁, h₂⟩ := bind_eq_some hrun
    obtain ⟨_, B₂, h₃, h₄⟩ := bind_eq_some h₂
    cases h₄
    obtain ⟨ho, rfl⟩ := addInstr_inv h₁
    have hA := connectTargets_added (Added.push ho) ht h₃
    refine ih.added hA (ih.succs_open ho hs) ?_ ?_ ?_ fun k i' => ih.lastInstr_open ho hs
    · show (targets.map some).filterMap id = [] ++ targets
      simp
    · rintro s t e
      cases e
    · rintro s t f a e
      cases e
  | patch _ hj ht hrun ih => exact patchJmpTarget_inv ih hj ht hrun
  | same _ hs ih => exact hs.cfgInv ih

theorem CfgInv.preds (h : CfgInv B) : B.Preds B.allBBlocks := by
  have hmem : ∀ {x : BBlockId}, x ∈ B.allBBlocks ↔ x < B.bblocks.length := List.mem_range
  refine ⟨List.nodup_range, fun x hx => ?_, fun p _ q _ j i i' hp hq => ?_, fun p _ t ht => ?_,
    fun x _ p hp => ?_, fun x _ p _ => h.count x p⟩
  · have hbb := List.getElem?_eq_getElem (hmem.mp hx)
    refine ⟨_, hbb, fun j hj => ?_⟩
    have hlt := h.valid x j (by unfold ProcBuilder.blockInstrs; rw [hbb]; exact hj)
    exact ⟨_, List.getElem?_eq_getElem hlt⟩
  · exact h.own p q j (mem_blockInstrs_of_lastId (lastInstr_lastId.mp hp).1)
      (mem_blockInstrs_of_lastId (lastInstr_lastId.mp hq).1)
  · exact ⟨_, List.getElem?_eq_getElem (h.target p t ht)⟩
  · have hcount := List.count_pos_iff.mpr hp
    rw [h.count, List.count_pos_iff] at hcount
    obtain ⟨j, i, hl⟩ := lastInstr_of_mem_succs hcount
    obtain ⟨bb, hbb, -⟩ := lastInstr_eq_some.mp hl
    exact hmem.mpr (List.getElem?_eq_some_iff.mp hbb).1

/-! ## Dead block removal on the graphs of procedures -/

/-- Dead block removal, sorting and renumbering keep every path of a procedure exactly when every
removable block has a target and no switch before it, and no silent loop of removable blocks can
be reached. -/
theorem finishProc_correct_iff (h : Produced B) :
    FinishCorrect B ↔ (∀ b, B.Removable b → B.Ready b) ∧ ¬ Spins B B.allBBlocks 0 :=
  finishCorrect_iff h.cfgInv.preds h.cfgInv.start

theorem not_endsInSwitch (h : ∀ q ∈ B.lastInstr b, q.2.isJump = false) : ¬ B.EndsInSwitch b := by
  rintro ⟨j, s, v, ts, rs, hl⟩
  cases h _ hl

/-- `if (c) { ... } else { }`: the block of the empty branch only jumps. -/
def emptyElse : ProcBuilder where
  instrs := [.lImm (.integer .s32) 0 1, .condJmp 0 (some 2) 3 0, .lImm (.integer .s32) 1 1, .jmp 3 (some 1),
    .jmp 2 (some 1), .ret ⟨.void, .none⟩]
  bblocks := [⟨[0, 1], [], true, false⟩, ⟨[5], [3, 2], true, false⟩, ⟨[4], [0], true, false⟩,
    ⟨[2, 3], [0], true, false⟩]
  memObjs := []
  numRegs := 0
  scJmps := []
  scJmpFreelist := none
  patched := [1, 3, 4]

theorem produced_emptyElse : Produced emptyElse := by
  have h₀ : Produced (startProc.alloc.alloc.alloc) := .alloc (.alloc (.alloc .start rfl) rfl) rfl
  have h₁ := h₀.instr rfl (not_endsInSwitch (by decide))
    (rfl : addInstr 0 (.lImm (.integer .s32) 0 1) _ = some (_, _))
  have h₂ := h₁.condJmp (by decide) (by decide) (not_endsInSwitch (by decide))
    (rfl : emitInstrCondJmp 0 (some 2) 3 0 _ = some (_, _))
  have h₃ := h₂.instr rfl (not_endsInSwitch (by decide))
    (rfl : addInstr 3 (.lImm (.integer .s32) 1 1) _ = some (_, _))
  have h₄ := h₃.jmp (by decide) (not_endsInSwitch (by decide))
    (rfl : emitInstrJmp 3 (some 1) _ = some (_, _))
  have h₅ := h₄.jmp (by decide) (not_endsInSwitch (by decide))
    (rfl : emitInstrJmp 2 (some 1) _ = some (_, _))
  exact h₅.instr rfl (not_endsInSwitch (by decide))
    (rfl : addInstr 1 (.ret ⟨.void, .none⟩) _ = some (_, emptyElse))

theorem onlyJumps_emptyElse {u : Option BBlockId} (h : emptyElse.OnlyJumps b u) :
    b = 2 ∧ u = some 1 := by
  obtain ⟨bb, j, s, h1, h2, h3⟩ := h
  match b with
  | 0 | 3 =>
    cases h1
    cases h2
  | 1 =>
    cases h1
    cases h2
    cases h3
  | 2 =>
    cases h1
    cases h2
    cases h3
    exact ⟨rfl, rfl⟩
  | b + 4 => cases h1

/-- The block of the empty branch is removed, and the paths stay. -/
theorem finishCorrect_emptyElse : FinishCorrect emptyElse := by
  refine (finishProc_correct_iff produced_emptyElse).mpr ⟨fun b hr => ?_, ?_⟩
  · obtain ⟨u, hu⟩ := hr.jumps
    obtain ⟨rfl, rfl⟩ := onlyJumps_emptyElse hu
    refine ⟨⟨1, hu⟩, fun p hp => ?_⟩
    obtain rfl : p = 0 := List.mem_singleton.mp hp
    rintro ⟨j, s, v, ts, rs, hl⟩
    cases hl
  · rintro ⟨S, hS, hSr, c, -, -, hc, -⟩
    have hnext : ∀ {x}, S x → S 1 := by
      intro x hx
      obtain ⟨t, ht, hSt⟩ := hS x hx
      obtain ⟨u, hu⟩ := (hSr x hx).2.jumps
      obtain ⟨rfl, rfl⟩ := onlyJumps_emptyElse hu
      cases ht
      exact hSt
    obtain ⟨u, hu⟩ := (hSr 1 (hnext hc)).2.jumps
    obtain ⟨h1, -⟩ := onlyJumps_emptyElse hu
    cases h1

/-- `while (true) { }`: the header jumps to itself. -/
def emptyLoop : ProcBuilder where
  instrs := [.jmp 0 (some 1), .jmp 1 (some 1), .ret ⟨.void, .none⟩]
  bblocks := [⟨[0], [], true, false⟩, ⟨[1], [0, 1], true, false⟩, ⟨[2], [], true, false⟩]
  memObjs := []
  numRegs := 0
  scJmps := []
  scJmpFreelist := none
  patched := [0, 1]

theorem produced_emptyLoop : Produced emptyLoop := by
  have h₀ : Produced (startProc.alloc.alloc) := .alloc (.alloc .start rfl) rfl
  have h₁ := h₀.jmp (by decide) (not_endsInSwitch (by decide))
    (rfl : emitInstrJmp 0 (some 1) _ = some (_, _))
  have h₂ := h₁.jmp (by decide) (not_endsInSwitch (by decide))
    (rfl : emitInstrJmp 1 (some 1) _ = some (_, _))
  exact h₂.instr rfl (not_endsInSwitch (by decide))
    (rfl : addInstr 2 (.ret ⟨.void, .none⟩) _ = some (_, emptyLoop))

/-- `switch (x) { case 0: { } default: { } }`: the block of a case only jumps. -/
def emptyCase : ProcBuilder where
  instrs := [.switchCaseJmp 0 (.imm 0) [1, 2] [⟨0, 0⟩], .jmp 1 (some 2), .ret ⟨.void, .none⟩]
  bblocks := [⟨[0], [], false, false⟩, ⟨[1], [0], true, false⟩, ⟨[2], [0, 1], true, false⟩]
  memObjs := []
  numRegs := 0
  scJmps := []
  scJmpFreelist := none
  patched := [1]

theorem produced_emptyCase : Produced emptyCase := by
  have h₀ : Produced (startProc.alloc.alloc) := .alloc (.alloc .start rfl) rfl
  have h₁ := h₀.switchCaseJmp (by decide) (not_endsInSwitch (by decide))
    (rfl : emitInstrSwitchCaseJmp 0 (.imm 0) [1, 2] [⟨0, 0⟩] _ = some (_, _))
  have h₂ := h₁.jmp (by decide) (not_endsInSwitch (by decide))
    (rfl : emitInstrJmp 1 (some 2) _ = some (_, _))
  exact h₂.instr rfl (not_endsInSwitch (by decide))
    (rfl : addInstr 2 (.ret ⟨.void, .none⟩) _ = some (_, emptyCase))

/-- The header of an empty infinite loop is removed while the procedure still jumps to it; the
block of an empty case fails an assertion. -/
theorem finishProc_breaks :
    (Produced emptyLoop ∧ (∃ B', finishProc emptyLoop = some ([0, 2], B') ∧
      B'.lastInstr 0 = some (0, .jmp 0 (some 1))) ∧ ¬ FinishCorrect emptyLoop) ∧
    Produced emptyCase ∧ finishProc emptyCase = none ∧ ¬ FinishCorrect emptyCase := by
  refine ⟨⟨produced_emptyLoop, ⟨_, rfl, rfl⟩, fun h => ?_⟩, produced_emptyCase, rfl, fun h => ?_⟩
  · have hinv := produced_emptyLoop.cfgInv
    refine ((finishCorrect_iff hinv.preds hinv.start).mp h).2 ⟨fun x => x = 1, ?_, ?_, 1, [], [], rfl, ?_⟩
    · rintro x rfl
      exact ⟨1, rfl, rfl⟩
    · rintro x rfl
      refine ⟨by decide, ⟨some 1, _, 1, 1, rfl, rfl, rfl⟩, by decide, fun p hp => ?_⟩
      rintro ⟨j, s, t, a, hl⟩
      rcases List.mem_cons.mp hp with rfl | hp
      · cases hl
      · obtain rfl : p = 1 := List.mem_singleton.mp hp
        cases hl
    · have hstep : Reach (emptyLoop.graph emptyLoop.allBBlocks) (some 0) [] ([] ++ []) (some 1) :=
        .jump rfl (.refl _)
      exact hstep
  · obtain ⟨arr, B', hrun, -⟩ := h
    cases hrun

end Nibble.IR
