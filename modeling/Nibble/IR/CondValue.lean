import Nibble.IR.CondExact

/-!
# Conditions as values

`IR_execute_deferred_cmp` turns a deferred comparison into a register: the
pending jumps go to a block that loads one or to a block that loads zero, and
a `phi` joins them. Without any jump the register of the comparison is taken
as it is.
-/

namespace Nibble.IR

open Nibble.Lib

variable {B B' B'' : ProcBuilder} {b b' b'' : Nat} {env : Env} {σ : MState} {er : ExprResult}
  {sem : Env → Store → Store × Bool} {P P' : Pending} {M : Nat → Prop} {d : DeferredJmpcc}
  {Al Al' : ProcBuilder → Bool → Exit → Prop} {F F' ids : List Nat}

/-! ## Going on elsewhere -/

/-- More code that creates no conditional jump. Emission goes on in `b''`, which was created since
`B`. -/
theorem Code.extend {O : Nat → Prop} (h : Code b B b' B' O) (he : Emits b' B' B'')
    (ho : B''.IsOpen b'') (hf : b'' = b ∨ b'' ≥ B.bblocks.length)
    (hp : ∃ l : List Nat, B''.patched = B'.patched ++ l ∧
      ∀ j ∈ l, B'.instrs.length ≤ j ∧ j < B''.instrs.length)
    (hplain : ∀ (j : Nat) s t f a, B'.instrs.length ≤ j → B''.instrs[j]? ≠ some (.condJmp s t f a)) :
    Code b B b'' B'' O := by
  have hlen := h.emits.instrs.length_le
  have hlen' := he.instrs.length_le
  obtain ⟨l, hl, hlr, hc⟩ := h.patches
  obtain ⟨l', hl', hlr'⟩ := hp
  refine ⟨h.emits.trans he h.fresh, ho, hf, fun j hj => ?_, l ++ l',
    by rw [hl', hl, List.append_assoc], fun j hj => ?_, fun j s t f a hj hx => ?_⟩
  · have := h.range j hj
    omega
  · rcases List.mem_append.mp hj with hj | hj
    · have := hlr j hj
      omega
    · have := hlr' j hj
      omega
  · have hlt : j < B'.instrs.length := by
      by_contra hge
      exact hplain j s t f a (by omega) hx
    have hx' := he.getElem? (List.getElem?_eq_getElem hlt)
    rw [hx] at hx'
    have hcount : l'.count j = 0 := List.count_eq_zero.mpr fun hm => by
      have := hlr' j hm
      omega
    rw [List.count_append, hcount]
    exact hc j s t f a hj (by rw [List.getElem?_eq_getElem hlt, ← hx'])

/-- The exits of a condition, taken further by more code. -/
theorem CondSpec.extend (h : CondSpec sem b B b' B' P M Al) (he : Emits b' B' B'')
    (ho : B''.IsOpen b'') (hf : b'' = b ∨ b'' ≥ B.bblocks.length)
    (hp : ∃ l : List Nat, B''.patched = B'.patched ++ l ∧
      ∀ j ∈ l, B'.instrs.length ≤ j ∧ j < B''.instrs.length)
    (hplain : ∀ (j : Nat) s t f a, B'.instrs.length ≤ j → B''.instrs[j]? ≠ some (.condJmp s t f a))
    (hrun : ∀ env C v e c st, Future (fun j => B'.instrs.length > j) B'' C → Al C v e →
      Reached C env B.numRegs c st e → ∃ e', Al' C v e' ∧ Reached C env B.numRegs c st e') :
    CondSpec sem b B b'' B'' P M Al' := by
  refine ⟨h.code.extend he ho hf hp hplain, h.nodup, h.sep, fun j hj => ?_, fun env C σ hF => ?_⟩
  · obtain ⟨s, f, a, hx⟩ := h.pend j hj
    exact ⟨s, f, a, he.getElem? hx⟩
  · have hM : ∀ j, (B.instrs.length > j ∨ j ∈ P.map Prod.fst ∨ M j) → B'.instrs.length > j := by
      rintro j (hj | hj)
      · exact hj.trans_le h.code.emits.instrs.length_le
      · exact (h.code.range j hj).2
    obtain ⟨e, hex, hr⟩ := h.run env C σ
      ((he.future.trans' hF).mono fun j _ hj => hj.resolve_left id)
    rcases hex with ⟨j, hj, rfl⟩ | hAl
    · exact ⟨.jump j, .inl ⟨j, hj, rfl⟩, hr⟩
    · obtain ⟨e', hAl', hr'⟩ := hrun env C _ e _ _ (hF.mono fun j _ hj => hM j hj) hAl hr
      exact ⟨e', .inr hAl', hr'⟩

theorem CondSpec.perm (h : CondSpec sem b B b' B' P M Al) (hp : P.Perm P') :
    CondSpec sem b B b' B' P' M Al := by
  have hmem : ∀ j, j ∈ P'.map Prod.fst ↔ j ∈ P.map Prod.fst := fun j =>
    ((hp.map Prod.fst).mem_iff).symm
  refine ⟨?_, ((hp.map Prod.fst).nodup_iff).mp h.nodup, ?_, ?_, fun env B'' σ hF => ?_⟩
  · simpa only [hmem] using h.code
  · simpa only [hmem] using h.sep
  · simpa only [hmem] using h.pend
  · simp only [hmem] at hF
    simpa only [hp.mem_iff] using h.run env B'' σ hF

/-! ## Loading a constant and leaving the block -/

theorem emitDef_run {mk : Reg → Instr} (ho : B.IsOpen b) :
    emitDef b mk B = some (B.numRegs, B.takeReg.push b (mk B.numRegs)) := by
  simp only [emitDef, bind, StateT.bind, nextReg, Option.bind]
  erw [addInstr_eq (B := B.takeReg) ho]
  rfl

namespace ProcBuilder

/-- `v` loaded into a new register at the end of `b`, then a jump to `t`. -/
def loadOut (B : ProcBuilder) (b : Nat) (v : Word) (t : Nat) : ProcBuilder :=
  let C := (B.takeReg.push b (.lImm boolTy B.numRegs v)).push b (.jmp b (some t))
  { C with patched := B.patched ++ [B.instrs.length + 1] }.connect b t

end ProcBuilder

section LoadOut

variable {v : Word} {t k : Nat}

@[simp] theorem loadOut_instrs : (B.loadOut b v t).instrs =
    B.instrs ++ [.lImm boolTy B.numRegs v] ++ [.jmp b (some t)] := rfl

@[simp] theorem loadOut_length : (B.loadOut b v t).bblocks.length = B.bblocks.length := by
  simp [ProcBuilder.loadOut]

@[simp] theorem loadOut_numRegs : (B.loadOut b v t).numRegs = B.numRegs + 1 := rfl

theorem blockInstrs_loadOut_other (hk : k ≠ b) :
    (B.loadOut b v t).blockInstrs k = B.blockInstrs k := by
  rw [ProcBuilder.loadOut, ProcBuilder.blockInstrs_connect]
  exact (ProcBuilder.blockInstrs_push_other hk).trans (ProcBuilder.blockInstrs_push_other hk)

theorem isOpen_loadOut (hk : k ≠ b) (ho : B.IsOpen k) : (B.loadOut b v t).IsOpen k := by
  rw [ProcBuilder.loadOut, ProcBuilder.isOpen_connect]
  exact (ProcBuilder.isOpen_push_other hk).mpr ((ProcBuilder.isOpen_push_other hk).mpr ho)

theorem loadOut_run (ho : B.IsOpen b) (ht : t < B.bblocks.length) {α : Type}
    (f : Reg → Build α) : (do
      let r ← emitDef b (.lImm boolTy · v)
      let _ ← emitInstrJmp b (some t)
      f r) B = f B.numRegs (B.loadOut b v t) := by
  have ho₁ : (B.takeReg.push b (.lImm boolTy B.numRegs v)).IsOpen b :=
    ProcBuilder.isOpen_push_self ho.lt rfl
  have hjmp : emitInstrJmp b (some t) (B.takeReg.push b (.lImm boolTy B.numRegs v)) =
      some (B.instrs.length + 1, B.loadOut b v t) := by
    simp only [emitInstrJmp, bind, StateT.bind, addInstr_eq ho₁, Option.bind, notePatched]
    rw [connectBBlocks_eq (by simpa using ht)]
    simp [pure, statePure_run, ProcBuilder.loadOut]
    rfl
  rw [bind_run _ _ (emitDef_run ho), bind_run _ _ hjmp]

theorem emits_loadOut (hb : b < B.bblocks.length) : Emits b B (B.loadOut b v t) := by
  have h1 : Emits b B B.takeReg :=
    ⟨List.prefix_refl _, List.prefix_refl _, Nat.le_succ _, Nat.le_refl _, List.prefix_refl _,
      fun _ _ _ => rfl, fun _ _ _ h => h⟩
  have h2 : Emits b B.takeReg (B.takeReg.push b (.lImm boolTy B.numRegs v)) := .push hb
  have h3 : Emits b (B.takeReg.push b (.lImm boolTy B.numRegs v)) (B.loadOut b v t) :=
    (((Emits.push (i := .jmp b (some t)) (by simpa using hb)).trans (.connect b b t _) (.inl rfl)).congr
      rfl rfl rfl (by simp [ProcBuilder.loadOut]) (fun k => by simp [ProcBuilder.loadOut]; rfl)
      fun k => by simp [ProcBuilder.loadOut]; rfl)
  exact (h1.trans h2 (.inl rfl)).trans h3 (.inl rfl)

/-- Control leaves `b` for `t` with the constant in the register. -/
theorem loadOut_steps {M : InstrId → Prop} {C : ProcBuilder} (hb : b < B.bblocks.length)
    (hF : Future M (B.loadOut b v t) C) (hM : ∀ j, M j → B.instrs.length > j) (env : Env)
    (σ : MState) :
    Steps C env ⟨b, B.endPos b, σ⟩ ((σ.setReg B.numRegs v).enter b t) := by
  have hblock : (B.loadOut b v t).blockInstrs b =
      B.blockInstrs b ++ [B.instrs.length] ++ [B.instrs.length + 1] := by
    rw [ProcBuilder.loadOut, ProcBuilder.blockInstrs_connect]
    refine (ProcBuilder.blockInstrs_push_self (B := B.takeReg.push b (.lImm boolTy B.numRegs v))
      (by simpa using hb)).trans ?_
    rw [ProcBuilder.blockInstrs_push_self (B := B.takeReg) hb]
    simp
    rfl
  have h1 : C.instrs[B.instrs.length]? = some (.lImm boolTy B.numRegs v) :=
    hF.fixed (by simp) fun hm => Nat.lt_irrefl _ (hM _ hm)
  have h2 : C.instrs[B.instrs.length + 1]? = some (.jmp b (some t)) :=
    hF.fixed (by simp) fun hm => by
      have := hM _ hm
      omega
  have hat₁ : C.instrAt b (B.endPos b) = some (B.instrs.length, .lImm boolTy B.numRegs v) :=
    hF.instrAt (by rw [hblock]; simp [ProcBuilder.endPos]) h1
  have hat₂ : C.instrAt b (B.endPos b + 1) = some (B.instrs.length + 1, .jmp b (some t)) :=
    hF.instrAt (by rw [hblock]; simp [ProcBuilder.endPos]) h2
  exact ((Steps.one (step_exec hat₁ rfl rfl) : Steps C env _ ⟨b, B.endPos b + 1, σ.setReg B.numRegs v⟩)).trans
    (Steps.one (step_jmp hat₂))

/-- The exits at the end of `b'` go on to `t` with the constant; emission goes on in `k`. -/
theorem CondSpec.loadOut (Al : ProcBuilder → Bool → Exit → Prop) {w : Bool}
    (h : CondSpec sem b B b' B' P M fun C x e =>
      Al C x e ∨ x = w ∧ e = .pos b' (B'.endPos b') fun _ => True)
    (hkb : k ≠ b') (hk : B'.IsOpen k) (hkB : k ≥ B.bblocks.length) :
    CondSpec sem b B k (B'.loadOut b' v t) P M fun C x e =>
      Al C x e ∨ x = w ∧ e = .pos t 0 fun σ => σ.regs B'.numRegs = v ∧ σ.prev = b' := by
  have hb := h.code.isOpen.lt
  refine h.extend (emits_loadOut hb) (isOpen_loadOut hkb hk) (.inr hkB)
    ⟨[B'.instrs.length + 1], rfl, by simp⟩ (fun j s u f a hj hx => ?_)
    fun env C x e c st hF he hr => ?_
  · have hlt := (List.getElem?_eq_some_iff.mp hx).1
    simp only [loadOut_instrs, List.length_append, List.length_singleton] at hlt
    rw [loadOut_instrs, List.append_assoc, List.getElem?_append_right hj] at hx
    obtain h0 | h1 : j - B'.instrs.length = 0 ∨ j - B'.instrs.length = 1 := by omega
    · rw [h0] at hx
      cases hx
    · rw [h1] at hx
      cases hx
  · rcases he with he | ⟨hx, rfl⟩
    · exact ⟨e, .inl he, hr⟩
    · obtain ⟨σ', ha, -, hs⟩ := hr
      refine ⟨_, .inr ⟨hx, rfl⟩, _, ?_, ?_, hs.trans (loadOut_steps hb hF (fun _ hj => hj) env σ')⟩
      · refine ⟨ha.store, fun r hr => ?_⟩
        have hne : r ≠ B'.numRegs := Nat.ne_of_lt (hr.trans_le h.code.emits.numRegs)
        exact (σ'.setReg_other v hne).trans (ha.regs r hr)
      · exact ⟨by simp, rfl⟩

end LoadOut

/-! ## `IR_execute_deferred_cmp` -/

/-- No jump at all: the register of the comparison, whatever its polarity. -/
theorem executeDeferredCmp_bare {c : DeferredCmp} (fuel : Nat)
    (h : JumpSpec sem b B b' B' P c.finalJmp) (hl : ScList B' c ids P)
    (hd : c.finalJmp.jmp = none) : ∃ r,
    executeDeferredCmp fuel b' boolTy c B' = some ((b', r), B') ∧
    CondSpec sem b B b' B' [] (fun _ => False) fun _ v e =>
      e = .pos b' (B'.endPos b') fun σ => σ.regs r = boolWord (v == c.finalJmp.result) := by
  obtain ⟨x, r, hx, hr⟩ := h.cmp
  have hP := h.noJmp hd
  subst hP
  have hfirst : c.firstScJmp = none := by
    cases hl.nodes
    exact hl.chain
  refine ⟨r, ?_, ?_, .nil, by simp, by simp, fun env B'' σ hF => ?_⟩
  · rw [executeDeferredCmp, bind_run _ _ (check_eq (c := boolTy.isBool) rfl), if_pos (by simp [hfirst, hd]),
      bind_run _ _ (cmpReg_run hx hr)]
    rfl
  · refine h.cond.code.congr (fun j s t f a hj => ?_) (by simp)
    simp only [DeferredJmpcc.owns, hd, List.map_nil, List.not_mem_nil, reduceCtorEq, false_or,
      false_iff]
    rintro rfl
    rw [hx] at hj
    cases hj
    cases hr
  · have hF' : Future (fun j => B.instrs.length > j ∨ j ∈ ([] : Pending).map Prod.fst ∨
        c.finalJmp.owns j) B' B'' := hF.mono fun j _ hj => hj.imp id (Or.imp id False.elim)
    obtain ⟨e, he, hreach⟩ := h.cond.run env B'' σ hF'
    refine ⟨_, .inr rfl, ?_⟩
    have hfix : B''.instrs[c.finalJmp.cmp]? = B'.instrs[c.finalJmp.cmp]? := by
      have hlow := (h.cond.code.range _ (.inr (.inr rfl))).1
      rw [hx]
      refine hF.fixed hx ?_
      rintro (hlt | hm | hf)
      · omega
      · cases hm
      · exact hf
    rcases he with ⟨j, hj, -⟩ | rfl
    · cases hj
    · simp only [finalExit, hd, hfix, bne_self_eq_false, Bool.xor_false] at hreach
      obtain ⟨σ', ha, ⟨x', r', hx', hr', hreg⟩, hs⟩ := hreach
      cases hx'.symm.trans hx
      cases hr'.symm.trans hr
      exact ⟨σ', ha, hreg, hs⟩

/-- The jumps for one value and the jumps for the other. -/
theorem perm_pending (P : Pending) (p : Nat × Bool) (t f : BBlockId) :
    (P ++ [p]).Perm ((P.filter (fun p => (if p.2 then none else some f).isSome) ++ [p]) ++
      P.filter fun p => (if p.2 then some t else none).isSome) := by
  have h1 : (fun p : Nat × Bool => (if p.2 then some t else none).isSome) = fun p => p.2 := by
    funext p
    cases p.2 <;> rfl
  have h2 : (fun p : Nat × Bool => (if p.2 then none else some f).isSome) = fun p => !p.2 := by
    funext p
    cases p.2 <;> rfl
  rw [h1, h2]
  have h := (List.filter_append_perm (fun p : Nat × Bool => p.2) P).symm.append_right [p]
  refine (h.trans (List.perm_append_comm.append_right [p])).trans ?_
  rw [List.append_assoc, List.append_assoc]
  exact List.perm_append_comm.append_left _

/-- With jumps: each value has a block that loads it. -/
theorem executeDeferredCmp_jumps {c : DeferredCmp} {fuel j : Nat}
    (h : JumpSpec sem b B b' B' P c.finalJmp) (hl : ScList B' c ids P) (hlen : ids.length ≤ fuel)
    (hd : c.finalJmp.jmp = some j) : ∃ b₂ r B₂,
    executeDeferredCmp fuel b' boolTy c B' = some ((b₂, r), B₂) ∧
    CondSpec sem b B b₂ B₂ [] (fun _ => False) fun _ v e =>
      e = .pos b₂ (B₂.endPos b₂) fun σ => σ.regs r = boolWord v := by
  obtain ⟨B₁, hfix, hj₁, hn₁, hbb⟩ := h.fix false
  obtain ⟨-, hempty, -⟩ := hj₁.jmp j hd
  have hc₁ := hj₁.asPending hd
  have ho₁ := hc₁.code.isOpen
  -- the two new blocks
  obtain ⟨f, hf⟩ : ∃ f, f = B₁.bblocks.length := ⟨_, rfl⟩
  have hc₂ : CondSpec sem b B b' B₁.alloc.alloc (P ++ [(j, false)]) (fun _ => False)
      fun _ v e => v = true ∧ e = .pos b' 0 fun _ => True := by
    refine hc₁.extend ((Emits.alloc b' B₁).trans (.alloc b' _) (.inl rfl))
      (ProcBuilder.isOpen_alloc (ProcBuilder.isOpen_alloc ho₁)) hc₁.code.fresh ⟨[], by simp, by simp⟩
      (fun j s t f a hj hx => ?_) fun env C v e c st hF he hr => ⟨e, ?_, hr⟩
    · have := (List.getElem?_eq_some_iff.mp hx).1
      simp only [ProcBuilder.alloc_instrs] at this
      omega
    · have hend : B₁.endPos b' = 0 := by rw [ProcBuilder.endPos, hempty]; rfl
      rw [hend] at he
      exact he
  obtain ⟨L, hL, -, hLP⟩ := scJmpList_ok (hn₁.scList hl) hlen
  have hlt₁ := ho₁.lt
  -- the jumps for true
  obtain ⟨B₃, hrun₃, hs₃, hc₃⟩ := patchScJmps_ok (fun r => if r then some b' else none) hLP
    (hc₂.perm (perm_pending P (j, false) b' f)) fun r t ht => by
      split at ht <;> cases ht
      simp only [ProcBuilder.alloc_length]
      omega
  have hblock₃ : ∀ k, B₃.blockInstrs k = B₁.blockInstrs k := fun k => by
    rw [hs₃.blocks, ProcBuilder.blockInstrs_alloc, ProcBuilder.blockInstrs_alloc]
  have hlen₃ : B₃.bblocks.length = f + 2 := by
    rw [hs₃.length, ProcBuilder.alloc_length, ProcBuilder.alloc_length, hf]
  have hend₃ : B₃.endPos b' = 0 := by rw [ProcBuilder.endPos, hblock₃, hempty]; rfl
  have hfb : f ≠ b' := by omega
  have hfB : f ≥ B.bblocks.length := by rw [hf]; exact hc₁.code.emits.length
  have hopen₃ : B₃.IsOpen f ∧ B₃.IsOpen (f + 1) := by
    rw [hs₃.isOpen, hs₃.isOpen, hf]
    have := ProcBuilder.isOpen_alloc_new (B := B₁.alloc)
    rw [ProcBuilder.alloc_length] at this
    exact ⟨ProcBuilder.isOpen_alloc ProcBuilder.isOpen_alloc_new, this⟩
  have hc₄ := CondSpec.loadOut (fun _ _ _ => False) (w := true) (v := 1) (t := f + 1) (k := f)
    (hc₃.imp fun C v e _ he => .inr (by
      rw [hend₃]
      rcases he with he | ⟨t, ht, rfl⟩
      · exact he
      · split at ht <;> cases ht
        exact ⟨by assumption, rfl⟩)) hfb hopen₃.1 hfB
  -- the final jump and the jumps for false
  obtain ⟨s, f', a, hx, hpatch, hc₅⟩ := hc₄.patch (P := []) (t := f)
    (by rw [loadOut_length, hlen₃]; omega)
  rw [List.append_nil] at hc₅
  obtain ⟨B₆, hrun₆, hs₆, hc₆⟩ := patchScJmps_ok (K := []) (fun r => if r then none else some f)
    hLP hc₅ fun r t ht => by
      split at ht <;> cases ht
      simp only [ProcBuilder.setTarget_length, loadOut_length]
      omega
  have hend₆ : B₆.endPos f = 0 := by
    rw [ProcBuilder.endPos, hs₆.blocks, ProcBuilder.blockInstrs_setTarget,
      blockInstrs_loadOut_other hfb, hblock₃, hf, ProcBuilder.blockInstrs_of_le (Nat.le_refl _)]
    rfl
  have hlen₆ : B₆.bblocks.length = f + 2 := by
    rw [hs₆.length, ProcBuilder.setTarget_length, loadOut_length, hlen₃]
  have hopen₆ : B₆.IsOpen (f + 1) := by
    rw [hs₆.isOpen, ProcBuilder.isOpen_setTarget]
    exact isOpen_loadOut (by omega) hopen₃.2
  have hc₇ := CondSpec.loadOut (w := false) (v := 0) (t := f + 1) (k := f + 1)
    (fun _ x e => x = true ∧ e = .pos (f + 1) 0 fun σ => σ.regs B₃.numRegs = 1 ∧ σ.prev = b')
    (hc₆.imp fun C v e _ he => by
      rw [hend₆]
      rcases he with (he | he) | ⟨t, ht, rfl⟩
      · exact .inl (he.resolve_left id)
      · exact .inr he
      · split at ht <;> cases ht
        exact .inr ⟨by simpa using ‹¬ v = true›, rfl⟩) (by omega) hopen₆ (by omega)
  -- the value
  obtain ⟨B₇, hB₇⟩ : ∃ B₇, B₇ = B₆.loadOut f 0 (f + 1) := ⟨_, rfl⟩
  rw [← hB₇] at hc₇
  have ho₇ := hc₇.code.isOpen
  have hend₇ : B₇.endPos (f + 1) = 0 := by
    rw [hB₇, ProcBuilder.endPos, blockInstrs_loadOut_other (by omega), hs₆.blocks,
      ProcBuilder.blockInstrs_setTarget, blockInstrs_loadOut_other (by omega), hblock₃, hf,
      ProcBuilder.blockInstrs_of_le (Nat.le_succ _)]
    rfl
  obtain ⟨i, hi⟩ : ∃ i : Instr, i = .phi boolTy B₇.numRegs [⟨b', B₃.numRegs⟩, ⟨f, B₆.numRegs⟩] :=
    ⟨_, rfl⟩
  have hctl : i.isControl = false := by rw [hi]; rfl
  have hst : Straight (f + 1) B₇ (B₇.takeReg.push (f + 1) i) :=
    (Straight.takeReg ho₇).trans (.push ho₇ hctl)
  refine ⟨f + 1, B₇.numRegs, B₇.takeReg.push (f + 1) i, ?_, hc₇.extend hst.emits hst.isOpen
    hc₇.code.fresh ⟨[], by rw [List.append_nil]; exact hst.patched, by simp⟩ (fun j s t f a hj hx => ?_)
    fun env C v e c st hF he hr => ⟨_, rfl, ?_⟩⟩
  · rw [executeDeferredCmp, bind_run _ _ (check_eq (c := boolTy.isBool) rfl), if_neg (by simp [hd]),
      bind_run _ _ hfix, bind_run _ _ allocBBlock_run, bind_run _ _ allocBBlock_run,
      bind_run _ _ (deferredScJmps_run (B := B₁.alloc.alloc) hL)]
    simp only [hd]
    have he : B₁.alloc.bblocks.length = f + 1 := by rw [ProcBuilder.alloc_length, hf]
    rw [he, ← hf, bind_run _ _ hrun₃, loadOut_run hc₃.code.isOpen (by omega), bind_run _ _ hpatch,
      bind_run _ _ hrun₆, loadOut_run hc₆.code.isOpen (by omega), ← hB₇, bind_run _ _ (emitDef_run ho₇),
      hi]
    rfl
  · cases hst.plain j _ hj hx
  · obtain ⟨φ, hφ, rfl⟩ : ∃ φ : MState → Prop, (∀ σ', φ σ' → ∀ objs,
        execInstr env objs i σ' = some (σ'.setReg B₇.numRegs (boolWord v))) ∧
        e = .pos (f + 1) 0 φ := by
      rcases he with ⟨rfl, rfl⟩ | ⟨rfl, rfl⟩
      · refine ⟨_, fun σ' h objs => ?_, rfl⟩
        simp [hi, execInstr, h.1, h.2]
      · refine ⟨_, fun σ' h objs => ?_, rfl⟩
        simp [hi, execInstr, h.1, h.2, Ne.symm hfb]
    obtain ⟨σ', ha, hσ', hs⟩ := hr
    have hstep := Runs.push (B := B₇.takeReg) ho₇.lt hctl (fun objs _ => hφ σ' hσ' objs) C
      (hF.mono fun _ _ hj => hj)
    have hpos : B₇.takeReg.endPos (f + 1) = 0 := hend₇
    rw [hpos] at hstep
    refine ⟨σ'.setReg B₇.numRegs (boolWord v), ⟨ha.store, fun r hr => ?_⟩, by simp, hs.trans hstep⟩
    have hne : r ≠ B₇.numRegs := Nat.ne_of_lt (hr.trans_le hc₇.code.emits.numRegs)
    exact (σ'.setReg_other _ hne).trans (ha.regs r hr)

/-! ## Jumps that are lost -/

section Lost

variable {Q : List InstrId} {J : Nat} {A : Nat → Prop} {fuel : Nat}

theorem executeDeferredCmp_lost {c : DeferredCmp} (hc : c.Reachable A)
    (hj : c.finalJmp.jmp ≠ some J) (t : Ty) :
    KeepsLost Q J A none (executeDeferredCmp fuel b t c) fun _ => True := by
  refine (check_lost _).bind fun _ _ => Keeps.ite (fun _ => ?_) fun _ => ?_
  · exact (cmpReg_lost _).bind fun _ _ => .pure trivial
  · refine fixScJmpPath_lost.bind fun d hd => allocBBlock_lost.bind fun f _ =>
      allocBBlock_lost.bind fun e _ => (deferredScJmps_lost hc).bind fun L hL =>
      (patchScJmps_lost hL).bind fun _ _ => emitDef_lost.bind fun _ _ =>
      emitInstrJmp_lost.bind fun _ _ => ?_
    have hrest : ∀ oneReg, KeepsLost Q J A none (do
        patchScJmps (fun r => if r then none else some f) L
        let zeroReg ← emitDef f (.lImm t · 0)
        let _ ← emitInstrJmp f (some e)
        let dst ← emitDef e (.phi t · [⟨b, oneReg⟩, ⟨f, zeroReg⟩])
        pure (e, dst) : Build (BBlockId × Reg)) fun _ => True := fun _ =>
      (patchScJmps_lost hL).bind fun _ _ => emitDef_lost.bind fun _ _ =>
        emitInstrJmp_lost.bind fun _ _ => emitDef_lost.bind fun _ _ => .pure trivial
    split
    · rename_i j hdj
      rw [← hd.1, hdj] at hj
      exact (patchJmpTarget_lost (by simpa using hj)).bind fun _ _ => hrest _
    · exact Keeps.bind .failure fun _ (_ : True) => hrest _

theorem exprResultToReg_lost (her : er.Safe J A) :
    KeepsLost Q J A none (exprResultToReg fuel b er) fun _ => True := by
  unfold exprResultToReg
  split
  · rename_i c hc
    exact executeDeferredCmp_lost (her c hc).1 (her c hc).2 _
  · exact valueToReg_lost.bind fun _ _ => .pure trivial

end Lost

/-! ## The register of a boolean expression -/

/-- `IR_emit_expr` and `IR_expr_result_to_reg`. -/
def emitBValue (fuel : Nat) (e : BExpr) (b : BBlockId) : Build (BBlockId × Reg) := do
  let (b, er) ← emitBExpr fuel e b
  exprResultToReg fuel b er

/-- A boolean value that the expression consists of is zero or one. -/
def BExpr.Canonical (env : Env) (st : Store) : BExpr → Prop
  | leaf l => (l.sem env st).2 = 0 ∨ (l.sem env st).2 = 1
  | _ => True

/-- The byte of a truth value. -/
def boolByte (v : Bool) : BitVec 8 := if v then 1 else 0

/-- What the code of a boolean value has to do: from `b` control gets to `b'`, having done what
the expression does, with its value as one or zero in `r`. -/
structure ValueCorrect (e : BExpr) (B : ProcBuilder) (b b' : BBlockId) (r : Reg)
    (B' : ProcBuilder) : Prop where
  patched : PatchedOnce B B'
  run : ∀ env B'' σ, Future (fun _ => False) B' B'' → e.Canonical env σ.store → ∃ σ',
    After B.numRegs σ (e.sem env σ.store).1 σ' ∧
    lowBytes 1 (σ'.regs r) = boolByte (e.sem env σ.store).2 ∧
    Steps B'' env ⟨b, B.endPos b, σ⟩ ⟨b', B'.endPos b', σ'⟩

/-- With enough fuel the value of `e` is emitted, and its code is right. -/
def BValueCorrect (e : BExpr) (B : ProcBuilder) (b : BBlockId) : Prop :=
  ∃ n, ∀ fuel, n ≤ fuel → ∃ b' r B', emitBValue fuel e b B = some ((b', r), B') ∧
    ValueCorrect e B b b' r B'

theorem lowBytes_boolWord_eq (v : Bool) : lowBytes 1 (boolWord v) = boolByte v := by
  cases v <;> decide

theorem CondSpec.valueCorrect {e : BExpr} {r : Reg}
    (h : CondSpec (fun env => e.sem env) b B b' B' [] (fun _ => False) fun _ v e =>
      e = .pos b' (B'.endPos b') fun σ => σ.regs r = boolWord v) :
    ValueCorrect e B b b' r B' := by
  refine ⟨h.patchedOnce, fun env B'' σ hF _ => ?_⟩
  obtain ⟨e', he, hr⟩ := h.run env B'' σ (hF.mono fun _ _ hf => hf.elim)
  rcases he with ⟨j, hj, -⟩ | rfl
  · cases hj
  · obtain ⟨σ', ha, hreg, hs⟩ := hr
    exact ⟨σ', ha, by rw [hreg, lowBytes_boolWord_eq], hs⟩

/-- The code is right when only first jumps have to be removed and `!` has not been applied to a
comparison that has no jump. -/
theorem emitBValue_ok {e : BExpr} {fuel : Nat} (hgood : e.removesFirstOnly = true)
    (hsense : e.bareSense ≠ some false) (hf : e.size ≤ fuel) (ha : Arena B F) (ho : B.IsOpen b) :
    ∃ b' r B', emitBValue fuel e b B = some ((b', r), B') ∧ ValueCorrect e B b b' r B' := by
  obtain ⟨b₁, er, B₁, F₁, hrun, hty, hok⟩ := emitBExpr_ok e hgood hf b B F ha ho
  cases hok with
  | value l plain uses val =>
    obtain ⟨r, B₂, hreg, hc⟩ := valueToReg_ok val.code.isOpen plain
    have h₂ : ValSpec l.sem b B b₁ B₂ (HasByte B₂ ⟨er.type, .reg r⟩) :=
      val.convert (R := fun v w => lowBytes 1 w = v) hc fun _ _ _ hq => hq
    refine ⟨b₁, r, B₂, ?_, fun j s t f a hj hx => ?_, fun env B'' σ hF hcan => ?_⟩
    · obtain ⟨ty, k⟩ := er
      rw [emitBValue, bind_run _ _ hrun]
      have hk : exprResultToReg fuel b₁ ⟨ty, k⟩ = (do
          let r ← valueToReg b₁ ⟨ty, k⟩
          pure (b₁, r) : Build (BBlockId × Reg)) := by
        cases k with
        | deferredCmp c => exact absurd rfl (plain.2.2 c)
        | _ => rfl
      simp only [hk]
      rw [bind_run _ _ hreg]
      rfl
    · obtain ⟨q, hq, -, hcount⟩ := h₂.code.patches
      rw [hq, List.drop_left]
      exact (hcount j s t f a hj hx).2 (by simp)
    · obtain ⟨σ', hr, ha', w, hw, hlow⟩ := h₂.run env σ
      refine ⟨σ', ha', ?_, hr B'' (hF.mono fun _ _ hf => hf.elim)⟩
      have hnow := hw.now (List.prefix_refl _)
      simp only [readValue, ExprResult.value, Option.some.injEq] at hnow
      rw [hnow, hlow]
      rcases hcan with h0 | h1
      · simp [BExpr.sem, h0, boolByte]
      · simp [BExpr.sem, h1, boolByte]
  | deferred _ he c ids P kind uses list vals jump sense =>
    have hlen : ids.length ≤ fuel := by
      rw [list.nodes.length_eq, ← List.length_map Prod.snd, vals]
      exact (e.pending_length_lt.trans_le hf).le
    have hrun' : ∀ {b' r B'}, executeDeferredCmp fuel b₁ boolTy c B₁ = some ((b', r), B') →
        emitBValue fuel e b B = some ((b', r), B') := by
      intro b' r B' h
      rw [emitBValue, bind_run _ _ hrun]
      simp only [exprResultToReg, kind, hty]
      exact h
    rcases Option.eq_none_or_eq_some c.finalJmp.jmp with hnone | ⟨j, hsome⟩
    · obtain ⟨r, hexec, hc⟩ := executeDeferredCmp_bare fuel jump list hnone
      rw [if_pos hnone] at sense
      have htrue : c.finalJmp.result = true := by
        rw [sense] at hsense
        simpa using hsense
      refine ⟨b₁, r, B₁, hrun' hexec, CondSpec.valueCorrect (hc.imp fun C v e _ he => ?_)⟩
      rw [he, htrue]
      simp
    · obtain ⟨b₂, r, B₂, hexec, hc⟩ := executeDeferredCmp_jumps jump list hlen hsome
      exact ⟨b₂, r, B₂, hrun' hexec, hc.valueCorrect⟩

theorem step_endPos (env : Env) (σ : MState) : step B env ⟨b, B.endPos b, σ⟩ = none := by
  unfold step ProcBuilder.instrAt ProcBuilder.endPos ProcBuilder.blockInstrs
  cases B.bblocks[b]? <;> simp

/-- An environment in which nothing happens. -/
def Env.trivial : Env :=
  ⟨fun _ => 0, fun _ => 0, fun _ => 0, fun _ => 0, fun _ _ _ => .equal, fun _ _ _ st => (st, 0),
    fun _ _ => none⟩

/-- After an odd number of `!` on a comparison the register holds the opposite value. -/
theorem not_bValueCorrect_of_sense {e : BExpr} (hgood : e.removesFirstOnly = true)
    (hsense : e.bareSense = some false) (ha : Arena B F) (ho : B.IsOpen b) :
    ¬ BValueCorrect e B b := by
  rintro ⟨n, h⟩
  obtain ⟨b', r, B', hrun, hcorrect⟩ := h (max n e.size) (Nat.le_max_left _ _)
  obtain ⟨b₁, er, B₁, F₁, hemit, hty, hok⟩ :=
    emitBExpr_ok e hgood (Nat.le_max_right n e.size) b B F ha ho
  rw [emitBValue, bind_run _ _ hemit] at hrun
  cases hok with
  | value l => cases hsense
  | deferred _ he c ids P kind uses list vals jump sense =>
    have hcan : ∀ env st, e.Canonical env st := by
      intro env st
      cases e with
      | leaf l => cases he
      | _ => trivial
    rw [hsense] at sense
    obtain ⟨hnone, hres⟩ : c.finalJmp.jmp = none ∧ c.finalJmp.result = false := by
      by_cases hd : c.finalJmp.jmp = none
      · rw [if_pos hd] at sense
        exact ⟨hd, (Option.some.inj sense).symm⟩
      · rw [if_neg hd] at sense
        cases sense
    obtain ⟨r', hexec, hc⟩ := executeDeferredCmp_bare (max n e.size) jump list hnone
    simp only [exprResultToReg, kind, hty] at hrun
    rw [hexec] at hrun
    cases hrun
    obtain ⟨σ₁, -, hreg₁, hs₁⟩ := hcorrect.run .trivial B' ⟨fun _ => 0, ⟨fun _ => 0, []⟩, 0⟩
      (.refl B') (hcan _ _)
    obtain ⟨e', he', hr⟩ := hc.run .trivial B' ⟨fun _ => 0, ⟨fun _ => 0, []⟩, 0⟩ (.refl B')
    rcases he' with ⟨j, hj, -⟩ | rfl
    · cases hj
    · obtain ⟨σ₂, -, hreg₂, hs₂⟩ := hr
      have heq : σ₁ = σ₂ := by
        have := Steps.unique hs₁ hs₂ (step_endPos _ _) (step_endPos _ _)
        injection this
      rw [heq, hreg₂, hres, lowBytes_boolWord_eq] at hreg₁
      revert hreg₁
      cases (BExpr.sem Env.trivial e ⟨fun _ => 0, []⟩).2 <;> decide

theorem not_bValueCorrect_of_lost {e : BExpr} (hbad : e.removesFirstOnly = false) (ha : Arena B F)
    (ho : B.IsOpen b) : ¬ BValueCorrect e B b := by
  rintro ⟨n, h⟩
  obtain ⟨b', r, B', hrun, hc⟩ := h (max n e.size) (Nat.le_max_left _ _)
  obtain ⟨⟨b₁, er⟩, B₁, hemit, hrest⟩ := bind_eq_some hrun
  obtain ⟨J, A, hJ, hlost, hs, -⟩ :=
    emitBExpr_loses e hbad (Nat.le_max_right _ _) (.empty F B) ha ho hemit
  exact (exprResultToReg_lost hs _ _ _ hlost hrest).2.not_patchedOnce hJ hc.patched

theorem emitBValue_correct_iff (ha : Arena B F) (ho : B.IsOpen b) (e : BExpr) :
    BValueCorrect e B b ↔ e.removesFirstOnly = true ∧ e.bareSense ≠ some false := by
  refine ⟨fun h => ?_, fun h => ⟨e.size, fun fuel hf => emitBValue_ok h.1 h.2 hf ha ho⟩⟩
  have hgood : e.removesFirstOnly = true := by
    by_contra hbad
    exact not_bValueCorrect_of_lost (by simpa using hbad) ha ho h
  exact ⟨hgood, fun hsense => not_bValueCorrect_of_sense hgood hsense ha ho h⟩

/-- `a || !b` in a procedure with two blocks. -/
theorem emitBValue_correct_or : BValueCorrect (.or (.var 0) (.not (.var 1))) twoBlocks 0 ↔
    (BExpr.or (.var 0) (.not (.var 1))).removesFirstOnly = true ∧
      (BExpr.or (.var 0) (.not (.var 1))).bareSense ≠ some false :=
  emitBValue_correct_iff arena_twoBlocks isOpen_twoBlocks _

/-- `!!a` is worth `!a`, and `!(a < b)` is worth `a < b`. -/
theorem emitBValue_drops_not : ¬ BValueCorrect (.not (.not (.var 0))) twoBlocks 0 ∧
    ¬ BValueCorrect (.not (.cmp .sLt (.s32Vars 0 1))) twoBlocks 0 :=
  ⟨not_bValueCorrect_of_sense rfl rfl arena_twoBlocks isOpen_twoBlocks,
    not_bValueCorrect_of_sense rfl rfl arena_twoBlocks isOpen_twoBlocks⟩

end Nibble.IR
