import Nibble.IR.CondSound

/-!
# Conditions of control flow

`IR_process_cfg_cond` gives every pending jump of a condition its target. What
the code then does is `CondCorrect`.
-/

namespace Nibble.IR

open Nibble.Lib

variable {B B' B'' B₁ : ProcBuilder} {b b' b'' : Nat} {env : Env} {er : ExprResult}
  {sem : Env → Store → Store × Bool} {P K : Pending} {M : Nat → Prop} {d : DeferredJmpcc}
  {Al : ProcBuilder → Bool → Exit → Prop} {F F' ids : List Nat}

/-! ## Patching a list of jumps -/

/-- Only jump targets and predecessor lists differ. -/
structure SameLayout (B B' : ProcBuilder) : Prop where
  nodes : SameNodes B B'
  blocks : ∀ k, B'.blockInstrs k = B.blockInstrs k
  isOpen : ∀ k, B'.IsOpen k ↔ B.IsOpen k
  length : B'.bblocks.length = B.bblocks.length
  numRegs : B'.numRegs = B.numRegs
  memObjs : B'.memObjs = B.memObjs

theorem SameLayout.refl (B : ProcBuilder) : SameLayout B B :=
  ⟨⟨rfl, rfl, fun _ hj => hj⟩, fun _ => rfl, fun _ => Iff.rfl, rfl, rfl, rfl⟩

theorem SameLayout.trans (h : SameLayout B B') (h' : SameLayout B' B'') : SameLayout B B'' :=
  ⟨h.nodes.trans h'.nodes, fun k => (h'.blocks k).trans (h.blocks k),
    fun k => (h'.isOpen k).trans (h.isOpen k), h'.length.trans h.length,
    h'.numRegs.trans h.numRegs, h'.memObjs.trans h.memObjs⟩

theorem SameLayout.setTarget {j s f t : Nat} {a : Reg}
    (hx : B.instrs[j]? = some (.condJmp s none f a)) :
    SameLayout B (B.setTarget j (.condJmp s (some t) f a) s t) :=
  ⟨.setTarget hx, fun _ => ProcBuilder.blockInstrs_setTarget, fun _ => ProcBuilder.isOpen_setTarget,
    by simp, rfl, rfl⟩

theorem SameLayout.endPos (h : SameLayout B B') (k : Nat) : B'.endPos k = B.endPos k := by
  simp only [ProcBuilder.endPos, h.blocks]

/-- The jumps whose value has a target are patched. -/
theorem patchScJmps_ok {L : List (Nat × DeferredJmpcc)} (tgt : Bool → Option BBlockId)
    (hL : List.Forall₂ (fun n p => n.2.jmp = some p.1 ∧ n.2.result = p.2) L P)
    (h : CondSpec sem b B b' B' (K ++ P.filter fun p => (tgt p.2).isSome) M Al)
    (ht : ∀ r t, tgt r = some t → B'.bblocks.length > t) : ∃ B'',
    patchScJmps tgt L B' = some ((), B'') ∧ SameLayout B' B'' ∧
    CondSpec sem b B b' B'' K M fun C v e =>
      Al C v e ∨ ∃ t, tgt v = some t ∧ e = .pos t 0 fun _ => True := by
  induction hL generalizing B' Al with
  | nil =>
    simp only [List.filter_nil, List.append_nil] at h
    exact ⟨B', rfl, .refl B', h.imp fun _ _ _ _ he => .inl he⟩
  | @cons n p L P hn _ ih =>
    obtain ⟨n, node⟩ := n
    obtain ⟨hj, hr⟩ := hn
    simp only at hj hr
    cases htp : tgt p.2 with
    | none =>
      simp only [List.filter_cons, htp, Option.isSome_none, Bool.false_eq_true, if_false] at h
      obtain ⟨B'', hrun, hs, hc⟩ := ih h ht
      refine ⟨B'', ?_, hs, hc⟩
      rw [patchScJmps, hr, htp]
      exact hrun
    | some t =>
      simp only [List.filter_cons, htp, Option.isSome_some, if_true] at h
      obtain ⟨s, f, a, hx, hpatch, hc⟩ := h.patch (ht _ _ htp)
      obtain ⟨B'', hrun, hs, hc'⟩ := ih hc (fun r t hrt => by simpa using ht r t hrt)
      refine ⟨B'', ?_, (SameLayout.setTarget hx).trans hs, hc'.imp fun C v e _ he => ?_⟩
      · rw [patchScJmps, hr, htp, hj]
        exact (bind_run _ _ hpatch).trans hrun
      · rcases he with (he | ⟨hv, he⟩) | he
        · exact .inl he
        · exact .inr ⟨t, by rw [hv, htp], he⟩
        · exact .inr he

/-- The jumps of `P`, which had no target, have the target for their value. -/
structure FilledIn (B B' : ProcBuilder) (P : Pending) (tgt : Bool → BBlockId) : Prop where
  layout : SameLayout B B'
  filled : ∀ p ∈ P, ∃ s f a, B.instrs[p.1]? = some (.condJmp s none f a) ∧
    B'.instrs[p.1]? = some (.condJmp s (some (tgt p.2)) f a)
  other : ∀ j : Nat, j ∉ P.map Prod.fst → B'.instrs[j]? = B.instrs[j]?

theorem FilledIn.trans {tgt : Bool → BBlockId} {P' : Pending} (h : FilledIn B B' P tgt)
    (h' : FilledIn B' B'' P' tgt) (hdisj : ∀ p ∈ P, ∀ p' ∈ P', p.1 ≠ p'.1) :
    FilledIn B B'' (P' ++ P) tgt := by
  refine ⟨h.layout.trans h'.layout, fun p hp => ?_, fun j hj => ?_⟩
  · rcases List.mem_append.mp hp with hp | hp
    · obtain ⟨s, f, a, hx, hx'⟩ := h'.filled p hp
      refine ⟨s, f, a, ?_, hx'⟩
      rw [← h.other p.1 fun hm => ?_, hx]
      obtain ⟨q, hq, heq⟩ := List.mem_map.mp hm
      exact hdisj q hq p hp heq
    · obtain ⟨s, f, a, hx, hx'⟩ := h.filled p hp
      refine ⟨s, f, a, hx, ?_⟩
      rw [h'.other p.1 fun hm => ?_, hx']
      obtain ⟨q, hq, heq⟩ := List.mem_map.mp hm
      exact hdisj p hp q hq heq.symm
  · rw [List.map_append, List.mem_append, not_or] at hj
    rw [h'.other j hj.1, h.other j hj.2]

theorem FilledIn.setTarget {j s f : Nat} {a : Reg} (v : Bool) (tgt : Bool → BBlockId)
    (hx : B.instrs[j]? = some (.condJmp s none f a)) :
    FilledIn B (B.setTarget j (.condJmp s (some (tgt v)) f a) s (tgt v)) [(j, v)] tgt := by
  refine ⟨.setTarget hx, fun p hp => ?_, fun i hi => ?_⟩
  · rw [List.mem_singleton.mp hp]
    exact ⟨s, f, a, hx, by simp [(List.getElem?_eq_some_iff.mp hx).1]⟩
  · have hne : j ≠ i := fun e => hi (by simp [e])
    simp [hne]

theorem patchScJmps_fills {L : List (Nat × DeferredJmpcc)} (tgt : Bool → BBlockId)
    (hL : List.Forall₂ (fun n p => n.2.jmp = some p.1 ∧ n.2.result = p.2) L P)
    (hP : ∀ p ∈ P, ∃ s f a, B.instrs[p.1]? = some (.condJmp s none f a))
    (hnd : (P.map Prod.fst).Nodup) (ht : ∀ v, tgt v < B.bblocks.length) :
    ∃ B', patchScJmps (fun v => some (tgt v)) L B = some ((), B') ∧ FilledIn B B' P tgt := by
  induction hL generalizing B with
  | nil => exact ⟨B, rfl, .refl B, by simp, fun _ _ => rfl⟩
  | @cons n p L P hn _ ih =>
    obtain ⟨n, node⟩ := n
    obtain ⟨j, v⟩ := p
    obtain ⟨hj, hv⟩ := hn
    simp only at hj hv
    obtain ⟨hmem, hnd⟩ := List.nodup_cons.mp hnd
    obtain ⟨s, f, a, hx⟩ := hP (j, v) (List.mem_cons_self ..)
    have hne : ∀ p ∈ P, j ≠ p.1 := fun p hp e => hmem (List.mem_map.mpr ⟨p, hp, e.symm⟩)
    obtain ⟨B', hrun, hfill⟩ := ih (B := B.setTarget j (.condJmp s (some (tgt v)) f a) s (tgt v))
      (fun p hp => by
        obtain ⟨s', f', a', hx'⟩ := hP p (List.mem_cons_of_mem _ hp)
        exact ⟨s', f', a', by simp [hne p hp, hx']⟩) hnd (by simpa using ht)
    have hall := (FilledIn.setTarget v tgt hx).trans hfill fun q hq p hp => by
      rw [List.mem_singleton.mp hq]
      exact hne p hp
    refine ⟨B', ?_, hall.layout, fun p hp => hall.filled p ?_, fun i hi => hall.other i ?_⟩
    · rw [patchScJmps, hv, hj]
      exact (bind_run _ _ (patchJmpTarget_condJmp hx (ht v))).trans hrun
    · rcases List.mem_cons.mp hp with rfl | hp
      · exact List.mem_append_right _ (List.mem_singleton_self _)
      · exact List.mem_append_left _ hp
    · rw [List.map_append, List.mem_append, not_or]
      rw [List.map_cons, List.mem_cons, not_or] at hi
      exact ⟨hi.2, by simpa using hi.1⟩

/-! ## The jump of a condition -/

/-- The exits of a condition: the target if its value is `sense`, else the fall-through block. -/
def condExit (sense : Bool) (jmpBb b' : Nat) (_ : ProcBuilder) (v : Bool) (e : Exit) : Prop :=
  e = .pos (if v = sense then jmpBb else b') 0 fun _ => True

theorem JumpSpec.patchFinal {j t : Nat} (h : JumpSpec sem b B b' B' P d) (hd : d.jmp = some j)
    (ht : t < B'.bblocks.length) : ∃ s f a, B'.instrs[j]? = some (.condJmp s none f a) ∧
    patchJmpTarget j t B' = some ((), B'.setTarget j (.condJmp s (some t) f a) s t) ∧
    CondSpec sem b B b' (B'.setTarget j (.condJmp s (some t) f a) s t) P (fun _ => False)
      (condExit d.result t b') := by
  have hend : B'.endPos b' = 0 := by simp [ProcBuilder.endPos, (h.jmp j hd).2.1]
  obtain ⟨s, f, a, hx, hpatch, hc⟩ :=
    CondSpec.patch (K := P) (p := (j, d.result)) (P := []) (h.asPending hd) ht
  rw [List.append_nil] at hc
  refine ⟨s, f, a, hx, hpatch, hc.imp fun C v e _ he => ?_⟩
  rcases he with ⟨hv, he⟩ | ⟨hv, he⟩
  · have : ¬ v = d.result := by rw [hv]; cases d.result <;> simp
    rw [condExit, if_neg this, he, hend]
  · rw [condExit, if_pos hv, he]

/-- A final comparison without a jump: the jump is created with its target. -/
theorem JumpSpec.jumpTo {t : Nat} {x : Instr} {r : Reg} (h : JumpSpec sem b B b' B' P d)
    (hd : d.jmp = none) (hx : B'.instrs[d.cmp]? = some x) (hr : x.cmpReg? = some r)
    (ht : t < B'.bblocks.length) : ∃ j B'',
    emitInstrCondJmp b' (some t) B'.bblocks.length r B'.alloc = some (j, B'') ∧ SameNodes B' B'' ∧
    B''.blockInstrs B'.bblocks.length = [] ∧
    CondSpec sem b B B'.bblocks.length B'' [] (fun _ => False)
      (condExit d.result t B'.bblocks.length) := by
  have hopen := h.cond.code.isOpen
  have hP := h.noJmp hd
  subst hP
  have hadd := h.addJump hd hx hr
  obtain ⟨s, f, a, hi, hpatch, hc⟩ := hadd.patchFinal rfl (t := t) (by simp; omega)
  have hnew : (B'.condJmpOut b' r).instrs[B'.instrs.length]? =
      some (.condJmp b' none B'.bblocks.length r) := by simp
  rw [hnew] at hi
  cases hi
  refine ⟨_, _, emitInstrCondJmp_target hopen ht, ?_, ?_, hc⟩
  · exact (SameNodes.condJmpOut hopen).trans (.setTarget hnew)
  · rw [ProcBuilder.blockInstrs_setTarget, ProcBuilder.blockInstrs_condJmpOut_new hopen.lt]

/-- Every conditional jump created between the builders has had its target filled in exactly
once. -/
def PatchedOnce (B B' : ProcBuilder) : Prop :=
  ∀ j s t f a, B.instrs.length ≤ j → B'.instrs[j]? = some (.condJmp s t f a) →
    (B'.patched.drop B.patched.length).count j = 1

/-- What the code of a condition has to do: with `hdr` the block it begins in, control goes to
`jmpBb` when the value is `sense` and to `b'` otherwise, having done what the expression does. -/
structure CondCorrect (e : BExpr) (B : ProcBuilder) (hdr : BBlockId) (sense : Bool)
    (jmpBb b' : BBlockId) (B' : ProcBuilder) : Prop where
  patched : PatchedOnce B B'
  ne : b' ≠ jmpBb
  run : ∀ env B'' σ, Future (fun _ => False) B' B'' → ∃ σ',
    σ'.store = (e.sem env σ.store).1 ∧
    Steps B'' env ⟨hdr, B.endPos hdr, σ⟩
      ⟨if (e.sem env σ.store).2 = sense then jmpBb else b', 0, σ'⟩

theorem CondSpec.patchedOnce (h : CondSpec sem b B b' B' [] (fun _ => False) Al) :
    PatchedOnce B B' := by
  obtain ⟨l, hl, -, hc⟩ := h.code.patches
  intro j s t f a hj hx
  rw [hl, List.drop_left]
  exact (hc j s t f a hj hx).2 (by simp)

theorem CondSpec.correct {e : BExpr} {sense : Bool} {jmpBb : Nat}
    (h : CondSpec (fun env => e.sem env) b B b' B' [] (fun _ => False) (condExit sense jmpBb b'))
    (hne : b' ≠ jmpBb) : CondCorrect e B b sense jmpBb b' B' := by
  refine ⟨h.patchedOnce, hne, fun env B'' σ hF => ?_⟩
  obtain ⟨e', he, hr⟩ := h.run env B'' σ (hF.mono fun _ _ hf => hf.elim)
  rcases he with ⟨j, hj, -⟩ | rfl
  · cases hj
  · obtain ⟨σ', ha, -, hs⟩ := hr
    exact ⟨σ', ha.store, hs⟩

/-- The code of a condition, and the code `B₀` of it before its jumps received their targets. -/
structure CondCode (e : BExpr) (B : ProcBuilder) (b : BBlockId) (sense : Bool)
    (jmpBb b' : BBlockId) (B' : ProcBuilder) : Prop where
  new : B.bblocks.length ≤ b'
  empty : B'.endPos b' = 0
  cond : CondSpec (fun env => e.sem env) b B b' B' [] (fun _ => False) (condExit sense jmpBb b')
  fills : ∃ B₀ P, CondSpec (fun env => e.sem env) b B b' B₀ P (fun _ => False)
      (fun _ v ex => v = !sense ∧ ex = .pos b' (B₀.endPos b') fun _ => True) ∧
    FilledIn B₀ B' P fun v => if v = sense then jmpBb else b'

/-- A final jump that was created with its target. -/
theorem JumpSpec.jumpTo_fills {t : Nat} {x : Instr} {r : Reg} {j : InstrId}
    (h : JumpSpec sem b B b' B' P d) (hd : d.jmp = none) (hx : B'.instrs[d.cmp]? = some x)
    (hr : x.cmpReg? = some r) (ht : t < B'.bblocks.length)
    (hemit : emitInstrCondJmp b' (some t) B'.bblocks.length r B'.alloc = some (j, B'')) :
    ∃ B₀ P, CondSpec sem b B B'.bblocks.length B₀ P (fun _ => False)
      (fun _ v ex => v = !d.result ∧
        ex = .pos B'.bblocks.length (B₀.endPos B'.bblocks.length) fun _ => True) ∧
      FilledIn B₀ B'' P fun v => if v = d.result then t else B'.bblocks.length := by
  have hopen := h.cond.code.isOpen
  have hP := h.noJmp hd
  subst hP
  rw [emitInstrCondJmp_target hopen ht] at hemit
  cases hemit
  refine ⟨B'.condJmpOut b' r, _, (h.addJump hd hx hr).asPending rfl, ?_⟩
  have hfill := FilledIn.setTarget d.result (fun v => if v = d.result then t else B'.bblocks.length)
    (show (B'.condJmpOut b' r).instrs[B'.instrs.length]? =
      some (.condJmp b' none B'.bblocks.length r) by simp)
  simp only [if_true] at hfill
  exact hfill

/-- The code of `IR_process_cfg_cond` when only first jumps have to be removed. -/
theorem processCfgCond_code {e : BExpr} {fuel t : Nat} {sense : Bool}
    (hgood : e.removesFirstOnly = true) (hf : e.size ≤ fuel) (ha : Arena B F) (ho : B.IsOpen b)
    (ht : t < B.bblocks.length) :
    ∃ b' B' F', processCfgCond fuel (emitBExpr fuel e) b sense t B = some (b', B') ∧
      Arena B' F' ∧ CondCode e B b sense t b' B' := by
  obtain ⟨b₁, er, B₁, F₁, hrun, hty, hok⟩ := emitBExpr_ok e hgood hf b B F ha ho
  rw [processCfgCond, bind_run _ _ hrun]
  simp only
  cases hok with
  | value l plain uses val =>
    obtain ⟨cmp, B₂, hcmp, hn, hj⟩ := cmpToZero_ok val plain hty (· != 0) (eval_desired sense)
    obtain ⟨x, r, hx, hr⟩ := hj.cmp
    have ht₂ := ht.trans_le hj.cond.code.emits.length
    obtain ⟨j, B₃, hemit, hn₃, hempty, hc⟩ := hj.jumpTo rfl hx hr ht₂
    have hu := hn₃.uses (hn.uses uses)
    refine ⟨B₂.bblocks.length, B₃, F₁, ?_, hu.arena, hj.cond.code.emits.length,
      by rw [ProcBuilder.endPos, hempty]; rfl, hc, hj.jumpTo_fills rfl hx hr ht₂ hemit⟩
    obtain ⟨ty, k⟩ := er
    have hrun' : (do
        let cmp ← cmpToZero b₁ ⟨ty, k⟩ (if sense = true then .neq else .eq) 0
        let r ← cmpReg cmp
        let last ← allocBBlock
        let _ ← emitInstrCondJmp b₁ (some t) last r
        pure last : Build BBlockId) B₁ = some (B₂.bblocks.length, B₃) := by
      rw [bind_run _ _ hcmp, bind_run _ _ (cmpReg_run hx hr), bind_run _ _ allocBBlock_run,
        bind_run _ _ hemit]
      rfl
    cases k with
    | deferredCmp c => exact absurd rfl (plain.2.2 c)
    | _ => exact hrun'
  | deferred _ he c ids P kind uses list vals jump sense' =>
    obtain ⟨B₂, hfix, hj, hn, hbb⟩ := jump.fix sense
    simp only [kind]
    rw [bind_run _ _ hfix]
    have hlen : ids.length ≤ fuel := by
      rw [list.nodes.length_eq, ← List.length_map Prod.snd, vals]
      exact (e.pending_length_lt.trans_le hf).le
    have ht₂ := ht.trans_le hj.cond.code.emits.length
    rcases Option.eq_none_or_eq_some c.finalJmp.jmp with hnone | ⟨j, hsome⟩
    · -- the final jump is created here
      obtain ⟨x, r, hx, hr⟩ := hj.cmp
      obtain ⟨j, B₃, hemit, hn₃, hempty, hc⟩ := hj.jumpTo hnone hx hr ht₂
      have hu := hn₃.uses (hn.uses uses)
      have hP := jump.noJmp hnone
      subst hP
      have hids : ids = [] := by
        cases list.nodes
        rfl
      subst hids
      refine ⟨B₂.bblocks.length, B₃, F₁, ?_, hu.arena, hj.cond.code.emits.length,
        by rw [ProcBuilder.endPos, hempty]; rfl, hc, hj.jumpTo_fills hnone hx hr ht₂ hemit⟩
      have hfirst : c.firstScJmp = none := list.chain
      simp only [hnone]
      rw [bind_run _ _ allocBBlock_run, bind_run _ _ (cmpReg_run (B := B₂.alloc) hx hr),
        bind_run _ _ hemit, bind_run _ _ (pure_run _),
        bind_run _ _ (deferredScJmps_run (L := []) (by rw [hfirst]; cases fuel <;> rfl))]
      rfl
    · -- the final jump exists
      obtain ⟨s, f, a, hx, hpatch, hc⟩ := hj.patchFinal hsome ht₂
      obtain ⟨-, hempty, hge⟩ := hj.jmp j hsome
      have hpend := hj.asPending hsome
      have hn₂ := hn.trans (SameNodes.setTarget (t := t) hx)
      obtain ⟨L, hL, -, hLP⟩ := scJmpList_ok (hn₂.scList list) hlen
      have hall : (P.filter fun p => (some (if p.2 = sense then t else b₁)).isSome) = P := by simp
      obtain ⟨B₃, hsc, hs₃, hc₃⟩ := patchScJmps_ok (K := [])
        (fun r => some (if r = sense then t else b₁)) hLP (by rw [hall]; exact hc)
        (fun (r : Bool) u (hu : some (if r = sense then t else b₁) = some u) => by
          have hb₁ := hc.code.isOpen.lt
          simp only [Option.some.injEq] at hu
          subst hu
          split
          · simpa using ht₂
          · exact hb₁)
      have hu := hs₃.nodes.uses (hn₂.uses uses)
      have hc' : CondSpec (fun env => e.sem env) b B b₁ B₃ [] (fun _ => False)
          (condExit sense t b₁) := by
        refine hc₃.imp fun C v e _ he => ?_
        rcases he with he | ⟨u, hu, he⟩
        · exact he
        · simp only [Option.some.injEq] at hu
          rw [condExit, hu, he]
      have hnd := hpend.nodup
      rw [List.map_append, List.nodup_append] at hnd
      have hne : ∀ p ∈ P, j ≠ p.1 := fun p hp e =>
        hnd.2.2 p.1 (List.mem_map_of_mem hp) j (List.mem_singleton_self _) e.symm
      obtain ⟨B₄, hsc', hfill⟩ := patchScJmps_fills (fun v => if v = sense then t else b₁) hLP
        (fun p hp => hc.pend p.1 (List.mem_map_of_mem hp)) hnd.1 fun v => by
          have hb₁ := hc.code.isOpen.lt
          split
          · simpa using ht₂
          · exact hb₁
      obtain rfl : B₃ = B₄ := congrArg Prod.snd (Option.some.inj (hsc.symm.trans hsc'))
      have hfinal := FilledIn.setTarget sense (fun v => if v = sense then t else b₁) hx
      simp only [if_true] at hfinal
      have hend : B₃.endPos b₁ = 0 := by
        rw [hs₃.endPos, ProcBuilder.endPos, ProcBuilder.blockInstrs_setTarget, hempty]
        rfl
      refine ⟨b₁, B₃, F₁, ?_, hu.arena, hge, hend, hc', B₂, _, hpend,
        hfinal.trans hfill fun q hq p hp => by
          rw [List.mem_singleton.mp hq]
          exact hne p hp⟩
      simp only [hsome]
      rw [bind_run _ _ hpatch, bind_run _ _ (pure_run _), bind_run _ _ (deferredScJmps_run hL),
        bind_run _ _ hsc]
      rfl

/-- The code of `IR_process_cfg_cond` is right when only first jumps have to be removed. -/
theorem processCfgCond_ok {e : BExpr} {fuel t : Nat} {sense : Bool} (hgood : e.removesFirstOnly = true)
    (hf : e.size ≤ fuel) (ha : Arena B F) (ho : B.IsOpen b) (ht : t < B.bblocks.length) :
    ∃ b' B' F', processCfgCond fuel (emitBExpr fuel e) b sense t B = some (b', B') ∧
      Arena B' F' ∧ B'.IsOpen b' ∧ B.bblocks.length ≤ b' ∧ CondCorrect e B b sense t b' B' := by
  obtain ⟨b', B', F', hrun, harena, hcode⟩ := processCfgCond_code hgood hf ha ho ht
  exact ⟨b', B', F', hrun, harena, hcode.cond.code.isOpen, hcode.new,
    hcode.cond.correct (Nat.ne_of_gt (ht.trans_le hcode.new))⟩

end Nibble.IR
