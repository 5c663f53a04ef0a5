import Nibble.IR.CondSpec

/-!
# Deferred comparisons

The contract of a deferred comparison, and what the operations on its final
jump do to it: inverting the condition (`IR_fix_sc_jmp_path`), creating the
jump (`IR_copy_sc_jmp`), making it a pending jump of a larger expression.
-/

namespace Nibble.IR

variable {B B' B'' B₁ : ProcBuilder} {b b' b'' : Nat} {env : Env}
  {sem : Env → Store → Store × Bool} {P P' : Pending} {d : DeferredJmpcc}

/-- How control leaves at the final comparison when the value is `v`. The condition of the
comparison may have been inverted between `B'` and `B''`. -/
def finalExit (B' B'' : ProcBuilder) (b' : Nat) (d : DeferredJmpcc) (v : Bool) : Exit :=
  let taken := (v == d.result) ^^ (B''.instrs[d.cmp]? != B'.instrs[d.cmp]?)
  match d.jmp with
  | none => .pos b' (B'.endPos b') fun σ => ∃ x r, B'.instrs[d.cmp]? = some x ∧
      x.cmpReg? = some r ∧ σ.regs r = boolWord taken
  | some j => if taken then .jump j else .pos b' (B'.endPos b') fun _ => True

/-- The final jump, if there is one, and the final comparison. -/
def DeferredJmpcc.owns (d : DeferredJmpcc) (i : Nat) : Prop := d.jmp = some i ∨ i = d.cmp

/-- A deferred comparison with the pending jumps `P` and the final jump `d`. -/
structure JumpSpec (sem : Env → Store → Store × Bool) (b : Nat) (B : ProcBuilder) (b' : Nat)
    (B' : ProcBuilder) (P : Pending) (d : DeferredJmpcc) : Prop where
  cond : CondSpec sem b B b' B' P d.owns fun B'' v e => e = finalExit B' B'' b' d v
  cmp : ∃ x r, B'.instrs[d.cmp]? = some x ∧ x.cmpReg? = some r
  jmp : ∀ j, d.jmp = some j → (∃ s f a, B'.instrs[j]? = some (.condJmp s none f a)) ∧
    B'.blockInstrs b' = [] ∧ b' ≥ B.bblocks.length
  noJmp : d.jmp = none → P = []

/-- The node arena is as it was, and jumps keep their targets. -/
structure SameNodes (B B' : ProcBuilder) : Prop where
  scJmps : B'.scJmps = B.scJmps
  scJmpFreelist : B'.scJmpFreelist = B.scJmpFreelist
  targeted : ∀ j, Targeted B j → Targeted B' j

theorem SameNodes.trans (h : SameNodes B B') (h' : SameNodes B' B'') : SameNodes B B'' :=
  ⟨h'.scJmps.trans h.scJmps, h'.scJmpFreelist.trans h.scJmpFreelist, fun j hj => h'.targeted j (h.targeted j hj)⟩

theorem Emits.targeted {j : Nat} (h : Emits b B B') (hj : Targeted B j) : Targeted B' j := by
  obtain ⟨s, t, f, a, hx⟩ := hj
  exact ⟨s, t, f, a, h.getElem? hx⟩

theorem Straight.sameNodes (h : Straight b B B') : SameNodes B B' :=
  ⟨h.scJmps, h.scJmpFreelist, fun _ => h.emits.targeted⟩

theorem SameNodes.setTarget {j s f t : Nat} {a : Reg}
    (hx : B.instrs[j]? = some (.condJmp s none f a)) :
    SameNodes B (B.setTarget j (.condJmp s (some t) f a) s t) := by
  refine ⟨rfl, rfl, fun i hi => ?_⟩
  obtain ⟨s', t', f', a', hi⟩ := hi
  have hne : j ≠ i := by
    rintro rfl
    rw [hx] at hi
    cases hi
  exact ⟨s', t', f', a', by simp [hne, hi]⟩

section Build

variable {α β : Type}

theorem bind_run (x : Build α) (f : α → Build β) {a : α} (h : x B = some (a, B')) :
    (x >>= f) B = f a B' := by
  simp only [bind, StateT.bind, h, Option.bind]

theorem get_run : (get : Build ProcBuilder) B = some (B, B) := rfl

theorem pure_run (a : α) : (pure a : Build α) B = some (a, B) := rfl

theorem setInstr_run (j : InstrId) (i : Instr) :
    setInstr j i B = some ((), { B with instrs := B.instrs.set j i }) := rfl

theorem allocBBlock_run : allocBBlock B = some (B.bblocks.length, B.alloc) := rfl

end Build

theorem xor_flip (v r q : Bool) : ((v == !r) ^^ !q) = ((v == r) ^^ q) := by
  cases v <;> cases r <;> cases q <;> rfl

/-- `IR_fix_sc_jmp_path` makes the final jump stand for `desired`. -/
theorem JumpSpec.fix (h : JumpSpec sem b B b' B' P d) (desired : Bool) : ∃ B₁,
    fixScJmpPath d desired B' = some ({ d with result := desired }, B₁) ∧
    JumpSpec sem b B b' B₁ P { d with result := desired } ∧ SameNodes B' B₁ ∧
    B₁.bblocks = B'.bblocks := by
  obtain ⟨x, r, hx, hr⟩ := h.cmp
  by_cases e : d.result = desired
  · subst e
    refine ⟨B', ?_, h, ⟨rfl, rfl, fun _ hj => hj⟩, rfl⟩
    simp only [fixScJmpPath, ne_eq, not_true_eq_false, if_false]
    rfl
  obtain rfl : desired = !d.result := by
    cases hd : d.result <;> cases desired <;> simp_all
  have hrun : fixScJmpPath d (!d.result) B' = some ({ d with result := !d.result },
      { B' with instrs := B'.instrs.set d.cmp x.flipCond }) := by
    rw [fixScJmpPath, if_pos e, bind_run _ _ get_run]
    simp only [hx]
    rw [bind_run _ _ (setInstr_run _ _)]
    rfl
  have hlt := (List.getElem?_eq_some_iff.mp hx).1
  have hle := (h.cond.code.range d.cmp (.inr (.inr rfl))).1
  have hfut : Future (fun i => i = d.cmp) B' { B' with instrs := B'.instrs.set d.cmp x.flipCond } :=
    .set hx (.flip x)
  have hjne : ∀ {j s f : Nat} {t : Option BBlockId} {a : Reg},
      B'.instrs[j]? = some (Instr.condJmp s t f a) →
      (B'.instrs.set d.cmp x.flipCond)[j]? = some (Instr.condJmp s t f a) := by
    intro j s f t a hj
    have hne : d.cmp ≠ j := by
      rintro rfl
      rw [hx] at hj
      cases hj
      cases hr
    simp [hne, hj]
  refine ⟨_, hrun, ⟨⟨h.cond.code.flip hle hx hr, h.cond.nodup, h.cond.sep, fun j hj => ?_,
    fun env B'' σ hF => ?_⟩, ⟨x.flipCond, r, by simp [hlt], by rw [Instr.cmpReg?_flipCond, hr]⟩,
    fun j hj => ?_, h.noJmp⟩, ⟨rfl, rfl, fun i hi => ?_⟩, rfl⟩
  · obtain ⟨s, f, a, hj'⟩ := h.cond.pend j hj
    exact ⟨s, f, a, hjne hj'⟩
  · have hF' : Future (fun j => B.instrs.length > j ∨ j ∈ P.map Prod.fst ∨ d.owns j) B' B'' :=
      (hfut.trans' hF).mono fun i _ hi => by
        rcases hi with rfl | hi
        · exact .inr (.inr (.inr rfl))
        · exact hi
    obtain ⟨e, he, hreach⟩ := h.cond.run env B'' σ hF'
    refine ⟨e, he.imp id fun he => ?_, hreach⟩
    have hflip : (B''.instrs[d.cmp]? != some x.flipCond) = !(B''.instrs[d.cmp]? != some x) := by
      have hne := flipCond_ne hr
      rcases hF'.cmp hx hr with h1 | h1 <;> simp [h1, hne, Ne.symm hne]
    rw [he]
    simp only [finalExit, hx, hlt, List.getElem?_set_self, hflip, xor_flip, Option.some.injEq,
      exists_and_left, exists_eq_left', Instr.cmpReg?_flipCond]
    rfl
  · obtain ⟨⟨s, f, a, hj'⟩, hempty⟩ := h.jmp j hj
    exact ⟨⟨s, f, a, hjne hj'⟩, hempty⟩
  · obtain ⟨s, t, f, a, hi⟩ := hi
    exact ⟨s, t, f, a, hjne hi⟩

/-! ## Creating the final jump -/

namespace ProcBuilder

/-- A conditional jump without a target at the end of `b`, falling through to a new block. -/
def condJmpOut (B : ProcBuilder) (b : Nat) (r : Reg) : ProcBuilder :=
  (B.alloc.push b (.condJmp b none B.bblocks.length r)).connect b B.bblocks.length

variable {r : Reg}

@[simp] theorem condJmpOut_instrs : (B.condJmpOut b r).instrs =
    B.instrs ++ [.condJmp b none B.bblocks.length r] := rfl
@[simp] theorem condJmpOut_length : (B.condJmpOut b r).bblocks.length = B.bblocks.length + 1 := by
  simp [condJmpOut]

theorem blockInstrs_condJmpOut (hb : b < B.bblocks.length) :
    (B.condJmpOut b r).blockInstrs b = B.blockInstrs b ++ [B.instrs.length] := by
  rw [condJmpOut, blockInstrs_connect, blockInstrs_push_self (by simp; omega), blockInstrs_alloc]
  rfl

theorem blockInstrs_condJmpOut_new (hb : b < B.bblocks.length) :
    (B.condJmpOut b r).blockInstrs B.bblocks.length = [] := by
  rw [condJmpOut, blockInstrs_connect, blockInstrs_push_other (Nat.ne_of_gt hb), blockInstrs_alloc,
    blockInstrs_of_le (Nat.le_refl _)]

theorem code_condJmpOut (ho : B.IsOpen b) :
    Code b B B.bblocks.length (B.condJmpOut b r) (fun i => i = B.instrs.length) := by
  have hlt := ho.lt
  have h1 : Emits b B (B.alloc.push b (.condJmp b none B.bblocks.length r)) :=
    (Emits.alloc b B).trans (.push (by simp; omega)) (.inl rfl)
  refine ⟨h1.trans (.connect b _ _ _) (.inl rfl), ?_, .inr (Nat.le_refl _), fun j hj => ?_, [],
    by simp [condJmpOut], by simp, fun j s t f a hj hx => ⟨fun _ => rfl, fun hne => ?_⟩⟩
  · rw [condJmpOut, isOpen_connect, isOpen_push_other (Nat.ne_of_gt hlt)]
    exact isOpen_alloc_new
  · simp [hj]
  · have := (List.getElem?_eq_some_iff.mp hx).1
    simp only [condJmpOut_instrs, List.length_append, List.length_singleton] at this
    exact absurd (by omega) hne

end ProcBuilder

theorem SameNodes.condJmpOut {r : Reg} (ho : B.IsOpen b) : SameNodes B (B.condJmpOut b r) :=
  ⟨rfl, rfl, fun _ => (ProcBuilder.code_condJmpOut ho).emits.targeted⟩

theorem emitInstrCondJmp_out {r : Reg} (ho : B.IsOpen b) :
    emitInstrCondJmp b none B.bblocks.length r B.alloc = some (B.instrs.length, B.condJmpOut b r) :=
  emitInstrCondJmp_none (ProcBuilder.isOpen_alloc ho) (by simp)

/-- With the target known at once: the same as filling it in. -/
theorem emitInstrCondJmp_target {r : Reg} {t : Nat} (ho : B.IsOpen b) (ht : t < B.bblocks.length) :
    emitInstrCondJmp b (some t) B.bblocks.length r B.alloc = some (B.instrs.length,
      (B.condJmpOut b r).setTarget B.instrs.length (.condJmp b (some t) B.bblocks.length r) b t) := by
  have ho' := ProcBuilder.isOpen_alloc ho
  have hne : B.bblocks.length ≠ t := Nat.ne_of_gt ht
  simp only [emitInstrCondJmp, bind, StateT.bind, addInstr_eq ho', Option.bind, pure, statePure_run,
    notePatched]
  rw [connectBBlocks_eq (by simp; omega)]
  simp only
  rw [connectBBlocks_eq (by simp)]
  simp only [ProcBuilder.condJmpOut, ProcBuilder.setTarget, ProcBuilder.connect, ProcBuilder.push,
    Option.some.injEq, Prod.mk.injEq, true_and, ProcBuilder.mk.injEq]
  refine ⟨rfl, by simp, ?_, rfl⟩
  rw [List.modify_modify_ne _ _ _ hne]
  rfl

theorem lowBytes_boolWord (v : Bool) : lowBytes 1 (boolWord v) ≠ 0 ↔ v = true := by
  cases v <;> decide

theorem cmpReg_run {c : Nat} {x : Instr} {r : Reg} (hx : B.instrs[c]? = some x)
    (hr : x.cmpReg? = some r) : cmpReg c B = some (r, B) := by
  rw [cmpReg, bind_run _ _ get_run]
  simp only [hx, hr]
  rfl

/-- The final comparison gets its jump. -/
theorem JumpSpec.addJump {r : Reg} {x : Instr} (h : JumpSpec sem b B b' B' P d)
    (hd : d.jmp = none) (hx : B'.instrs[d.cmp]? = some x) (hr : x.cmpReg? = some r) :
    JumpSpec sem b B B'.bblocks.length (B'.condJmpOut b' r) P
      { d with jmp := some B'.instrs.length } := by
  have hopen := h.cond.code.isOpen
  have hout := ProcBuilder.code_condJmpOut (r := r) hopen
  have hP := h.noJmp hd
  subst hP
  have hlen := h.cond.code.emits.instrs.length_le
  have hgr := h.cond.code.range d.cmp (.inr (.inr rfl))
  have hnew : (B'.condJmpOut b' r).instrs[B'.instrs.length]? =
      some (.condJmp b' none B'.bblocks.length r) := by simp
  refine ⟨⟨?_, .nil, by simp, by simp, fun env B'' σ hF => ?_⟩, ⟨x, r, hout.emits.getElem? hx, hr⟩,
    fun j hj => ?_, fun hj => by cases hj⟩
  · refine (h.cond.code.trans hout).congr (fun j _ _ _ _ _ => ?_) fun j hj => ?_
    · simp only [DeferredJmpcc.owns, hd, List.map_nil, List.not_mem_nil, Option.some.injEq]
      simp
      tauto
    · simp only [DeferredJmpcc.owns, List.map_nil, List.not_mem_nil, Option.some.injEq,
        false_or] at hj
      simp only [ProcBuilder.condJmpOut_instrs, List.length_append, List.length_singleton]
      rcases hj with rfl | rfl <;> omega
  · have hF' : Future (fun j => B.instrs.length > j ∨ j ∈ ([] : Pending).map Prod.fst ∨ d.owns j)
        B' B'' := by
      refine (hout.emits.future.trans' hF).mono fun i hi hm => ?_
      simp only [DeferredJmpcc.owns, Option.some.injEq, false_or, List.map_nil,
        List.not_mem_nil] at hm ⊢
      rcases hm with hm | rfl | hm
      · exact .inl hm
      · omega
      · exact .inr (.inr hm)
    obtain ⟨e, he, hreach⟩ := h.cond.run env B'' σ hF'
    rcases he with ⟨j, hj, -⟩ | rfl
    · cases hj
    simp only [finalExit, hd] at hreach
    obtain ⟨σ₁, ha₁, ⟨x', r', hx', hr', hreg⟩, hs₁⟩ := hreach
    obtain rfl : x' = x := Option.some.inj (hx'.symm.trans hx)
    obtain rfl : r' = r := Option.some.inj (hr'.symm.trans hr)
    obtain ⟨t', ht', -⟩ := hF.condJmp hnew
    have hat : B''.instrAt b' (B'.endPos b') =
        some (B'.instrs.length, .condJmp b' t' B'.bblocks.length r') := by
      refine hF.instrAt ?_ ht'
      rw [ProcBuilder.blockInstrs_condJmpOut hopen.lt]
      simp [ProcBuilder.endPos]
    have hcmp : (B'.condJmpOut b' r').instrs[d.cmp]? = B'.instrs[d.cmp]? := by
      rw [hout.emits.getElem? hx, hx]
    have hend : (B'.condJmpOut b' r').endPos B'.bblocks.length = 0 := by
      rw [ProcBuilder.endPos, ProcBuilder.blockInstrs_condJmpOut_new hopen.lt]
      rfl
    refine ⟨_, .inr rfl, ?_⟩
    simp only [finalExit, hcmp, hend]
    by_cases ht : ((sem env σ.store).2 == d.result ^^
        (B''.instrs[d.cmp]? != B'.instrs[d.cmp]?)) = true
    · rw [if_pos ht]
      rw [ht] at hreg
      refine ⟨_, _, _, _, ht', fun u hu => ?_⟩
      subst hu
      refine ⟨{ σ₁ with prev := b' }, ⟨ha₁.store, ha₁.regs⟩, hs₁.trans (Steps.one (step_condJmp_true hat ?_))⟩
      rw [hreg]
      decide
    · rw [if_neg ht]
      rw [Bool.not_eq_true] at ht
      rw [ht] at hreg
      refine ⟨{ σ₁ with prev := b' }, ⟨ha₁.store, ha₁.regs⟩, trivial, hs₁.trans (Steps.one (step_condJmp_false hat ?_))⟩
      rw [hreg]
      decide
  · cases hj
    exact ⟨⟨_, _, _, hnew⟩, ProcBuilder.blockInstrs_condJmpOut_new hopen.lt,
      h.cond.code.emits.length⟩

/-- `IR_copy_sc_jmp`. -/
theorem copyScJmp_ok (h : JumpSpec sem b B b' B' P d) (desired : Bool) : ∃ d' b₂ B₂,
    copyScJmp b' d desired B' = some ((d', b₂), B₂) ∧ JumpSpec sem b B b₂ B₂ P d' ∧
    d'.result = desired ∧ (∃ j, d'.jmp = some j) ∧ SameNodes B' B₂ := by
  obtain ⟨B₁, hrun, h₁, hn, hbb⟩ := h.fix desired
  rw [copyScJmp, bind_run _ _ hrun]
  rcases Option.eq_none_or_eq_some d.jmp with hj | ⟨j, hj⟩
  · obtain ⟨x, r, hx, hr⟩ := h₁.cmp
    refine ⟨_, _, _, ?_, h₁.addJump hj hx hr, rfl, ⟨_, rfl⟩, hn.trans
      (.condJmpOut h₁.cond.code.isOpen)⟩
    simp only [hj]
    rw [bind_run _ _ allocBBlock_run, bind_run _ _ (cmpReg_run (B := B₁.alloc) hx hr),
      bind_run _ _ (emitInstrCondJmp_out h₁.cond.code.isOpen)]
    rfl
  · refine ⟨{ d with result := desired }, b', B₁, ?_, h₁, rfl, ⟨j, hj⟩, hn⟩
    simp only [hj]
    rfl

/-- The final jump counts as one more pending jump; without it control falls through. -/
theorem JumpSpec.asPending {j : Nat} (h : JumpSpec sem b B b' B' P d) (hj : d.jmp = some j) :
    CondSpec sem b B b' B' (P ++ [(j, d.result)]) (fun _ => False) fun _ v e =>
      v = !d.result ∧ e = .pos b' (B'.endPos b') fun _ => True := by
  obtain ⟨x, r, hx, hr⟩ := h.cmp
  obtain ⟨⟨s, f, a, hjx⟩, -⟩ := h.jmp j hj
  have hcmp : ∀ i ∈ (P ++ [(j, d.result)]).map Prod.fst, i ≠ d.cmp := by
    rintro i hi rfl
    have hcond : ∃ s f a, B'.instrs[d.cmp]? = some (.condJmp s none f a) := by
      simp only [List.map_append, List.map_cons, List.map_nil, List.mem_append,
        List.mem_singleton] at hi
      rcases hi with hi | hi
      · exact h.cond.pend _ hi
      · rw [hi]
        exact ⟨s, f, a, hjx⟩
    obtain ⟨s', f', a', hx'⟩ := hcond
    rw [hx] at hx'
    cases hx'
    cases hr
  have hjP : j ∉ P.map Prod.fst := fun hm => h.cond.sep j hm (.inl hj)
  have hmem : ∀ i, i ∈ (P ++ [(j, d.result)]).map Prod.fst ↔ i ∈ P.map Prod.fst ∨ i = j := by
    intro i
    simp only [List.map_append, List.map_cons, List.map_nil, List.mem_append, List.mem_singleton]
  refine ⟨?_, ?_, fun _ _ hf => hf, fun i hi => ?_, fun env B'' σ hF => ?_⟩
  · refine h.cond.code.congr (fun i s t f a hi => ?_) fun i hi => ?_
    · rw [hmem, or_false]
      refine or_congr_right ⟨fun e => .inl (e ▸ hj), fun ho => ?_⟩
      rcases ho with ho | rfl
      · exact (Option.some.inj (hj.symm.trans ho)).symm
      · rw [hx] at hi
        cases hi
        cases hr
    · rw [hmem, or_false] at hi
      exact h.cond.code.range i (hi.imp id fun e : i = j => .inl (e ▸ hj))
  · simp only [List.map_append, List.map_cons, List.map_nil]
    rw [List.nodup_append]
    refine ⟨h.cond.nodup, by simp, fun i hi k hk e => ?_⟩
    rw [List.mem_singleton] at hk
    exact hjP (hk ▸ e ▸ hi)
  · rcases (hmem i).mp hi with hi | rfl
    · exact h.cond.pend i hi
    · exact ⟨s, f, a, hjx⟩
  · have hF' : Future (fun i => B.instrs.length > i ∨ i ∈ P.map Prod.fst ∨ d.owns i) B' B'' :=
      hF.mono fun i _ hi => by
        rw [hmem, or_false] at hi
        exact hi.imp id (Or.imp id fun e : i = j => .inl (e ▸ hj))
    obtain ⟨e, he, hr'⟩ := h.cond.run env B'' σ hF'
    have hfix : B''.instrs[d.cmp]? = B'.instrs[d.cmp]? := by
      have hlow := (h.cond.code.range d.cmp (.inr (.inr rfl))).1
      rw [hx]
      refine hF.fixed hx ?_
      rintro (hlt | hm | hf)
      · omega
      · exact hcmp _ hm rfl
      · exact hf
    rcases he with ⟨k, hk, rfl⟩ | rfl
    · exact ⟨.jump k, .inl ⟨k, List.mem_append_left _ hk, rfl⟩, hr'⟩
    · simp only [finalExit, hj, hfix, bne_self_eq_false, Bool.xor_false] at hr'
      by_cases hv : (sem env σ.store).2 = d.result
      · rw [if_pos (by simp [hv])] at hr'
        exact ⟨.jump j, .inl ⟨j, by simp [hv], rfl⟩, hr'⟩
      · rw [if_neg (by simpa using hv)] at hr'
        exact ⟨_, .inr ⟨by
          cases hd : d.result <;> cases hs : (sem env σ.store).2 <;> simp_all, rfl⟩, hr'⟩

/-! ## Comparisons -/

/-- A comparison that has been emitted, after code that computes its operands. -/
theorem JumpSpec.ofCmp {α : Type} {sem : Env → Store → Store × α}
    {Q : Env → MState → α → Prop} {i : Instr} {res : Bool} (truth : Env → α → Bool)
    (h : ValSpec sem b B b' B' Q) (hr : i.cmpReg? = some B'.numRegs)
    (hex : ∀ env σ v objs, Q env σ v → B'.memObjs <+: objs → ∀ q : Bool,
      execInstr env objs (if q then i.flipCond else i) σ =
        some (σ.setReg B'.numRegs (boolWord ((truth env v == res) ^^ q)))) :
    JumpSpec (fun env st => ((sem env st).1, truth env (sem env st).2)) b B b'
      (B'.takeReg.push b' i) [] ⟨res, none, B'.instrs.length, none⟩ := by
  have hctl : i.isControl = false := by
    cases i <;> first | rfl | cases hr
  have hopen := h.code.isOpen
  have hs : Straight b' B' (B'.takeReg.push b' i) := (Straight.takeReg hopen).trans (.push hopen hctl)
  have hx : (B'.takeReg.push b' i).instrs[B'.instrs.length]? = some i := by simp
  have hlen := h.code.emits.instrs.length_le
  refine ⟨⟨?_, .nil, by simp, by simp, fun env B'' σ hF => ?_⟩, ⟨i, _, hx, hr⟩,
    fun j hj => (by cases hj), fun _ => rfl⟩
  · refine (h.code.straight hs).congr (fun j s t f a hj => ?_) fun j hj => ?_
    · simp only [DeferredJmpcc.owns, List.map_nil, List.not_mem_nil, false_or, reduceCtorEq,
        iff_false]
      rintro rfl
      rw [hx] at hj
      cases hj
      cases hr
    · simp only [DeferredJmpcc.owns, List.map_nil, List.not_mem_nil, false_or, reduceCtorEq] at hj
      simp [hj, hlen]
  · obtain ⟨σ₁, hr₁, ha₁, hq₁⟩ := h.run env σ
    have hlow : B.instrs.length ≤ B'.instrs.length := hlen
    have hbase : Future (fun j => B.instrs.length > j) B' B'' := by
      refine (hs.emits.future.trans' hF).mono fun j hj hm => ?_
      simp only [DeferredJmpcc.owns, List.map_nil, List.not_mem_nil, false_or, reduceCtorEq] at hm
      rcases hm with hm | rfl
      · exact hm
      · omega
    obtain ⟨y, hat, hy, -⟩ := Future.pushed (B := B'.takeReg) (b := b') hF hopen.lt
    have hyi : y = i ∨ y = i.flipCond := by
      rcases hF.cmp hx hr with h1 | h1
      · exact .inl (Option.some.inj (hy.symm.trans h1))
      · exact .inr (Option.some.inj (hy.symm.trans h1))
    have hne := flipCond_ne hr
    have hq : y = if (B''.instrs[B'.instrs.length]? != some i) then i.flipCond else i := by
      have hy' : B''.instrs[B'.instrs.length]? = some y := hy
      rw [hy']
      rcases hyi with rfl | rfl
      · simp
      · simp [hne]
    refine ⟨_, .inr rfl, ?_⟩
    simp only [finalExit, hx]
    refine ⟨σ₁.setReg B'.numRegs (boolWord ((truth env (sem env σ.store).2 == res) ^^
      (B''.instrs[B'.instrs.length]? != some i))), ?_, ⟨i, _, rfl, hr, by simp⟩, ?_⟩
    · exact ⟨ha₁.store, fun r hr => (MState.setReg_other _ _ (Nat.ne_of_lt
        (hr.trans_le h.code.emits.numRegs))).trans (ha₁.regs r hr)⟩
    · refine (hr₁ B'' hbase).trans (Steps.one ?_)
      rw [endPos_push_self (B := B'.takeReg) hopen.lt]
      refine step_exec hat ?_ ?_
      · rcases hyi with rfl | rfl
        · exact hctl
        · cases i <;> first | rfl | cases hr
      · rw [hq]
        exact hex env σ₁ _ _ hq₁ hF.memObjs _

end Nibble.IR
