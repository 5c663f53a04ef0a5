import Nibble.IR.JumpSpec

/-!
# Emission of conditions

Every step of the emission of a boolean expression keeps the contract: the
comparison with zero, the comparison of two operands, `!`, and the merge of
the operands of `&&` and `||`. For an expression in which no operator removes
a pending jump from the middle of a list, emission yields a correct deferred
comparison.
-/

namespace Nibble.IR

open Nibble.Lib

variable {B B' B'' B₁ : ProcBuilder} {b b' b'' : Nat} {env : Env} {er : ExprResult}

/-! ## Comparisons -/

/-- The state of a boolean value that has been emitted. -/
abbrev HasByte (B : ProcBuilder) (er : ExprResult) (env : Env) (σ : MState) (v : BitVec 8) : Prop :=
  ∃ w, Settled B σ (readValue er env) w ∧ lowBytes 1 w = v

theorem ValSpec.convert {α : Type} {sem : Env → Store → Store × α} {Q : Env → MState → α → Prop}
    {f g : Env → List MemObj → MState → Option Word} {R : α → Word → Prop}
    (h : ValSpec sem b B b' B' Q) (hc : Converts b' B' f g B'')
    (hQ : ∀ env σ v, Q env σ v → ∃ w, Settled B' σ (f env) w ∧ R v w) :
    ValSpec sem b B b' B'' fun env σ v => ∃ w, Settled B'' σ (g env) w ∧ R v w :=
  h.straight hc.straight fun env σ v hq => by
    obtain ⟨w, hw, hR⟩ := hQ env σ v hq
    obtain ⟨σ', hr, ha, hw'⟩ := hc.run env σ w hw
    exact ⟨σ', hr, ha, w, hw', hR⟩

theorem nextReg_run : nextReg B = some (B.numRegs, B.takeReg) := rfl

theorem cmpToZero_ok {sem : Env → Store → Store × BitVec 8} (h : ValSpec sem b B b' B' (HasByte B' er))
    (hp : er.IsPlain) (ht : er.type = boolTy) {cond : ConditionKind} (truth : BitVec 8 → Bool)
    {res : Bool} (hc : ∀ v : BitVec 8, cond.eval v 0 = (truth v == res)) : ∃ cmp B'',
    cmpToZero b' er cond 0 B' = some (cmp, B'') ∧ SameNodes B' B'' ∧
    JumpSpec (fun env st => ((sem env st).1, truth (sem env st).2)) b B b' B'' []
      ⟨res, none, cmp, none⟩ := by
  obtain ⟨t, k⟩ := er
  obtain rfl : t = boolTy := ht
  obtain ⟨a, B₁, hrun, hconv⟩ := valueToOpRIA_ok h.code.isOpen hp
  have h₁ := h.convert (R := fun v w => lowBytes 1 w = v) hconv fun _ _ _ hq => hq
  have hopen := h₁.code.isOpen
  refine ⟨B₁.instrs.length, B₁.takeReg.push b' (.intCmp boolTy cond B₁.numRegs a (.imm 0)), ?_,
    hconv.straight.sameNodes.trans
      ((Straight.takeReg hopen).trans (.push hopen rfl)).sameNodes, ?_⟩
  · rw [cmpToZero, if_pos (show boolTy.isIntScalar = true from rfl), bind_run _ _ hrun, bind_run _ _ nextReg_run]
    exact addInstr_eq (B := B₁.takeReg) hopen
  · refine JumpSpec.ofCmp (fun _ v => truth v) h₁ rfl fun env σ v objs hq ho q => ?_
    obtain ⟨w, hw, rfl⟩ := hq
    have hread := hw.now ho
    have hex : ∀ c : ConditionKind, execInstr env objs (.intCmp boolTy c B₁.numRegs a (.imm 0)) σ =
        some (σ.setReg B₁.numRegs (boolWord (c.eval (lowBytes 1 w) 0))) := by
      intro c
      simp only [execInstr, hread, Option.bind_eq_bind, Option.bind_some]
      rfl
    cases q with
    | false => simp only [Bool.false_eq_true, if_false, hex, hc, Bool.xor_false]
    | true => simp only [if_true, Instr.flipCond, hex, eval_oppositeCond, hc, Bool.xor_true]

theorem eval_eq_zero (v : BitVec 8) : ConditionKind.eval .eq v 0 = ((!(v != 0)) == true) := by
  by_cases hv : v = 0 <;> simp [ConditionKind.eval, hv, bne]

theorem eval_desired (desired : Bool) (v : BitVec 8) :
    ConditionKind.eval (if desired then .neq else .eq) v 0 = ((v != 0) == desired) := by
  cases desired with
  | true => simp [ConditionKind.eval]
  | false => by_cases hv : v = 0 <;> simp [ConditionKind.eval, hv, bne]

/-- The state of the two sides of a comparison. -/
abbrev HasBoth (B : ProcBuilder) (f g : Env → List MemObj → MState → Option Word) (env : Env)
    (σ : MState) (v : Word × Word) : Prop :=
  Settled B σ (f env) v.1 ∧ Settled B σ (g env) v.2

section

variable {sem : Env → Store → Store × Word × Word}
  {f f' g g' : Env → List MemObj → MState → Option Word}

theorem Settled.converts {v : Word} {f : List MemObj → MState → Option Word} {σ σ' : MState}
    (h : Settled B' σ f v) (hs : Straight b' B' B'') (ha : After B'.numRegs σ σ.store σ') :
    Settled B'' σ' f v :=
  h.mono hs.emits.memObjs hs.emits.numRegs ha

theorem ValSpec.convertFst (h : ValSpec sem b B b' B' (HasBoth B' f g)) (hc : Converts b' B' f f' B'') :
    ValSpec sem b B b' B'' (HasBoth B'' f' g) :=
  h.straight hc.straight fun env σ v hq => by
    obtain ⟨σ', hr, ha, hw⟩ := hc.run env σ v.1 hq.1
    exact ⟨σ', hr, ha, hw, hq.2.converts hc.straight ha⟩

theorem ValSpec.convertSnd (h : ValSpec sem b B b' B' (HasBoth B' f g)) (hc : Converts b' B' g g' B'') :
    ValSpec sem b B b' B'' (HasBoth B'' f g') :=
  h.straight hc.straight fun env σ v hq => by
    obtain ⟨σ', hr, ha, hw⟩ := hc.run env σ v.2 hq.2
    exact ⟨σ', hr, ha, hq.1.converts hc.straight ha, hw⟩

end

theorem Operands.holds_int {o : Operands} (h : o.type.isIntScalar = true) (c : ConditionKind)
    (x y : Word) : o.holds env c x y = c.eval (lowBytes o.type.size x) (lowBytes o.type.size y) := by
  unfold Operands.holds
  split
  · rename_i k hk
    rw [hk] at h
    cases h
  · rfl

theorem Operands.holds_float {o : Operands} {k : FloatKind} (h : o.type = .float k)
    (c : ConditionKind) (x y : Word) : o.holds env c x y = c.evalFlt (env.fltOrder k x y) := by
  unfold Operands.holds
  split
  · rename_i k' hk
    cases h.symm.trans hk
    rfl
  · rename_i hk
    exact absurd h (hk k)

theorem emitBinaryCmp_ok {o : Operands} {x y : ExprResult} (cond : ConditionKind)
    (h : ValSpec o.sem b B b' B' (HasBoth B' (readValue x) (readValue y)))
    (hx : x.IsPlain ∧ x.type = o.type) (hy : y.IsPlain ∧ y.type = o.type) : ∃ cmp B'',
    emitBinaryCmp b' cond x y B' = some (cmp, B'') ∧ SameNodes B' B'' ∧
    JumpSpec (fun env => (BExpr.cmp cond o).sem env) b B b' B'' [] ⟨true, none, cmp, none⟩ := by
  obtain ⟨tx, kx⟩ := x
  obtain ⟨ty, ky⟩ := y
  obtain ⟨hxp, rfl : tx = o.type⟩ := hx
  obtain ⟨hyp, rfl : ty = o.type⟩ := hy
  have hopen := h.code.isOpen
  rw [emitBinaryCmp, bind_run _ _ (check_eq (by simp))]
  simp only
  by_cases hint : o.type.isIntScalar = true
  · rw [if_pos hint]
    obtain ⟨a, B₁, hrun₁, hc₁⟩ := valueToOpRIA_ok hopen hxp
    obtain ⟨c, B₂, hrun₂, hc₂⟩ := valueToOpRIA_ok hc₁.straight.isOpen hyp
    have h₂ := (h.convertFst hc₁).convertSnd hc₂
    refine ⟨B₂.instrs.length, B₂.takeReg.push b' (.intCmp o.type cond B₂.numRegs a c), ?_,
      (hc₁.straight.trans hc₂.straight).sameNodes.trans
        ((Straight.takeReg h₂.code.isOpen).trans (.push h₂.code.isOpen rfl)).sameNodes, ?_⟩
    · rw [bind_run _ _ hrun₁, bind_run _ _ hrun₂, bind_run _ _ nextReg_run]
      exact addInstr_eq (B := B₂.takeReg) h₂.code.isOpen
    · refine JumpSpec.ofCmp (i := .intCmp o.type cond B₂.numRegs a c) (fun env v => o.holds env cond v.1 v.2) h₂ rfl
        fun env σ v objs hq ho q => ?_
      have hra := hq.1.now ho
      have hrc := hq.2.now ho
      have hex : ∀ k : ConditionKind, execInstr env objs (.intCmp o.type k B₂.numRegs a c) σ =
          some (σ.setReg B₂.numRegs (boolWord (k.eval (lowBytes o.type.size v.1)
            (lowBytes o.type.size v.2)))) := by
        intro k
        simp only [execInstr, hra, hrc, Option.bind_eq_bind, Option.bind_some]
      cases q with
      | false => simp only [Bool.false_eq_true, if_false, hex, Operands.holds_int hint, beq_true,
          Bool.xor_false]
      | true => simp only [if_true, Instr.flipCond, hex, eval_oppositeCond, Operands.holds_int hint,
          beq_true, Bool.xor_true]
  · obtain ⟨k, hk⟩ := o.scalar.resolve_left hint
    rw [if_neg hint]
    have hkind : o.type.floatKind? = some k := by rw [hk]; rfl
    have hsize : o.type.size = floatKindSize k := by rw [hk]; rfl
    simp only [hkind]
    obtain ⟨a, B₁, hrun₁, hc₁⟩ := valueToReg_ok hopen hxp
    obtain ⟨c, B₂, hrun₂, hc₂⟩ := valueToOpRA_ok hc₁.straight.isOpen hyp
    have h₂ := (h.convertFst hc₁).convertSnd hc₂
    refine ⟨B₂.instrs.length, B₂.takeReg.push b' (.fltCmp k cond B₂.numRegs a c), ?_,
      (hc₁.straight.trans hc₂.straight).sameNodes.trans
        ((Straight.takeReg h₂.code.isOpen).trans (.push h₂.code.isOpen rfl)).sameNodes, ?_⟩
    · rw [bind_run _ _ hrun₁, bind_run _ _ hrun₂, bind_run _ _ nextReg_run]
      exact addInstr_eq (B := B₂.takeReg) h₂.code.isOpen
    · refine JumpSpec.ofCmp (i := .fltCmp k cond B₂.numRegs a c) (fun env v => o.holds env cond v.1 v.2) h₂ rfl
        fun env σ v objs hq ho q => ?_
      have hra : σ.regs a = v.1 := Option.some.inj (hq.1.now ho)
      have hrc := hq.2.now ho
      simp only [hsize] at hrc
      have hex : ∀ d : ConditionKind, execInstr env objs (.fltCmp k d B₂.numRegs a c) σ =
          some (σ.setReg B₂.numRegs (boolWord (d.evalFlt (env.fltOrder k v.1 v.2)))) := by
        intro d
        simp only [execInstr, hra, hrc, Option.bind_eq_bind, Option.bind_some]
      cases q with
      | false => simp only [Bool.false_eq_true, if_false, hex, Operands.holds_float hk, beq_true,
          Bool.xor_false]
      | true => simp only [if_true, Instr.flipCond, hex, evalFlt_oppositeCond,
          Operands.holds_float hk, beq_true, Bool.xor_true]

/-- A boolean value compared to zero, with a jump that is taken when it is `desired`. -/
theorem jmpOnValue_ok {sem : Env → Store → Store × BitVec 8} (h : ValSpec sem b B b' B' (HasByte B' er))
    (hp : er.IsPlain) (ht : er.type = boolTy) (desired : Bool) : ∃ d b₂ B₂ j,
    jmpOnValue b' er desired B' = some ((d, b₂), B₂) ∧ SameNodes B' B₂ ∧ d.result = desired ∧
    d.jmp = some j ∧
    JumpSpec (fun env st => ((sem env st).1, (sem env st).2 != 0)) b B b₂ B₂ [] d := by
  obtain ⟨a, B₁, hrun₁, hc₁⟩ := valueToReg_ok h.code.isOpen hp
  have h₁ : ValSpec sem b B b' B₁ (HasByte B₁ ⟨er.type, .reg a⟩) :=
    h.convert (R := fun v w => lowBytes 1 w = v) hc₁ fun _ _ _ hq => hq
  have hp₁ : (⟨er.type, .reg a⟩ : ExprResult).IsPlain := ⟨hp.1, by simp, by simp⟩
  obtain ⟨cmp, B₂, hrun₂, hn₂, h₂⟩ := cmpToZero_ok h₁ hp₁ ht (· != 0) (eval_desired desired)
  obtain ⟨x, r, hx, hr⟩ := h₂.cmp
  refine ⟨⟨desired, some B₂.instrs.length, cmp, none⟩, B₂.bblocks.length, B₂.condJmpOut b' r,
    B₂.instrs.length, ?_, hc₁.straight.sameNodes.trans (hn₂.trans (.condJmpOut h₂.cond.code.isOpen)), rfl, rfl,
    h₂.addJump rfl hx hr⟩
  rw [jmpOnValue, bind_run _ _ hrun₁, bind_run _ _ hrun₂, bind_run _ _ (cmpReg_run hx hr),
    bind_run _ _ allocBBlock_run, bind_run _ _ (emitInstrCondJmp_out h₂.cond.code.isOpen)]
  rfl

/-! ## Writing to the node arena only -/

theorem SameCode.future {M : InstrId → Prop} (h : SameCode B B') (hF : Future M B' B'') :
    Future M B B'' := by
  obtain ⟨ns, fl, rfl⟩ := h
  exact ⟨hF.instrs, hF.memObjs, hF.blocks⟩

theorem SameCode.code {O : Nat → Prop} (h : SameCode B' B'') (hc : Code b B b' B' O) :
    Code b B b' B'' O := by
  obtain ⟨ns, fl, rfl⟩ := h
  obtain ⟨⟨h1, h2, h3, h4, h5, h6, h7⟩, h8, h9, h10, h11⟩ := hc
  exact ⟨⟨h1, h2, h3, h4, h5, h6, h7⟩, h8, h9, h10, h11⟩

theorem SameCode.instrs (h : SameCode B B') : B'.instrs = B.instrs := by
  obtain ⟨ns, fl, rfl⟩ := h
  rfl

theorem SameCode.bblocks (h : SameCode B B') : B'.bblocks = B.bblocks := by
  obtain ⟨ns, fl, rfl⟩ := h
  rfl

theorem SameCode.blockInstrs (h : SameCode B B') (k : Nat) : B'.blockInstrs k = B.blockInstrs k := by
  simp only [ProcBuilder.blockInstrs, h.bblocks]

theorem SameCode.endPos (h : SameCode B B') (k : Nat) : B'.endPos k = B.endPos k := by
  simp only [ProcBuilder.endPos, h.blockInstrs]

section

variable {sem : Env → Store → Store × Bool} {P : Pending} {M : Nat → Prop} {d : DeferredJmpcc}
  {Al : ProcBuilder → Bool → Exit → Prop}

theorem CondSpec.sameCode (h : CondSpec sem b B b' B' P M Al) (hs : SameCode B' B'') :
    CondSpec sem b B b' B'' P M Al :=
  ⟨hs.code h.code, h.nodup, h.sep, by rw [hs.instrs]; exact h.pend,
    fun env C σ hF => h.run env C σ (hs.future hF)⟩

theorem JumpSpec.sameCode (h : JumpSpec sem b B b' B' P d) (hs : SameCode B' B'') :
    JumpSpec sem b B b' B'' P d := by
  refine ⟨(h.cond.sameCode hs).imp fun C v e _ he => ?_, by rw [hs.instrs]; exact h.cmp, ?_, h.noJmp⟩
  · rw [he]
    simp only [finalExit, hs.instrs, hs.endPos]
  · rw [hs.instrs]
    intro j hj
    rw [hs.blockInstrs]
    exact h.jmp j hj

/-- `!` on a deferred comparison. -/
theorem JumpSpec.neg (h : JumpSpec sem b B b' B' P d) :
    JumpSpec (fun env st => ((sem env st).1, !(sem env st).2)) b B b' B'
      (P.map fun p => (p.1, !p.2)) { d with result := !d.result } := by
  refine ⟨h.cond.neg.imp fun C v e _ he => ?_, h.cmp, h.jmp, fun hj => by simp [h.noJmp hj]⟩
  rw [he]
  have hv : ((!v) == d.result) = (v == !d.result) := by cases v <;> cases d.result <;> rfl
  simp only [finalExit, hv]

end

/-! ## Merging a left operand -/

section

variable {sem : Env → Store → Store × Bool} {F F' ids : List Nat} {P : Pending} {c lc : DeferredCmp}
  {w scVal : Bool}

/-- The loop over the jumps of the left operand leaves those of its own short-circuit value. -/
theorem patchOppositeScJmps_keep {t fuel : Nat} {prev it : Option NodeId}
    (hc : IsChain (nextOf B.scJmps) it ids) (hn : List.Forall₂ (Describes B.scJmps) ids P)
    (hP : ∀ p ∈ P, p.2 = scVal) (hf : ids.length ≤ fuel) :
    patchOppositeScJmps t scVal fuel c prev it B = some (c, B) := by
  induction hn generalizing fuel prev it with
  | nil =>
    obtain rfl : it = none := hc
    cases fuel <;> rfl
  | @cons n p ids P hd _ ih =>
    obtain ⟨rfl, hrest⟩ := hc
    obtain ⟨node, hnode, -, hres⟩ := hd
    have hkeep : node.result = scVal := hres.trans (hP p List.mem_cons_self)
    cases fuel with
    | zero => simp at hf
    | succ fuel =>
      rw [patchOppositeScJmps, bind_run _ _ get_run]
      rw [nextOf, hnode] at hrest
      simp only [hnode, hkeep, ne_eq, not_true_eq_false, if_false]
      exact ih hrest (fun q hq => hP q (List.mem_cons_of_mem _ hq)) (by simpa using hf)

theorem SameNodes.uses {B₀ : ProcBuilder} (h : SameNodes B B') (hu : Uses F B₀ F' ids B) :
    Uses F B₀ F' ids B' :=
  hu.congr h.scJmps h.scJmpFreelist h.targeted

theorem SameNodes.scList (h : SameNodes B B') (hc : ScList B c ids P) : ScList B' c ids P :=
  hc.congr fun n _ => by rw [h.scJmps]

/-- What is left of a condition once its left operand has been dealt with: short-circuit jumps for
`scVal`, and control falling through for the other value. -/
structure LeftSpec (sem : Env → Store → Store × Bool) (scVal : Bool) (b : Nat) (B : ProcBuilder)
    (F : List Nat) (vals : List Bool) (c : DeferredCmp) (b' : Nat) (B' : ProcBuilder)
    (F' ids : List Nat) (P : Pending) : Prop where
  uses : Uses F B F' ids B'
  list : ScList B' c ids P
  ne : ids ≠ []
  vals : P.map Prod.snd = vals
  agree : ∀ p ∈ P, p.2 = scVal
  cond : CondSpec sem b B b' B' P (fun _ => False) fun _ v e =>
    v = !scVal ∧ e = .pos b' (B'.endPos b') fun _ => True

theorem mergeLeft_ok {fuel : Nat} (hu : Uses F B F' ids B') (hl : ScList B' lc ids P)
    (hj : JumpSpec sem b B b' B' P lc.finalJmp) (hP : ∀ p ∈ P.tail, p.2 = scVal)
    (hf : ids.length < fuel) : ∃ c b₂ B₂ F₂ ids₂ P₂,
    mergeLeft fuel scVal b' lc B' = some ((c, b₂), B₂) ∧
    LeftSpec sem scVal b B F ((P.map Prod.snd).filter (· == scVal) ++ [scVal]) c b₂ B₂ F₂ ids₂ P₂ := by
  obtain ⟨d, b₂, B₁, hcopy, hj₁, hres, ⟨j, hdj⟩, hn₁⟩ := copyScJmp_ok hj scVal
  obtain ⟨c, B₂, F₂, id, hnew, hs₂, hu₂, hl₂, -⟩ :=
    newDeferredScJmp_ok d.cmp j scVal (hn₁.uses hu) (hn₁.scList hl)
  have hc₂ : CondSpec sem b B b₂ B₂ (P ++ [(j, scVal)]) (fun _ => False) fun _ v e =>
      v = !scVal ∧ e = .pos b₂ (B₂.endPos b₂) fun _ => True := by
    rw [← hres]
    refine ((hj₁.asPending hdj).sameCode hs₂).imp fun C v e _ he => ?_
    rw [hs₂.endPos]
    exact he
  have hempty : B₂.blockInstrs b₂ = [] := by
    rw [hs₂.blockInstrs]
    exact (hj₁.jmp j hdj).2.1
  have hlen : (ids ++ [id]).length ≤ fuel := by simp; omega
  have hrun : ∀ {c' C}, patchOppositeScJmps b₂ scVal fuel c none c.firstScJmp B₂ = some (c', C) →
      mergeLeft fuel scVal b' lc B' = some ((c', b₂), C) := by
    intro c' C hr
    rw [mergeLeft, bind_run _ _ hcopy]
    simp only [hdj, hres]
    rw [bind_run _ _ hnew, bind_run _ _ hr]
    rfl
  by_cases hall : ∀ p ∈ P, p.2 = scVal
  · -- nothing is removed
    have hagree : ∀ p ∈ P ++ [(j, scVal)], p.2 = scVal := by
      intro p hp
      rcases List.mem_append.mp hp with hp | hp
      · exact hall p hp
      · rw [List.mem_singleton.mp hp]
    refine ⟨c, b₂, B₂, F₂, _, _, hrun (patchOppositeScJmps_keep hl₂.chain hl₂.nodes hagree hlen),
      hu₂, hl₂, by simp, ?_, hagree, hc₂⟩
    have : (P.map Prod.snd).filter (· == scVal) = P.map Prod.snd := by
      rw [List.filter_eq_self]
      intro v hv
      obtain ⟨p, hp, rfl⟩ := List.mem_map.mp hv
      simp [hall p hp]
    simp [this]
  · -- the first one is
    obtain ⟨p, P, rfl⟩ : ∃ p P', P = p :: P' := by
      cases P with
      | nil => exact absurd (by simp) hall
      | cons p P => exact ⟨p, P, rfl⟩
    have htail : ∀ q ∈ P, q.2 = scVal := hP
    have hp : p.2 ≠ scVal := fun e => hall fun q hq => by
      rcases List.mem_cons.mp hq with rfl | hq
      · exact e
      · exact htail q hq
    obtain ⟨n, ids, rfl⟩ : ∃ n ids', ids = n :: ids' := by
      cases hl.nodes with
      | cons => exact ⟨_, _, rfl⟩
    obtain ⟨s, f, a, hx, hpatch, hc₃⟩ := CondSpec.patch (K := []) (p := p) (P := P ++ [(j, scVal)])
      hc₂ hc₂.code.isOpen.lt
    have hn₃ := SameNodes.setTarget (t := b₂) hx
    obtain ⟨c', B₄, hdel, hs₄, hu₄, hl₄, -⟩ :=
      delDeferredScJmp_head (hn₃.uses hu₂ : Uses F B F₂ (n :: (ids ++ [id])) _)
        (hn₃.scList hl₂ : ScList _ c (n :: (ids ++ [id])) (p :: (P ++ [(j, scVal)])))
        ⟨s, b₂, f, a, by simp [(List.getElem?_eq_some_iff.mp hx).1]⟩
    have hagree : ∀ q ∈ P ++ [(j, scVal)], q.2 = scVal := by
      intro q hq
      rcases List.mem_append.mp hq with hq | hq
      · exact htail q hq
      · rw [List.mem_singleton.mp hq]
    cases fuel with
    | zero => omega
    | succ fuel =>
      obtain ⟨node, hnode, hnj, hnr⟩ : Describes B₂.scJmps n p := by
        cases hl₂.nodes with
        | cons hd _ => exact hd
      have hfirst : c.firstScJmp = some n := hl₂.chain.1
      have hnext : node.next = c'.firstScJmp := by
        have h1 : nextOf B₂.scJmps n = node.next := by rw [nextOf, hnode]; rfl
        have h2 : nextOf B₂.scJmps n = (ids ++ [id]).head? := hl₂.chain.2.head
        rw [← h1, h2, hl₄.chain.head]
      refine ⟨c', b₂, B₄, n :: F₂, _, _, hrun ?_, hu₄, hl₄, by simp, ?_, hagree, ?_⟩
      · rw [hfirst, patchOppositeScJmps, bind_run _ _ get_run]
        simp only [hnode, hnr, hnj, ne_eq, hp, not_false_eq_true, if_true]
        rw [bind_run _ _ hpatch, bind_run _ _ hdel, hnext]
        exact patchOppositeScJmps_keep hl₄.chain hl₄.nodes hagree (by simpa using hlen)
      · have : (P.map Prod.snd).filter (· == scVal) = P.map Prod.snd := by
          rw [List.filter_eq_self]
          intro v hv
          obtain ⟨q, hq, rfl⟩ := List.mem_map.mp hv
          simp [htail q hq]
        simp [this, hp]
      · refine (hc₃.sameCode hs₄).imp fun C v e _ he => ?_
        have hend : B₂.endPos b₂ = 0 := by simp [ProcBuilder.endPos, hempty]
        have hend' : B₄.endPos b₂ = 0 := by
          rw [hs₄.endPos, ← hend, ProcBuilder.endPos, ProcBuilder.blockInstrs_setTarget]
          rfl
        rw [hend']
        rcases he with ⟨hv, he⟩ | ⟨hv, he⟩
        · exact ⟨hv, by rw [he, hend]⟩
        · refine ⟨?_, he⟩
          rw [hv]
          cases hps : p.2 <;> cases scVal <;> simp_all

end

/-! ## Boolean expressions -/

/-- What emitting `e` from `b` in `B`, whose freelist is `F`, has left behind. -/
inductive EmitOk (b : Nat) (B : ProcBuilder) (F : List Nat) (b' : Nat) (er : ExprResult)
    (B' : ProcBuilder) (F' : List Nat) : BExpr → Prop where
  | value (l : Leaf) (plain : er.IsPlain) (uses : Uses F B F' [] B')
      (val : ValSpec l.sem b B b' B' (HasByte B' er)) : EmitOk b B F b' er B' F' (.leaf l)
  | deferred (e : BExpr) (he : e.isLeaf = false) (c : DeferredCmp) (ids : List Nat) (P : Pending)
      (kind : er.kind = .deferredCmp c) (uses : Uses F B F' ids B') (list : ScList B' c ids P)
      (vals : P.map Prod.snd = e.pending)
      (jump : JumpSpec (fun env => e.sem env) b B b' B' P c.finalJmp)
      (sense : e.bareSense = if c.finalJmp.jmp = none then some c.finalJmp.result else none) :
      EmitOk b B F b' er B' F' e

section

variable {F F' : List Nat} {l r : BExpr} {scVal : Bool} {fuel : Nat}

theorem leftOperand_plain {er : ExprResult} (plain : ∀ c, er.kind ≠ .deferredCmp c) :
    leftOperand fuel scVal b er = (do
      let (j, rightBb) ← jmpOnValue b er scVal
      match j.jmp with
      | some jmp =>
        let c ← newDeferredScJmp ⟨none, none, j⟩ j.cmp scVal jmp
        pure (c, rightBb)
      | none => failure : Build (DeferredCmp × BBlockId)) := by
  obtain ⟨t, k⟩ := er
  cases k with
  | deferredCmp c => exact absurd rfl (plain c)
  | _ => rfl

theorem rightOperand_plain {c : DeferredCmp} {er : ExprResult}
    (plain : ∀ c, er.kind ≠ .deferredCmp c) :
    rightOperand c b er = (do
      let (j, last) ← jmpOnValue b er false
      pure (last, ⟨boolTy, .deferredCmp { c with finalJmp := j }⟩) :
      Build (BBlockId × ExprResult)) := by
  obtain ⟨t, k⟩ := er
  cases k with
  | deferredCmp c => exact absurd rfl (plain c)
  | _ => rfl

theorem leftOperand_ok (h : EmitOk b B F b' er B' F' l) (ht : er.type = boolTy)
    (htail : ∀ v ∈ l.pending.tail, v = scVal) (hf : l.pending.length < fuel) :
    ∃ c b₂ B₂ F₂ ids P, leftOperand fuel scVal b' er B' = some ((c, b₂), B₂) ∧
    LeftSpec (fun env => l.sem env) scVal b B F (l.pending.filter (· == scVal) ++ [scVal]) c b₂ B₂
      F₂ ids P := by
  cases h with
  | value l plain uses val =>
    obtain ⟨d, b₂, B₁, j, hjmp, hn, hres, hdj, hj⟩ := jmpOnValue_ok val plain ht scVal
    obtain ⟨c, B₂, F₂, id, hnew, hs, hu, hl, -⟩ :=
      newDeferredScJmp_ok d.cmp j scVal (hn.uses uses) (ScList.nil (c := ⟨none, none, d⟩) rfl rfl)
    refine ⟨c, b₂, B₂, F₂, _, _, ?_, hu, hl, by simp, rfl, by simp, ?_⟩
    · obtain ⟨t, k⟩ := er
      rw [leftOperand_plain plain.2.2, bind_run _ _ hjmp]
      simp only [hdj]
      rw [bind_run _ _ hnew]
      rfl
    · rw [← hres]
      refine ((hj.asPending hdj).sameCode hs).imp fun C v e _ he => ?_
      rw [hs.endPos]
      exact he
  | deferred e he c ids P kind uses list vals jump sense =>
    have hP : ∀ p ∈ P.tail, p.2 = scVal := by
      intro p hp
      refine htail p.2 ?_
      rw [← vals, ← List.map_tail]
      exact List.mem_map_of_mem hp
    have hlen : ids.length < fuel := by
      rw [list.nodes.length_eq, ← List.length_map Prod.snd, vals]
      exact hf
    obtain ⟨c₂, b₂, B₂, F₂, ids₂, P₂, hrun, hspec⟩ := mergeLeft_ok uses list jump hP hlen
    refine ⟨c₂, b₂, B₂, F₂, ids₂, P₂, ?_, vals ▸ hspec⟩
    rw [leftOperand, kind]
    exact hrun

/-- The condition of `&&` and `||`. -/
def scSem (scVal : Bool) (sem sem' : Env → Store → Store × Bool) (env : Env) (st : Store) :
    Store × Bool :=
  if (sem env st).2 = !scVal then sem' env (sem env st).1 else sem env st

theorem JumpSpec.seq {sem sem' : Env → Store → Store × Bool} {w : Bool} {P P' : Pending}
    {d : DeferredJmpcc} (h : CondSpec sem b B b' B' P (fun _ => False) fun _ v e =>
      v = w ∧ e = .pos b' (B'.endPos b') fun _ => True)
    (hP : ∀ p ∈ P, p.2 = !w) (h' : JumpSpec sem' b' B' b'' B'' P' d) (hd : d.jmp ≠ none) :
    JumpSpec (fun env st => if (sem env st).2 = w then sem' env (sem env st).1 else sem env st)
      b B b'' B'' (P ++ P') d := by
  refine ⟨h.seq hP h'.cond, h'.cmp, fun j hj => ?_, fun hnone => absurd hnone hd⟩
  obtain ⟨hx, hempty, hge⟩ := h'.jmp j hj
  exact ⟨hx, hempty, h.code.emits.length.trans hge⟩

theorem rightOperand_ok {vals : List Bool} {c : DeferredCmp} {ids F'' : List Nat} {P : Pending}
    (h : LeftSpec (fun env => l.sem env) scVal b B F vals c b' B' F' ids P)
    (hr : EmitOk b' B' F' b'' er B'' F'' r) (ht : er.type = boolTy) :
    ∃ b₂ B₂ c₂ ids₂ P₂, rightOperand c b'' er B'' = some ((b₂, ⟨boolTy, .deferredCmp c₂⟩), B₂) ∧
    Uses F B F'' ids₂ B₂ ∧ ScList B₂ c₂ ids₂ P₂ ∧ P₂.map Prod.snd = vals ++ r.pending ∧
    JumpSpec (scSem scVal (fun env => l.sem env) fun env => r.sem env) b B b₂ B₂ P₂ c₂.finalJmp ∧
    c₂.finalJmp.jmp ≠ none := by
  have hagree : ∀ p ∈ P, p.2 = !(!scVal) := fun p hp => by rw [Bool.not_not, h.agree p hp]
  cases hr with
  | value l plain uses val =>
    obtain ⟨d, b₂, B₂, j, hjmp, hn, hres, hdj, hj⟩ := jmpOnValue_ok val plain ht false
    have hkeep : ScList B₂ c ids P := hn.scList (h.list.congr (h.uses.keep uses))
    have hjmpne : d.jmp ≠ none := by simp [hdj]
    have hseq := JumpSpec.seq h.cond hagree hj hjmpne
    rw [List.append_nil] at hseq
    refine ⟨b₂, B₂, { c with finalJmp := d }, ids, P, ?_, ?_, hkeep.finalJmp d, ?_, hseq, hjmpne⟩
    · obtain ⟨t, k⟩ := er
      rw [rightOperand_plain plain.2.2, bind_run _ _ hjmp]
      rfl
    · have := h.uses.trans uses
      rw [List.append_nil] at this
      exact hn.uses this
    · rw [h.vals]
      simp [BExpr.pending]
  | deferred e he rc ids' P' kind uses list vals' jump sense =>
    have hkeep : ScList B'' c ids P := h.list.congr (h.uses.keep uses)
    obtain ⟨c₁, B₁, hmov, hs, hu, hl, -⟩ :=
      movDeferredScJmpList_ok (h.uses.trans uses) hkeep list h.ne
    obtain ⟨d, b₂, B₂, hcopy, hj, hres, ⟨j, hdj⟩, hn⟩ := copyScJmp_ok (jump.sameCode hs) false
    have hjmpne : d.jmp ≠ none := by simp [hdj]
    refine ⟨b₂, B₂, { c₁ with finalJmp := d }, ids ++ ids', P ++ P', ?_, hn.uses hu,
      (hn.scList hl).finalJmp d, ?_, JumpSpec.seq h.cond hagree hj hjmpne, hjmpne⟩
    · rw [rightOperand, kind]
      simp only
      rw [bind_run _ _ hmov, bind_run _ _ hcopy]
      rfl
    · rw [List.map_append, h.vals, vals']

theorem JumpSpec.congr_sem {sem sem' : Env → Store → Store × Bool} {P : Pending} {d : DeferredJmpcc}
    (h : JumpSpec sem b B b' B' P d) (hs : ∀ env st, sem' env st = sem env st) :
    JumpSpec sem' b B b' B' P d :=
  ⟨h.cond.congr_sem hs, h.cmp, h.jmp, h.noJmp⟩

theorem deferredScJmps_run {c : DeferredCmp} {L : List (Nat × DeferredJmpcc)}
    (h : scJmpList B.scJmps fuel c.firstScJmp = some L) : deferredScJmps fuel c B = some (L, B) := by
  rw [deferredScJmps, bind_run _ _ get_run]
  simp only [h]
  rfl

/-- `!`. -/
theorem emitLogicNot_ok {e : BExpr} (h : EmitOk b B F b' er B' F' e) (ht : er.type = boolTy)
    (hf : e.pending.length ≤ fuel) : ∃ er' B'', emitLogicNot fuel b' er B' = some ((b', er'), B'') ∧
    er'.type = boolTy ∧ EmitOk b B F b' er' B'' F' (.not e) := by
  cases h with
  | value l plain uses val =>
    obtain ⟨cmp, B₁, hrun, hn, hj⟩ := cmpToZero_ok val plain ht (fun v => !(v != 0))
      eval_eq_zero
    refine ⟨⟨boolTy, .deferredCmp (.ofCmp cmp)⟩, B₁, ?_, rfl,
      .deferred _ rfl _ [] [] rfl (hn.uses uses) (.nil rfl rfl) rfl hj rfl⟩
    obtain ⟨t, k⟩ := er
    have hk : emitLogicNot fuel b' ⟨t, k⟩ = (do
        let cmp ← cmpToZero b' ⟨t, k⟩ .eq 0
        pure (b', ⟨boolTy, .deferredCmp (.ofCmp cmp)⟩) : Build (BBlockId × ExprResult)) := by
      cases k with
      | deferredCmp c => exact absurd rfl (plain.2.2 c)
      | _ => rfl
    rw [hk, bind_run _ _ hrun]
    rfl
  | deferred e he c ids P kind uses list vals jump sense =>
    have hlen : ids.length ≤ fuel := by
      rw [list.nodes.length_eq, ← List.length_map Prod.snd, vals]
      exact hf
    obtain ⟨L, hL, hmap, -⟩ := scJmpList_ok list hlen
    obtain ⟨B₁, hneg, hs, hu, hl⟩ := negScJmps_ok uses list hmap
    refine ⟨⟨boolTy, .deferredCmp { c with
      finalJmp := { c.finalJmp with result := !c.finalJmp.result } }⟩, B₁, ?_, rfl,
      .deferred _ rfl _ ids _ rfl hu (hl.finalJmp _) ?_ (jump.neg.sameCode hs) ?_⟩
    · rw [emitLogicNot, kind]
      simp only
      rw [bind_run _ _ (deferredScJmps_run hL), bind_run _ _ hneg]
      rfl
    · rw [BExpr.pending, ← vals]
      simp [List.map_map, Function.comp_def]
    · simp only [BExpr.bareSense, he, Bool.false_eq_true, if_false, sense]
      split <;> rfl

/-- `&&` and `||`. -/
theorem emitShortCircuitCmp_ok {e : BExpr} {emitL emitR : BBlockId → Build (BBlockId × ExprResult)}
    {b₁ : Nat} {er₁ : ExprResult} {F₁ : List Nat}
    (hL : emitL b B = some ((b₁, er₁), B₁)) (ht : er₁.type = boolTy)
    (hl : EmitOk b B F b₁ er₁ B₁ F₁ l)
    (hR : ∀ b B F, Arena B F → B.IsOpen b → ∃ b' er B' F', emitR b B = some ((b', er), B') ∧
      er.type = boolTy ∧ EmitOk b B F b' er B' F' r)
    (htail : ∀ v ∈ l.pending.tail, v = scVal) (hf : l.pending.length < fuel)
    (he : e.isLeaf = false) (hsense : e.bareSense = none)
    (hpend : e.pending = l.pending.filter (· == scVal) ++ [scVal] ++ r.pending)
    (hsem : ∀ env st, e.sem env st =
      scSem scVal (fun env => l.sem env) (fun env => r.sem env) env st) :
    ∃ b' er B' F', emitShortCircuitCmp fuel scVal emitL emitR b B = some ((b', er), B') ∧
      er.type = boolTy ∧ EmitOk b B F b' er B' F' e := by
  obtain ⟨c, b₂, B₂, F₂, ids, P, hleft, hspec⟩ := leftOperand_ok hl ht htail hf
  obtain ⟨b₃, er₃, B₃, F₃, hright, ht₃, hr⟩ := hR b₂ B₂ F₂ hspec.uses.arena hspec.cond.code.isOpen
  obtain ⟨b₄, B₄, c₄, ids₄, P₄, hop, hu, hlist, hvals, hj, hjmp⟩ := rightOperand_ok hspec hr ht₃
  refine ⟨b₄, ⟨boolTy, .deferredCmp c₄⟩, B₄, F₃, ?_, rfl, .deferred e he c₄ ids₄ P₄ rfl hu hlist (hvals.trans hpend.symm)
    (hj.congr_sem hsem) ?_⟩
  · have hb : er₁.type.isBool = true := by rw [ht]; rfl
    have hb₃ : er₃.type.isBool = true := by rw [ht₃]; rfl
    rw [emitShortCircuitCmp, bind_run _ _ hL]
    simp only
    rw [bind_run _ _ (check_eq hb), bind_run _ _ hleft]
    simp only
    rw [bind_run _ _ hright]
    simp only
    rw [bind_run _ _ (check_eq hb₃)]
    exact hop
  · rw [hsense, if_neg hjmp]

/-- Emission succeeds and keeps the contract when only first jumps have to be removed. -/
theorem emitBExpr_ok (e : BExpr) (hgood : e.removesFirstOnly = true) (hf : e.size ≤ fuel) (b : Nat)
    (B : ProcBuilder) (F : List Nat) (ha : Arena B F) (ho : B.IsOpen b) :
    ∃ b' er B' F', emitBExpr fuel e b B = some ((b', er), B') ∧ er.type = boolTy ∧
      EmitOk b B F b' er B' F' e := by
  induction e generalizing b B F with
  | leaf l =>
    obtain ⟨b', er, B', F', hrun, hu, hv⟩ := l.ok b B F ha ho
    obtain ⟨hp, ht⟩ := l.plain _ _ _ _ _ hrun
    exact ⟨b', er, B', F', hrun, ht, .value l hp hu hv⟩
  | cmp cond o =>
    obtain ⟨b₁, x, y, B₁, F₁, hrun, hu, hv⟩ := o.ok b B F ha ho
    obtain ⟨hx, hy⟩ := o.plain _ _ _ _ _ _ hrun
    obtain ⟨cmp, B₂, hcmp, hn, hj⟩ := emitBinaryCmp_ok cond hv hx hy
    refine ⟨b₁, ⟨boolTy, .deferredCmp (.ofCmp cmp)⟩, B₂, F₁, ?_, rfl, .deferred _ rfl (.ofCmp cmp) [] [] rfl (hn.uses hu)
      (.nil rfl rfl) rfl hj rfl⟩
    rw [emitBExpr, bind_run _ _ hrun]
    simp only
    rw [bind_run _ _ hcmp]
    rfl
  | not e ih =>
    simp only [BExpr.size] at hf
    have hlen := e.pending_length_lt
    obtain ⟨b₁, er, B₁, F₁, hrun, ht, hok⟩ := ih hgood (by omega) b B F ha ho
    obtain ⟨er', B₂, hnot, ht', hok'⟩ := emitLogicNot_ok hok ht (by omega : e.pending.length ≤ fuel)
    refine ⟨b₁, er', B₂, F₁, ?_, ht', hok'⟩
    rw [emitBExpr, bind_run _ _ hrun]
    exact hnot
  | and l r ihl ihr =>
    simp only [BExpr.removesFirstOnly, Bool.and_eq_true, List.all_eq_true, Bool.not_eq_true'] at hgood
    simp only [BExpr.size] at hf
    have hlen := l.pending_length_lt
    obtain ⟨b₁, er, B₁, F₁, hrun, ht, hok⟩ := ihl hgood.1.1 (by omega) b B F ha ho
    refine emitShortCircuitCmp_ok hrun ht hok (ihr hgood.1.2 (by omega)) hgood.2 (by omega) rfl rfl
      ?_ fun env st => ?_
    · simp [BExpr.pending]
    · simp [BExpr.sem, scSem]
  | or l r ihl ihr =>
    simp only [BExpr.removesFirstOnly, Bool.and_eq_true, List.all_eq_true] at hgood
    simp only [BExpr.size] at hf
    have hlen := l.pending_length_lt
    obtain ⟨b₁, er, B₁, F₁, hrun, ht, hok⟩ := ihl hgood.1.1 (by omega) b B F ha ho
    refine emitShortCircuitCmp_ok hrun ht hok (ihr hgood.1.2 (by omega)) hgood.2 (by omega) rfl rfl
      ?_ fun env st => ?_
    · simp [BExpr.pending]
    · simp only [BExpr.sem, scSem, Bool.not_true]
      cases (l.sem env st).2 <;> simp

end

end Nibble.IR
