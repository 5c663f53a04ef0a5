import Nibble.IR.JumpSpec
import Nibble.IR.Produced
import Nibble.Resolve.SwitchExact

/-!
# The dispatch of a switch

The part of `IR_emit_stmt_switch` that tests a value at run time and jumps to the block
of a case. The expression has been emitted, and the blocks of the cases are allocated.
-/

namespace Nibble.IR

open Nibble.Lib Nibble.Resolve

/-- The range of a case, less the start of the first one. -/
def caseRange (minVal : Scalar) (info : CaseInfo) : CaseRange :=
  ⟨(info.start - minVal).setWidth 32, (info.stop - minVal).setWidth 32⟩

/-- `s64` or `u64`. -/
def type64bit (isSigned : Bool) : Ty := .integer (if isSigned then .s64 else .u64)

/-- The subtraction of the smallest value, unless it is zero: the operand and the largest value. -/
def emitNormalize (isSigned : Bool) (b : BBlockId) (val : OpRIA) (minVal maxVal : Scalar) :
    Build (OpRIA × Scalar) :=
  if evalBinaryLogicalOp64bit .noteq isSigned minVal 0 = .ok true then do
    let dst ← emitDef b (.intBinary .sub (type64bit isSigned) · val (.imm minVal))
    pure (.reg dst, maxVal - minVal)
  else pure (val, maxVal)

/-- The dispatch to `targets`, one for each case and the default case or the end behind them. -/
def emitSwitchDispatch (isSigned : Bool) (caseInfos : Array CaseInfo) (b : BBlockId) (val : OpRIA)
    (targets : List BBlockId) : Build Unit :=
  match caseInfos[0]?, caseInfos[caseInfos.size - 1]?, targets.getLast? with
  | some first, some last, some defaultOrLast => do
    let (val, maxVal) ← emitNormalize isSigned b val first.start last.stop
    let cmpResult ← emitDef b (.intCmp (type64bit isSigned) .uGt · val (.imm maxVal))
    let switchJmpBb ← allocBBlock
    let _ ← emitInstrCondJmp b (some defaultOrLast) switchJmpBb cmpResult
    let _ ← emitInstrSwitchCaseJmp switchJmpBb val targets
      (caseInfos.toList.map (caseRange first.start))
    pure ()
  | _, _, _ => failure

/-- The target that the dispatch takes for a word. -/
def dispatchIndex (caseInfos : List CaseInfo) (minVal maxVal : Scalar) (w : Word) : Nat :=
  if maxVal - minVal < w - minVal then caseInfos.length
  else (caseInfos.map (caseRange minVal)).findIdx fun r =>
    r.start ≤ (w - minVal).setWidth 32 && (w - minVal).setWidth 32 ≤ r.stop

section

variable {B B' B'' : ProcBuilder} {b : Nat} {env : Env} {σ σ' : MState} {val : OpRIA}
  {isSigned : Bool} {minVal maxVal : Scalar} {w : Word}

/-- The operand as an instruction of 64 bits reads it. -/
def readWord (val : OpRIA) (env : Env) (objs : List MemObj) (σ : MState) : Option Word :=
  val.read env objs σ 8

theorem read_imm (env : Env) (objs : List MemObj) (σ : MState) (v : Word) (size : Nat) :
    (OpRIA.imm v).read env objs σ size = some v := rfl

theorem exec_sub64 (objs : List MemObj) (r : Reg) :
    execInstr env objs (.intBinary .sub (type64bit isSigned) r val (.imm minVal)) σ =
      ((readWord val env objs σ).map (· - minVal)).map (σ.setReg r) := by
  unfold readWord
  cases isSigned <;> cases hval : val.read env objs σ 8 <;>
    simp [execInstr, type64bit, Ty.size, intKindSize, hval, read_imm, IntBinOp.eval, lowBytes] <;> rfl

theorem exec_cmp64 (objs : List MemObj) (r : Reg) :
    execInstr env objs (.intCmp (type64bit isSigned) .uGt r val (.imm maxVal)) σ =
      ((readWord val env objs σ).map fun w => boolWord (maxVal.ult w)).map (σ.setReg r) := by
  unfold readWord
  cases isSigned <;> cases hval : val.read env objs σ 8 <;>
    simp [execInstr, type64bit, Ty.size, intKindSize, hval, read_imm, ConditionKind.eval, lowBytes]

theorem emitSubMin_ok (isSigned : Bool) (minVal : Scalar) (ho : B.IsOpen b) (val : OpRIA) :
    ∃ r B', emitDef b (.intBinary .sub (type64bit isSigned) · val (.imm minVal)) B = some (r, B') ∧
      Converts b B (fun env objs σ => (readWord val env objs σ).map (· - minVal)) (readReg r) B' :=
  emitDef_ok ho (fun _ => rfl) fun _ objs _ r => exec_sub64 objs r

theorem emitNormalize_ok (isSigned : Bool) (minVal maxVal : Scalar) (ho : B.IsOpen b)
    (val : OpRIA) :
    ∃ a B', emitNormalize isSigned b val minVal maxVal B = some ((a, maxVal - minVal), B') ∧
      Converts b B (fun env objs σ => (readWord val env objs σ).map (· - minVal)) (readWord a) B' := by
  unfold emitNormalize
  split
  · obtain ⟨r, B', hdef, hconv⟩ := emitSubMin_ok isSigned minVal ho val
    refine ⟨.reg r, B', ?_, hconv⟩
    rw [bind_run _ _ hdef]
    rfl
  · rename_i hzero
    rw [eval_noteq, ne_eq, not_not] at hzero
    have hzero' : minVal = 0 := hzero
    subst hzero'
    refine ⟨val, B, by simp [pure, statePure_run], .refl ho fun env objs σ => ?_⟩
    unfold readWord
    cases val.read env objs σ 8 <;> simp

theorem emitCompare_ok (isSigned : Bool) (maxVal : Scalar) (ho : B.IsOpen b) (val : OpRIA) :
    ∃ r B', emitDef b (.intCmp (type64bit isSigned) .uGt · val (.imm maxVal)) B = some (r, B') ∧
      Converts b B (fun env objs σ => (readWord val env objs σ).map fun w => boolWord (maxVal.ult w))
        (readReg r) B' :=
  emitDef_ok ho (fun _ => rfl) fun _ objs _ r => exec_cmp64 objs r

/-- The jump of a switch at the end of a block that is new. -/
theorem emitInstrSwitchCaseJmp_ok (val : OpRIA) (targets : List BBlockId) (ho : B.IsOpen b)
    (ht : ∀ t ∈ targets, t < B.bblocks.length) (ranges : List CaseRange) :
    ∃ B', emitInstrSwitchCaseJmp b val targets ranges B = some (B.instrs.length, B') ∧
      Emits b (B.push b (.switchCaseJmp b val targets ranges)) B' ∧
      B'.scJmps = B.scJmps ∧ B'.scJmpFreelist = B.scJmpFreelist := by
  have hconnect : ∀ (ts : List BBlockId) (B : ProcBuilder), (∀ t ∈ ts, t < B.bblocks.length) →
      ∃ B', connectTargets b ts B = some ((), B') ∧ Emits b B B' ∧ B'.scJmps = B.scJmps ∧
        B'.scJmpFreelist = B.scJmpFreelist := by
    intro ts
    induction ts with
    | nil => exact fun B _ => ⟨B, rfl, .refl b B, rfl, rfl⟩
    | cons t ts ih =>
      intro B ht
      obtain ⟨B', hrun, he, hnodes⟩ := ih (B.connect b t) fun u hu => by
        rw [ProcBuilder.connect_length]
        exact ht u (List.mem_cons_of_mem _ hu)
      refine ⟨B', ?_, (Emits.connect b b t B).trans he (.inl rfl), hnodes⟩
      unfold connectTargets
      rw [bind_run _ _ (connectBBlocks_eq (ht t (List.mem_cons_self ..)))]
      exact hrun
  obtain ⟨B', hrun, he, hnodes⟩ := hconnect targets
    (B.push b (.switchCaseJmp b val targets ranges)) (by simpa using ht)
  refine ⟨B', ?_, he, hnodes⟩
  unfold emitInstrSwitchCaseJmp
  rw [bind_run _ _ (addInstr_eq ho), bind_run _ _ hrun]
  rfl

/-- A conditional jump to a known block that falls through to a new one. -/
theorem emitInstrCondJmp_ok {r : Reg} {t : Nat} (ho : B.IsOpen b) (ht : t < B.bblocks.length) :
    ∃ B', emitInstrCondJmp b (some t) B.bblocks.length r B.alloc = some (B.instrs.length, B') ∧
      Emits b (B.alloc.push b (.condJmp b (some t) B.bblocks.length r)) B' ∧
      B'.IsOpen B.bblocks.length ∧ B'.endPos B.bblocks.length = 0 ∧
      B'.bblocks.length = B.bblocks.length + 1 ∧ B'.scJmps = B.scJmps ∧
      B'.scJmpFreelist = B.scJmpFreelist := by
  have ho' := ProcBuilder.isOpen_alloc ho
  have hne : B.bblocks.length ≠ b := Nat.ne_of_gt ho.lt
  let P := B.alloc.push b (.condJmp b (some t) B.bblocks.length r)
  let Q : ProcBuilder := { P with patched := P.patched ++ [B.instrs.length] }
  have hlen : Q.bblocks.length = B.bblocks.length + 1 := by
    simp [Q, P]
  have hPQ : Emits b P Q :=
    ⟨List.prefix_refl _, List.prefix_refl _, Nat.le_refl _, Nat.le_refl _, List.prefix_refl _,
      fun _ _ _ => rfl, fun _ _ _ h => h⟩
  refine ⟨(Q.connect b t).connect b B.bblocks.length, ?_, ?_, ?_, ?_, ?_, rfl, rfl⟩
  · have hrun : (connectBBlocks b t >>= fun _ => connectBBlocks b B.bblocks.length >>= fun _ =>
        pure B.instrs.length : Build InstrId) Q =
        some (B.instrs.length, (Q.connect b t).connect b B.bblocks.length) := by
      rw [bind_run _ _ (connectBBlocks_eq (by omega)), bind_run _ _ (connectBBlocks_eq (by
        rw [ProcBuilder.connect_length]; omega))]
      rfl
    unfold emitInstrCondJmp
    rw [bind_run _ _ (addInstr_eq ho')]
    exact hrun
  · exact (hPQ.trans (.connect b b t Q) (.inl rfl)).trans (.connect b b _ _) (.inl rfl)
  · rw [ProcBuilder.isOpen_connect, ProcBuilder.isOpen_connect]
    exact (ProcBuilder.isOpen_push_other hne).mpr ProcBuilder.isOpen_alloc_new
  · unfold ProcBuilder.endPos
    rw [ProcBuilder.blockInstrs_connect, ProcBuilder.blockInstrs_connect]
    show (P.blockInstrs B.bblocks.length).length = 0
    rw [ProcBuilder.blockInstrs_push_other hne, ProcBuilder.blockInstrs_alloc,
      ProcBuilder.blockInstrs_of_le (Nat.le_refl _)]
    rfl
  · rw [ProcBuilder.connect_length, ProcBuilder.connect_length, hlen]

/-- The jump takes the target of the first range that has the low 32 bits of the word. -/
theorem step_switchCaseJmp {id pos src t : Nat} {targets : List BBlockId} {ranges : List CaseRange}
    (hat : B.instrAt b pos = some (id, .switchCaseJmp src val targets ranges))
    (hval : readWord val env B.memObjs σ = some w)
    (ht : switchTarget targets ranges (w.setWidth 32) = some t) :
    step B env ⟨b, pos, σ⟩ = some (σ.enter b t) := by
  unfold readWord at hval
  simp only [step, hat, Option.bind_eq_bind, Option.bind_some, hval, ht]

/-- The dispatch is emitted, and a word takes it to its target in every later builder. The store is
left as it is. -/
theorem emitSwitchDispatch_spec (isSigned : Bool) (val : OpRIA) {caseInfos : Array CaseInfo} {targets : List BBlockId}
    {first last : CaseInfo} (ho : B.IsOpen b) (ht : ∀ t ∈ targets, t < B.bblocks.length)
    (hlen : targets.length = caseInfos.size + 1) (hfirst : caseInfos[0]? = some first)
    (hlast : caseInfos[caseInfos.size - 1]? = some last) :
    ∃ B', emitSwitchDispatch isSigned caseInfos b val targets B = some ((), B') ∧ Emits b B B' ∧
      (B'.scJmps = B.scJmps ∧ B'.scJmpFreelist = B.scJmpFreelist) ∧
      ∀ B'' env σ w t, Future (fun _ => False) B' B'' → Settled B σ (readWord val env) w →
        targets[dispatchIndex caseInfos.toList first.start last.stop w]? = some t →
        ∃ c : Config, Steps B'' env ⟨b, B.endPos b, σ⟩ c ∧ c.bb = t ∧ c.pos = 0 ∧
          c.st.store = σ.store := by
  have hne : targets ≠ [] := by
    intro hnil
    rw [hnil] at hlen
    simp at hlen
  have hd : targets.getLast? = some (targets.getLast hne) := List.getLast?_eq_some_getLast hne
  obtain ⟨a, B₁, hrun₁, hconv₁⟩ := emitNormalize_ok isSigned first.start last.stop ho val
  obtain ⟨r, B₂, hrun₂, hconv₂⟩ := emitCompare_ok isSigned (last.stop - first.start)
    hconv₁.straight.isOpen a
  have ho₂ := hconv₂.straight.isOpen
  have hlen₂ : B₂.bblocks.length = B.bblocks.length := by
    rw [hconv₂.straight.length, hconv₁.straight.length]
  obtain ⟨B₃, hrun₃, he₃, ho₃, hend₃, hlen₃, hsc₃, hfree₃⟩ := emitInstrCondJmp_ok (r := r) ho₂
    (hlen₂ ▸ ht _ (List.getLast_mem hne))
  obtain ⟨B₄, hrun₄, he₄, hsc₄, hfree₄⟩ := emitInstrSwitchCaseJmp_ok a targets ho₃ (fun t h => Nat.lt_of_lt_of_le (ht t h) (by omega))
    (caseInfos.toList.map (caseRange first.start))
  have hs := hconv₁.straight.trans hconv₂.straight
  refine ⟨B₄, ?_, ?_, ⟨hsc₄.trans (hsc₃.trans hs.scJmps),
    hfree₄.trans (hfree₃.trans hs.scJmpFreelist)⟩, ?_⟩
  · unfold emitSwitchDispatch
    simp only [hfirst, hlast, hd]
    rw [bind_run _ _ hrun₁, bind_run _ _ hrun₂, bind_run _ _ allocBBlock_run,
      bind_run _ _ hrun₃, bind_run _ _ hrun₄]
    rfl
  · have h₂ := hconv₁.straight.emits.trans hconv₂.straight.emits (.inl rfl)
    have h₃ := ((Emits.alloc b B₂).trans (.push (ProcBuilder.isOpen_alloc ho₂).lt) (.inl rfl)).trans
      he₃ (.inl rfl)
    exact (h₂.trans h₃ (.inl rfl)).trans ((Emits.push ho₃.lt).trans he₄ (.inl rfl))
      (.inr (Nat.le_of_eq hlen₂.symm))
  · intro B'' env σ w t hF hw htarget
    have hF₃ : Future (fun _ => False) (B₃.push B₂.bblocks.length _) B'' := he₄.future.trans hF
    have hF₂ : Future (fun _ => False) (B₂.alloc.push b _) B'' :=
      (he₃.future.trans (Emits.push ho₃.lt).future).trans hF₃
    obtain ⟨σ₁, hr₁, ha₁, hs₁⟩ := hconv₁.run env σ (w - first.start) fun objs σ' hp ha => by
      rw [hw objs σ' hp ha]
      rfl
    obtain ⟨σ₂, hr₂, ha₂, hs₂⟩ := hconv₂.run env σ₁
      (boolWord ((last.stop - first.start).ult (w - first.start))) fun objs σ' hp ha => by
      rw [hs₁ objs σ' hp ha]
      rfl
    have hF₀ : Future (fun _ => False) B₂ B'' :=
      ((Emits.alloc b B₂).future.trans (Emits.push (ProcBuilder.isOpen_alloc ho₂).lt).future).trans
        hF₂
    have hrun : Steps B'' env ⟨b, B.endPos b, σ⟩ ⟨b, B₂.endPos b, σ₂⟩ :=
      hr₁.trans hr₂ hconv₁.straight.emits.instrs.length_le hconv₂.straight.emits.future B''
        (hF₀.mono fun _ _ h => h.elim)
    obtain ⟨y, hat, -, rfl | ⟨hf, -⟩⟩ := hF₂.pushed (ProcBuilder.isOpen_alloc ho₂).lt
    swap
    · exact hf.elim
    have hcmp : σ₂.regs r = boolWord ((last.stop - first.start).ult (w - first.start)) :=
      Option.some.inj (hs₂.now (List.prefix_refl _))
    have hpos : B₂.alloc.endPos b = B₂.endPos b := by
      unfold ProcBuilder.endPos
      rw [ProcBuilder.blockInstrs_alloc]
    rw [hpos] at hat
    unfold dispatchIndex at htarget
    by_cases habove : last.stop - first.start < w - first.start
    · have hult : (last.stop - first.start).ult (w - first.start) = true := decide_eq_true habove
      rw [if_pos habove, Array.length_toList] at htarget
      have hlastTarget : t = targets.getLast hne := by
        rw [List.getLast_eq_getElem]
        have hidx : targets.length - 1 = caseInfos.size := by omega
        rw [List.getElem?_eq_getElem (by omega)] at htarget
        simp only [hidx]
        exact (Option.some.inj htarget).symm
      refine ⟨_, hrun.tail (step_condJmp_true hat ?_), hlastTarget.symm, rfl,
        ha₂.store.trans ha₁.store⟩
      rw [hcmp, lowBytes_boolWord]
      exact hult
    · have hult : (last.stop - first.start).ult (w - first.start) = false :=
        decide_eq_false habove
      have hstep : step B'' env ⟨b, B₂.endPos b, σ₂⟩ = some (σ₂.enter b B₂.bblocks.length) :=
        step_condJmp_false hat (by rw [hcmp, hult]; rfl)
      obtain ⟨y, hat', -, rfl | ⟨hf, -⟩⟩ := hF₃.pushed ho₃.lt
      swap
      · exact hf.elim
      rw [hend₃] at hat'
      rw [if_neg habove] at htarget
      refine ⟨_, (hrun.tail hstep).tail (step_switchCaseJmp hat' ?_ htarget), rfl, rfl,
        ha₂.store.trans ha₁.store⟩
      exact hs₁ _ _ (hconv₂.straight.emits.memObjs.trans hF₀.memObjs)
        (ha₂.enter (s := b) (t := B₂.bblocks.length))

/-- The dispatch is emitted, and a word takes it to its target in every later builder. -/
theorem emitSwitchDispatch_ok (isSigned : Bool) (val : OpRIA) {caseInfos : Array CaseInfo} {targets : List BBlockId}
    {first last : CaseInfo} (ho : B.IsOpen b) (ht : ∀ t ∈ targets, t < B.bblocks.length)
    (hlen : targets.length = caseInfos.size + 1) (hfirst : caseInfos[0]? = some first)
    (hlast : caseInfos[caseInfos.size - 1]? = some last) :
    ∃ B', emitSwitchDispatch isSigned caseInfos b val targets B = some ((), B') ∧ Emits b B B' ∧
      ∀ B'' env σ w t, Future (fun _ => False) B' B'' → Settled B σ (readWord val env) w →
        targets[dispatchIndex caseInfos.toList first.start last.stop w]? = some t →
        ∃ c : Config, Steps B'' env ⟨b, B.endPos b, σ⟩ c ∧ c.bb = t ∧ c.pos = 0 := by
  obtain ⟨B', hrun, he, -, hto⟩ := emitSwitchDispatch_spec isSigned val ho ht hlen hfirst hlast
  refine ⟨B', hrun, he, fun B'' env σ w t hF hw htarget => ?_⟩
  obtain ⟨c, hs, hbb, hpos, -⟩ := hto B'' env σ w t hF hw htarget
  exact ⟨c, hs, hbb, hpos⟩

end

end Nibble.IR
