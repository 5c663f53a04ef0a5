import Nibble.IR.LoopRules
import Nibble.IR.SwitchExact

/-!
# Emission of `switch`

The bodies of the cases, each in the block of its target, and the dispatch to
them. For every word the dispatch gets to the case that has it.
-/

namespace Nibble.IR.Lowering

open Nibble.Lib Nibble.Lib.Structured Nibble.Resolve

variable {B B' B'' B₀ B₁ B₂ C : ProcBuilder} {b b' b₁ t lastBb : BBlockId} {env : Env} {σ : MState}
  {F F' : List NodeId} {js ks js' ks' : List InstrId} {p q : IRProg} {u : UJmps}
  {inLoop falls : Bool} {ts : List BBlockId} {bodies : List (Option StmtEmitter)}
  {ps : List IRProg} {head : SwitchHead} {cases : List StmtEmitter} {e : SwitchExpr}

/-! ## The blocks of the targets -/

theorem allocBBlocks_ok (n : Nat) (B : ProcBuilder) : ∃ ts B', allocBBlocks n B = some (ts, B') ∧
    ts.length = n ∧ Allocs B B' ∧ ts.Nodup ∧ ∀ t ∈ ts, B.bblocks.length ≤ t ∧ EmptyBlock B' t := by
  induction n generalizing B with
  | zero => exact ⟨[], B, rfl, rfl, .refl B, .nil, nofun⟩
  | succ n ih =>
    obtain ⟨ts, B', hrun, hlen, hal, hnd, hts⟩ := ih B.alloc
    have hlt : ∀ t ∈ ts, B.bblocks.length < t := fun t ht => by
      have hle := (hts t ht).1
      rwa [ProcBuilder.alloc_length] at hle
    refine ⟨B.bblocks.length :: ts, B', ?_, congrArg _ hlen, (Allocs.alloc B).trans hal,
      List.nodup_cons.mpr ⟨fun h => Nat.lt_irrefl _ (hlt _ h), hnd⟩, fun t ht => ?_⟩
    · unfold allocBBlocks
      rw [bind_run _ _ allocBBlock_run, bind_run _ _ hrun]
      rfl
    · rcases List.mem_cons.mp ht with rfl | ht
      · exact ⟨Nat.le_refl _, (emptyBlock_alloc B).allocs hal⟩
      · exact ⟨Nat.le_of_lt (hlt t ht), (hts t ht).2⟩

/-! ## The bodies -/

/-- The code of the bodies, each of which goes on in `lastBb`. -/
structure TargetsCode (inLoop : Bool) (lastBb : BBlockId) (L : List (BBlockId × IRProg))
    (B B' : ProcBuilder) (js ks : List InstrId) : Prop where
  arena : ∃ F, Arena B' F
  grows : Grows B B'
  keeps : ∀ (j : InstrId) (x : Instr), B.instrs[j]? = some x → B'.instrs[j]? = some x
  emits : ∀ {b B₀}, Emits b B₀ B → (∀ x ∈ L, B₀.bblocks.length ≤ x.1) → Emits b B₀ B'
  last : EmptyBlock B' lastBb
  outside : inLoop = false → js = [] ∧ ks = []
  waits : ∀ j ∈ js ++ ks, B.instrs.length ≤ j ∧ ∃ s, B'.instrs[j]? = some (.jmp s none)
  nodup : (js ++ ks).Nodup
  body : ∀ x ∈ L, ∀ env C brk cont n σ, Grows B' C → Targets C js brk → Targets C ks cont →
    Carries (step C env) (StmtExit C env (AtStart lastBb) brk cont) n (x.2 env n σ.store)
      ⟨x.1, 0, σ⟩

/-- The body of a target carries out `p`. -/
def BodyOk (inLoop : Bool) (body : Option StmtEmitter) (p : IRProg) : Prop :=
  ∃ emit falls, body = some emit ∧ StmtOk inLoop falls emit p

theorem emitTargets_ok (h : List.Forall₂ (BodyOk inLoop) bodies ps) (hnd : ts.Nodup)
    (ha : Arena B F) (hu : inLoop = true → u.There) (hlast : EmptyBlock B lastBb)
    (hempty : ∀ x ∈ ts.zip bodies, EmptyBlock B x.1 ∧ x.1 ≠ lastBb) : ∃ js ks B',
      emitTargets lastBb (ts.zip bodies) u B = some (u.add js ks, B') ∧
      TargetsCode inLoop lastBb (ts.zip ps) B B' js ks := by
  induction h generalizing ts B F u with
  | nil =>
    rw [List.zip_nil_right, List.zip_nil_right]
    exact ⟨[], [], B, by simp [emitTargets, pure, statePure_run], ⟨F, ha⟩, .refl B, fun _ _ hx => hx,
      fun he _ => he, hlast, fun _ => ⟨rfl, rfl⟩, by simp, .nil, nofun⟩
  | @cons body p bodies ps hbody _ ih =>
    cases ts with
    | nil => exact ⟨[], [], B, by simp [emitTargets, pure, statePure_run], ⟨F, ha⟩, .refl B,
        fun _ _ hx => hx, fun he _ => he, hlast, fun _ => ⟨rfl, rfl⟩, by simp, .nil, nofun⟩
    | cons t ts =>
      obtain ⟨emit, falls, rfl, hbody⟩ := hbody
      obtain ⟨hmem, hnd⟩ := List.nodup_cons.mp hnd
      obtain ⟨ht, hne⟩ := hempty (t, some emit) (List.mem_cons_self ..)
      obtain ⟨out, u', B₁, hrun, hcode⟩ := hbody t B F u ha ht.isOpen hu
      obtain ⟨B₂, js, ks, hjmp, ⟨F₂, ha₂⟩, rfl, hnone, hlow, -⟩ :=
        hcode.jump (hlast.lt.trans_le hcode.emits.length)
      have hkeep : ∀ {k}, EmptyBlock B k → k ≠ t → EmptyBlock B₂ k := fun hk hkt =>
        hk.emits hlow.emits hkt
      obtain ⟨js', ks', B', hrun', hrest⟩ := ih hnd ha₂ (fun hin => (hu hin).add js ks)
        (hkeep hlast hne.symm) fun x hx => by
          obtain ⟨hx₁, hx₂⟩ := hempty x (List.mem_cons_of_mem _ hx)
          exact ⟨hkeep hx₁ fun heq => hmem (heq ▸ (List.of_mem_zip hx).1), hx₂⟩
      obtain ⟨hwaits, hnodup⟩ := waits_append hlow.waits hlow.nodup hrest.waits hrest.nodup
        hlow.emits.instrs.length_le hrest.keeps
      refine ⟨js ++ js', ks ++ ks', B', ?_, hrest.arena, hlow.emits.grows.trans hrest.grows,
        fun j x hx => hrest.keeps j x (hlow.emits.getElem? hx), fun he hle => ?_, hrest.last,
        fun hin => ?_, hwaits, hnodup, fun x hx env C brk cont n σ hG hjs hks => ?_⟩
      · show emitTargets lastBb ((t, some emit) :: ts.zip bodies) u B = _
        unfold emitTargets
        rw [bind_run _ _ hrun]
        exact (bind_run _ _ hjmp).trans (by rw [hrun', UJmps.add_add])
      · exact hrest.emits (he.trans hlow.emits (.inr (hle (t, p) (List.mem_cons_self ..))))
          fun x hx => hle x (List.mem_cons_of_mem _ hx)
      · obtain ⟨rfl, rfl⟩ := hnone hin
        exact hrest.outside hin
      · obtain ⟨hjs, hjs'⟩ := hjs.of_append
        obtain ⟨hks, hks'⟩ := hks.of_append
        rcases List.mem_cons.mp hx with rfl | hx
        · have h := (lowered_start hlow).run env C brk cont n σ (hrest.grows.trans hG) hjs hks
          rwa [ht.endPos] at h
        · exact hrest.body x hx env C brk cont n σ hG hjs' hks'

/-! ## The target of a word -/

/-- The cases in the order of the targets. -/
def SwitchHead.indices (head : SwitchHead) : List Nat :=
  head.caseInfos.toList.map (·.index) ++ head.defaultCase.toList

/-- There are cases, and all of them have statements. -/
def SwitchHead.fits (head : SwitchHead) (n : Nat) : Bool :=
  head.caseInfos.size != 0 && head.indices.all (· < n)

/-- The values of the cases are close enough for ranges of 32 bits. -/
def SwitchHead.close (head : SwitchHead) : Bool :=
  match head.caseInfos[0]?, head.caseInfos[head.caseInfos.size - 1]? with
  | some first, some last => last.stopKey head.isSigned - first.key head.isSigned < 2 ^ 32
  | _, _ => true

theorem SwitchHead.lt_of_mem (h : head.fits cases.length = true) {i : Nat} (hi : i ∈ head.indices) :
    i < cases.length := by
  rw [fits, Bool.and_eq_true, List.all_eq_true] at h
  exact of_decide_eq_true (h.2 i hi)

/-- The case of a word is a case of the `switch`. -/
theorem SwitchHead.target_mem {w : Word} {i : Nat} (h : head.target w = some i) :
    i ∈ head.indices := by
  unfold target at h
  split at h
  · rename_i c hc
    cases h
    exact List.mem_append_left _ (List.mem_map_of_mem (List.mem_of_find?_eq_some hc))
  · exact List.mem_append_right _ (by simp [h])

theorem targetBodies_eq (head : SwitchHead) (cases : List StmtEmitter) :
    targetBodies head cases = head.indices.map (cases[·]?) := by
  unfold targetBodies SwitchHead.indices
  rw [List.map_append, List.map_map]
  cases head.defaultCase <;> rfl

theorem dispatchIndex_le (infos : List CaseInfo) (minVal maxVal : Scalar) (w : Word) :
    dispatchIndex infos minVal maxVal w ≤ infos.length := by
  unfold dispatchIndex
  split
  · exact Nat.le_refl _
  · exact List.findIdx_le_length.trans (Nat.le_of_eq (List.length_map _))

/-- The target that the dispatch takes is that of the case of the word. -/
theorem SwitchHead.indices_dispatch {first last : CaseInfo}
    (hfirst : head.caseInfos[0]? = some first)
    (hlast : head.caseInfos[head.caseInfos.size - 1]? = some last) (hclose : head.close = true)
    (w : Word) : head.indices[dispatchIndex head.caseInfos.toList first.start last.stop w]? =
      head.target w := by
  have hspan := Spans.of_ends head.ends head.proper hfirst hlast
  have hlt : last.stopKey head.isSigned - first.key head.isSigned < 2 ^ 32 := by
    unfold close at hclose
    simp only [hfirst, hlast] at hclose
    exact of_decide_eq_true hclose
  have hfind := dispatchIndex_find (w := w) hspan hlt
  have hle := dispatchIndex_le head.caseInfos.toList first.start last.stop w
  generalize hi : dispatchIndex head.caseInfos.toList first.start last.stop w = i at hfind hle
  unfold indices target
  rw [← hfind]
  rcases Nat.lt_or_eq_of_le hle with hlt | rfl
  · rw [List.getElem?_append_left (by simpa using hlt), List.getElem?_map,
      List.getElem?_eq_getElem hlt]
    rfl
  · rw [List.getElem?_append_right (by simp), List.getElem?_eq_none (Nat.le_refl _)]
    cases head.defaultCase <;> simp

/-- The search finds the case of a constant. -/
theorem searchCases_target (hpos : head.caseInfos.size ≠ 0) (imm : Scalar) : ∃ found,
    searchCases head.isSigned head.caseInfos imm 0
      (BitVec.ofNat 32 head.caseInfos.size - 1).toNat = .ok found ∧
    (if found.isNone then head.defaultCase else found) = head.target imm := by
  have hlt := head.length_lt
  have hhi : (BitVec.ofNat 32 head.caseInfos.size - 1).toNat = head.caseInfos.size - 1 := by
    rw [BitVec.toNat_sub_of_le (by rw [BitVec.le_def]; simp; omega)]
    simp
    omega
  obtain ⟨found, hrun, hfound⟩ := searchCases_spec head.caseInfos imm (Int.le_refl 0)
    (show ((head.caseInfos.size - 1 : Nat) : Int) < head.caseInfos.size by omega)
    head.ends head.proper
  refine ⟨found, by rw [hhi]; exact hrun, ?_⟩
  unfold SwitchHead.target
  cases found with
  | some i =>
    obtain ⟨c, hc, rfl, hw⟩ := hfound
    cases hfind : head.caseInfos.toList.find? fun c => decide (c.key head.isSigned ≤
        Scalar.view imm head.isSigned ∧ Scalar.view imm head.isSigned ≤ c.stopKey head.isSigned) with
    | none =>
      have hnot := List.find?_eq_none.mp hfind c hc
      rw [decide_eq_true_iff] at hnot
      exact absurd hw hnot
    | some c' =>
      have hw' := List.find?_some hfind
      rw [decide_eq_true_iff] at hw'
      rw [eq_of_within (head.ends.imp apart_of_lt) hc (List.mem_of_find?_eq_some hfind) hw hw']
      rfl
  | none =>
    rw [List.find?_eq_none.mpr fun c hc hw => ?_]
    · rfl
    obtain ⟨k, hk, hget⟩ := List.getElem_of_mem hc
    rw [Array.length_toList] at hk
    rw [decide_eq_true_iff] at hw
    exact hfound k c (by omega) (by omega) (List.getElem?_eq_some_iff.mpr ⟨hk, hget⟩) hw

/-! ## The statement -/

theorem emitSwitchConst_ok {imm : Scalar} {emit : StmtEmitter} (hval : head.value = .const imm)
    (hfits : head.fits cases.length = true) (hpick : (match head.target imm with
      | some i => cases[i]?
      | none => some fun b u => pure (b, u)) = some emit)
    (h : StmtOk inLoop falls emit p) : StmtOk inLoop falls (emitStmtSwitch head cases) p := by
  have hpos : head.caseInfos.size ≠ 0 := by
    rw [SwitchHead.fits, Bool.and_eq_true] at hfits
    exact bne_iff_ne.mp hfits.1
  obtain ⟨found, hrun, hfound⟩ := searchCases_target hpos imm
  have heq : emitStmtSwitch head cases = emit := by
    funext b u
    unfold emitStmtSwitch
    simp only [hval, hrun, hfound]
    cases ht : head.target imm with
    | none =>
      simp only [ht, Option.some.injEq] at hpick
      exact congrFun (congrFun hpick b) u
    | some i =>
      simp only [ht] at hpick
      simp only [hpick]
  rwa [heq]

/-- The block behind a `switch` is not that of a body. Without a default case it is the last
target. -/
theorem switchEnd_ok (hlen : ts.length = head.caseInfos.size + 1) (hnd : ts.Nodup)
    (hts : ∀ t ∈ ts, EmptyBlock B t) : ∃ last B', switchEnd head ts B = some (last, B') ∧
      Allocs B B' ∧ EmptyBlock B' last ∧ (last ∈ ts ∨ B.bblocks.length ≤ last) ∧
      (∀ {α : Type} (xs : List α), xs.length = head.indices.length →
        ∀ x ∈ ts.zip xs, x.1 ≠ last) ∧
      (head.defaultCase = none → ts[head.caseInfos.size]? = some last) := by
  unfold switchEnd
  cases hdef : head.defaultCase with
  | some d =>
    refine ⟨B.bblocks.length, B.alloc, allocBBlock_run, .alloc B, emptyBlock_alloc B,
      .inr (Nat.le_refl _), fun xs _ x hx => ?_, nofun⟩
    exact Nat.ne_of_lt (hts x.1 (List.of_mem_zip hx).1).lt
  | none =>
    have hlt : head.caseInfos.size < ts.length := by omega
    have hlast : ts.getLast? = some ts[head.caseInfos.size] := by
      rw [List.getLast?_eq_getElem?, hlen]
      exact List.getElem?_eq_getElem hlt
    refine ⟨ts[head.caseInfos.size], B, by rw [hlast]; rfl, .refl B, hts _ (List.getElem_mem hlt),
      .inl (List.getElem_mem hlt), fun xs hxs x hx heq => ?_,
      fun _ => List.getElem?_eq_getElem hlt⟩
    obtain ⟨i, hi, rfl⟩ := List.getElem_of_mem hx
    rw [List.getElem_zip] at heq
    have hi' : i < head.caseInfos.size := by
      have hsize : head.indices.length = head.caseInfos.size := by
        simp [SwitchHead.indices, hdef]
      rw [List.length_zip] at hi
      omega
    exact Nat.ne_of_lt hi' ((hnd.getElem_inj_iff).mp heq)

/-- The bodies of the cases in the order of the targets. -/
theorem bodies_ok (hcases : List.Forall₂ (fun emit p => ∃ falls, StmtOk inLoop falls emit p) cases ps)
    (hfits : head.fits cases.length = true) : List.Forall₂ (BodyOk inLoop)
      (targetBodies head cases) (head.indices.map fun i => ps[i]?.getD fun _ _ => skip) := by
  rw [targetBodies_eq, List.forall₂_map_left_iff, List.forall₂_map_right_iff, List.forall₂_same]
  intro i hi
  have hlt := SwitchHead.lt_of_mem hfits hi
  have hlt' : i < ps.length := hcases.length_eq ▸ hlt
  obtain ⟨falls, hok⟩ := hcases.get hlt hlt'
  rw [List.getElem?_eq_getElem hlt']
  exact ⟨_, falls, List.getElem?_eq_getElem hlt, hok⟩

theorem emitSwitchExpr_ok (hval : head.value = .expr e)
    (hcases : List.Forall₂ (fun emit p => ∃ falls, StmtOk inLoop falls emit p) cases ps)
    (hfits : head.fits cases.length = true) (hclose : head.close = true) :
    StmtOk inLoop true (emitStmtSwitch head cases)
      fun env n => switch ((irMeaning env).select head) (ps.map fun p => p env n) := by
  intro b B F u ha ho hu
  have hpos : head.caseInfos.size ≠ 0 := by
    rw [SwitchHead.fits, Bool.and_eq_true] at hfits
    exact bne_iff_ne.mp hfits.1
  obtain ⟨first, hfirst⟩ : ∃ c, head.caseInfos[0]? = some c :=
    ⟨_, Array.getElem?_eq_getElem (Nat.pos_of_ne_zero hpos)⟩
  obtain ⟨last, hlast⟩ : ∃ c, head.caseInfos[head.caseInfos.size - 1]? = some c :=
    ⟨_, Array.getElem?_eq_getElem (by omega)⟩
  obtain ⟨ts, B₁, halloc, hlen, hal, hnd, hts⟩ := allocBBlocks_ok (head.caseInfos.size + 1) B
  obtain ⟨endBb, B₂, hend, hal', hempty, hmem, hne, hdef⟩ :=
    switchEnd_ok hlen hnd fun t ht => (hts t ht).2
  have hal₂ := hal.trans hal'
  obtain ⟨b₁, val, B₃, F₃, hexpr, huses, hspec⟩ :=
    e.ok b B₂ F (arena_of_sameNodes ha hal₂.nodes) (hal₂.isOpen b ho)
  have hb₁ : b₁ = b ∨ B.bblocks.length ≤ b₁ := fresh_trans hal₂.length (.inl rfl) hspec.code.fresh
  have hge : B.bblocks.length ≤ endBb :=
    hmem.elim (fun h => (hts endBb h).1) hal.length.trans
  have hkeep₃ : ∀ {t}, EmptyBlock B₂ t → B.bblocks.length ≤ t → EmptyBlock B₃ t := fun ht hle =>
    ht.emits hspec.code.emits (Nat.ne_of_gt (ho.lt.trans_le hle))
  have hts₃ : ∀ t ∈ ts, EmptyBlock B₃ t := fun t ht => hkeep₃ ((hts t ht).2.allocs hal') (hts t ht).1
  obtain ⟨B₄, hdisp, he₄, ⟨hsc, hfree⟩, hto⟩ := emitSwitchDispatch_spec head.isSigned val
    hspec.code.isOpen (fun t ht => (hts₃ t ht).lt) hlen hfirst hlast
  have hkeep₄ : ∀ {t}, EmptyBlock B₂ t → B.bblocks.length ≤ t → EmptyBlock B₄ t := fun ht hle => by
    refine (hkeep₃ ht hle).emits he₄ ?_
    rcases hspec.code.fresh with rfl | hge₁
    · exact Nat.ne_of_gt (ho.lt.trans_le hle)
    · exact Nat.ne_of_lt (ht.lt.trans_le hge₁)
  have hlen' : (targetBodies head cases).length = head.indices.length := by
    rw [targetBodies_eq, List.length_map]
  obtain ⟨js, ks, B₅, htargets, hcode⟩ := emitTargets_ok (bodies_ok hcases hfits) hnd
    (arena_of_sameNodes huses.arena ⟨hsc, hfree, fun j hj => he₄.targeted hj⟩) hu
    (hkeep₄ hempty hge) fun x hx => by
      have hx₁ := (List.of_mem_zip hx).1
      exact ⟨hkeep₄ ((hts x.1 hx₁).2.allocs hal') (hts x.1 hx₁).1, hne _ hlen' x hx⟩
  have he₄' := ((hal₂.emits b).trans hspec.code.emits (.inl rfl)).trans he₄ hb₁
  refine ⟨some endBb, u.add js ks, B₅, ?_, rfl, fun b' hb' => ?_, hcode.arena, js, ks, rfl,
    hcode.outside, lowered_atEnd ⟨hcode.emits he₄' fun x hx => (hts x.1 (List.of_mem_zip hx).1).1,
      fun j hj => ⟨he₄'.instrs.length_le.trans (hcode.waits j hj).1, (hcode.waits j hj).2⟩,
      hcode.nodup, fun env C brk cont n σ hG hjs hks => ?_⟩ hcode.last⟩
  · unfold emitStmtSwitch
    simp only [hval]
    rw [bind_run _ _ halloc, bind_run _ _ hend]
    refine (bind_run (theBlock (some b)) _ (pure_run b)).trans ?_
    rw [bind_run _ _ hexpr, bind_run _ _ hdisp, bind_run _ _ htargets]
    rfl
  · cases hb'
    exact ⟨hcode.last.isOpen, .inr hge⟩
  · -- the expression, the dispatch to a target, and its body
    obtain ⟨σ₁, hr, ha₁, hw⟩ := hspec.run env σ
    have hG₄ := hcode.grows.trans hG
    obtain ⟨C', hF, hstep⟩ := hG₄.future
    have hle := dispatchIndex_le head.caseInfos.toList first.start last.stop (e.sem env σ.store).2
    have hidx := SwitchHead.indices_dispatch hfirst hlast hclose (e.sem env σ.store).2
    generalize hi : dispatchIndex head.caseInfos.toList first.start last.stop
      (e.sem env σ.store).2 = idx at hle hidx
    rw [Array.length_toList] at hle
    have hlt : idx < ts.length := by omega
    obtain ⟨⟨bb, pos, σ₂⟩, hs₂, rfl, rfl, hst₂⟩ := hto C' env σ₁ _ ts[idx] hF hw (by
      rw [hi, List.getElem?_eq_getElem hlt])
    have hs₁ := hr.grows (he₄.grows.trans hG₄)
    rw [hal₂.endPos] at hs₁
    refine Carries.of_steps (hs₁.trans (Relation.ReflTransGen.mono (fun _ _ => hstep env _ _) _ _ hs₂)) ?_
    have hst : σ₂.store = (e.sem env σ.store).1 := hst₂.trans ha₁.store
    unfold switch irMeaning
    simp only [hval]
    rw [← hst]
    cases htarget : head.target (e.sem env σ.store).2 with
    | none =>
      refine ⟨_, .refl, rfl, ?_, rfl⟩
      rw [htarget, List.getElem?_eq_none_iff] at hidx
      unfold SwitchHead.indices at hidx
      rw [List.length_append, List.length_map, Array.length_toList] at hidx
      have hsize : idx = head.caseInfos.size := by omega
      have hnone : head.defaultCase = none := by
        rw [← Option.isNone_iff_eq_none, ← Option.not_isSome]
        cases hd : head.defaultCase with
        | none => rfl
        | some d =>
          rw [hd] at hidx
          simp at hidx
          omega
      have hlast := hdef hnone
      rw [← hsize, List.getElem?_eq_getElem hlt] at hlast
      exact Option.some.inj hlast
    | some i =>
      rw [htarget] at hidx
      have hilt : i < ps.length :=
        hcases.length_eq ▸ SwitchHead.lt_of_mem hfits (SwitchHead.target_mem htarget)
      have hx : (ts[idx], ps[i]) ∈
          ts.zip (head.indices.map fun i => ps[i]?.getD fun _ _ => skip) := by
        refine List.mem_of_getElem? (i := idx) ?_
        rw [List.getElem?_zip_eq_some, List.getElem?_map, hidx]
        exact ⟨List.getElem?_eq_getElem hlt, by
          simp only [Option.map_some, List.getElem?_eq_getElem hilt, Option.getD_some]⟩
      have hbody := hcode.body _ hx env C brk cont n σ₂ hG hjs hks
      simp only [Option.bind_some, List.getElem?_map, List.getElem?_eq_getElem hilt,
        Option.map_some]
      exact hbody

end Nibble.IR.Lowering
