import Nibble.IR.DeadSteps

/-!
# Threading a block

What a round of `IR_rm_dead_bblocks` does to a block that it can remove: its
predecessors jump past it (`Threaded`), and the invariant of the predecessor
lists is kept. Which blocks can be removed does not change on the way.
-/

namespace Nibble.IR

open Nibble.Lib Nibble.Lib.Flow

variable {B B' : ProcBuilder} {arr arr' : List BBlockId} {b t p x : BBlockId}

theorem removeSwap_perm_erase {l : List BBlockId} (h : b ∈ l) :
    (removeSwap l ((l.findIdx? (· = b)).getD 0)).Perm (l.erase b) := by
  obtain ⟨l₁, l₂, rfl, hb⟩ := List.eq_append_cons_of_mem h
  have hidx : (l₁ ++ b :: l₂).findIdx? (· = b) = some l₁.length := by
    rw [List.findIdx?_append, List.findIdx?_eq_none_iff.mpr]
    · simp [List.findIdx?_cons]
    · intro y hy
      simpa using fun e : y = b => hb (e ▸ hy)
  rw [hidx, Option.getD_some]
  obtain ⟨r', hr, hp⟩ := removeSwap_append l₁ l₂ b
  rw [hr, List.erase_append_right _ hb, List.erase_cons_head]
  exact hp.append_left l₁

/-! ## Predecessors -/

theorem ProcBuilder.Preds.edge (h : B.Preds arr) (hb : b ∈ arr) (hp : p ∈ B.preds b) :
    some b ∈ B.succs p := by
  have := h.count b hb p (h.mem b hb p hp)
  exact List.count_pos_iff.mp (this ▸ List.count_pos_iff.mpr hp)

theorem ProcBuilder.Preds.pred (h : B.Preds arr) (hb : b ∈ arr) (hp : p ∈ arr)
    (he : some b ∈ B.succs p) : p ∈ B.preds b := by
  have := h.count b hb p hp
  exact List.count_pos_iff.mp (this.symm ▸ List.count_pos_iff.mpr he)

theorem ProcBuilder.Preds.lastInstr (h : B.Preds arr) (hb : b ∈ arr) (hp : p ∈ B.preds b) :
    ∃ j i, B.lastInstr p = some (j, i) := lastInstr_of_mem_succs (h.edge hb hp)

theorem canRemove_true {ps : List BBlockId} (hl : ∀ p ∈ ps, ∃ j i, B.lastInstr p = some (j, i))
    (hf : ∀ p ∈ ps, ¬ B.FallsInto p b) : canRemove B b ps = some true := by
  induction ps with
  | nil => rfl
  | cons p ps ih =>
    have ih := ih (fun q hq => hl q (List.mem_cons_of_mem _ hq))
      fun q hq => hf q (List.mem_cons_of_mem _ hq)
    obtain ⟨j, i, hp⟩ := hl p List.mem_cons_self
    unfold canRemove
    rw [hp]
    cases i with
    | condJmp s u f a =>
      have hne : f ≠ b := by
        rintro rfl
        exact hf p List.mem_cons_self ⟨j, s, u, a, hp⟩
      simp only [if_neg hne]
      exact ih
    | _ => exact ih

theorem canRemove_false {ps : List BBlockId} (hl : ∀ p ∈ ps, ∃ j i, B.lastInstr p = some (j, i))
    (hf : ∃ p ∈ ps, B.FallsInto p b) : canRemove B b ps = some false := by
  induction ps with
  | nil =>
    obtain ⟨p, hp, -⟩ := hf
    cases hp
  | cons p ps ih =>
    have ih := ih (fun q hq => hl q (List.mem_cons_of_mem _ hq))
    obtain ⟨j, i, hp⟩ := hl p List.mem_cons_self
    have htail : ¬ B.FallsInto p b → ∃ q ∈ ps, B.FallsInto q b := by
      intro hno
      obtain ⟨q, hq, hqf⟩ := hf
      rcases List.mem_cons.mp hq with rfl | hq
      · exact absurd hqf hno
      · exact ⟨q, hq, hqf⟩
    unfold canRemove
    rw [hp]
    cases i with
    | condJmp s u f a =>
      by_cases e : f = b
      · simp only [if_pos e]
      · simp only [if_neg e]
        refine ih (htail ?_)
        rintro ⟨j', s', u', a', h⟩
        rw [hp] at h
        cases h
        exact e rfl
    | _ =>
      refine ih (htail ?_)
      rintro ⟨j', s', u', a', h⟩
      rw [hp] at h
      cases h

/-! ## Threading -/

/-- The predecessors of `b` jump to `t`. -/
structure Threaded (B : ProcBuilder) (b t : BBlockId) (B' : ProcBuilder) : Prop where
  instrs : ∀ x : BBlockId, (B'.bblocks[x]?).map BBlock.instrs = (B.bblocks[x]?).map BBlock.instrs
  length : B'.instrs.length = B.instrs.length
  hit : ∀ p ∈ B.preds b, ∀ j i, B.lastInstr p = some (j, i) →
    i.JumpsTo b ∧ B'.lastInstr p = some (j, i.withTarget t)
  miss : ∀ x, x ∉ B.preds b → ∀ j i, B.lastInstr x = some (j, i) →
    (∀ p ∈ B.preds b, ∀ i', B.lastInstr p ≠ some (j, i')) → B'.lastInstr x = some (j, i)
  preds : ∀ x, x ≠ t → B'.preds x = B.preds x
  predsTarget : b ∈ B.preds t → (B'.preds t).Perm ((B.preds t ++ B.preds b).erase b)

theorem removePred_run {bt : BBlock} (ht : B.bblocks[t]? = some bt) :
    ∃ B', removePred t b B = some ((), B') ∧ B'.instrs = B.instrs ∧
      ∀ x, B'.bblocks[x]? = (B.bblocks[x]?).map fun bb =>
        if x = t then { bb with preds := removeSwap bb.preds ((bb.preds.findIdx? (· = b)).getD 0) }
        else bb := by
  have htl : B.bblocks.length > t := (List.getElem?_eq_some_iff.mp ht).1
  unfold removePred
  rw [ht]
  refine ⟨_, rfl, rfl, fun x => ?_⟩
  by_cases e : x = t
  · subst e
    show (B.bblocks.set x _)[x]? = _
    rw [List.getElem?_set_self htl, ht, Option.map_some, if_pos rfl]
  · show (B.bblocks.set t _)[x]? = _
    rw [List.getElem?_set_ne (Ne.symm e)]
    simp [e]

theorem thread_run (hB : B.Preds arr) (hb : b ∈ arr) (hr : B.Removable b)
    (ht : B.OnlyJumps b (some t)) (hs : ∀ p ∈ B.preds b, ¬ B.EndsInSwitch p) :
    ∃ B₁ B', retargetPreds b t (B.preds b) B = some ((), B₁) ∧ removePred t b B₁ = some ((), B') ∧
      Threaded B b t B' := by
  have hjump : ∀ p ∈ B.preds b, ∃ j i, B.lastInstr p = some (j, i) ∧ i.JumpsTo b ∧
      ∀ s u a, i ≠ .condJmp s u b a := by
    intro p hp
    have he := hB.edge hb hp
    obtain ⟨j, i, hl⟩ := hB.lastInstr hb hp
    rw [succs_of_lastInstr hl] at he
    have hnf : ∀ s u a, i ≠ .condJmp s u b a := by
      rintro s u a rfl
      exact hr.noFall p hp ⟨j, s, u, a, hl⟩
    refine ⟨j, i, hl, ?_, hnf⟩
    cases i with
    | jmp s u =>
      show u = some b
      exact (List.mem_singleton.mp he).symm
    | condJmp s u f a =>
      show u = some b
      rcases List.mem_cons.mp he with he | he
      · exact he.symm
      · have : f = b := (Option.some.inj (List.mem_singleton.mp he)).symm
        subst this
        exact absurd rfl (hnf s u a)
    | switchCaseJmp s v ts rs => exact absurd ⟨j, s, v, ts, rs, hl⟩ (hs p hp)
    | _ => cases he
  have hnd : (B.preds b).Nodup := by
    refine List.nodup_iff_count.mpr fun p => ?_
    by_cases hp : p ∈ B.preds b
    · obtain ⟨j, i, hl, hi, hnf⟩ := hjump p hp
      rw [hB.count b hb p (hB.mem b hb p hp), succs_of_lastInstr hl]
      cases i with
      | jmp s u => exact List.count_le_length
      | condJmp s u f a =>
        have hne : some f ≠ some b := by
          intro e
          cases e
          exact hnf s u a rfl
        show List.count (some b) [u, some f] ≤ 1
        rw [List.count_cons, List.count_singleton]
        simp only [beq_iff_eq, hne, if_false]
        split <;> omega
      | _ => exact hi.elim
    · rw [List.count_eq_zero_of_not_mem hp]
      omega
  have hinj : LastInj B (B.preds b) := fun p hp q hq =>
    hB.last p (hB.mem b hb p hp) q (hB.mem b hb q hq)
  obtain ⟨bt, hbt⟩ : ∃ bt, B.bblocks[t]? = some bt := by
    obtain ⟨bb, j, s, h1, h2, h3⟩ := ht
    refine hB.target b hb t ?_
    rw [succs_of_lastInstr (lastInstr_eq_some.mpr ⟨bb, h1, by rw [h2]; rfl, h3⟩)]
    exact List.mem_singleton.mpr rfl
  obtain ⟨B₁, hrun₁, hr₁, hlen₁⟩ := retargetPreds_run hnd hinj
    (fun p hp => (hjump p hp).imp fun j h => h.imp fun i h => ⟨h.1, h.2.1⟩) ⟨bt, hbt⟩
  have hbt₁ : B₁.bblocks[t]? = some { bt with preds := bt.preds ++ B.preds b } := by
    rw [hr₁.block, hbt, Option.map_some, if_pos rfl]
  obtain ⟨B', hrun₂, hinstrs, hblocks⟩ := removePred_run (b := b) hbt₁
  have hids : ∀ x : BBlockId, (B'.bblocks[x]?).map BBlock.instrs = (B.bblocks[x]?).map BBlock.instrs := by
    intro x
    rw [hblocks, hr₁.block, Option.map_map, Option.map_map]
    congr 1
    funext bb
    simp only [Function.comp]
    split <;> rfl
  have hlast : ∀ {x j i i'}, B.lastInstr x = some (j, i) → B₁.instrs[j]? = some i' →
      B'.lastInstr x = some (j, i') := by
    intro x j i i' hx hi
    obtain ⟨bb, h1, h2, -⟩ := lastInstr_eq_some.mp hx
    have hbb := hids x
    rw [h1, Option.map_some] at hbb
    obtain ⟨bb', h1', h2'⟩ := Option.map_eq_some_iff.mp hbb
    exact lastInstr_eq_some.mpr ⟨bb', h1', by rw [h2', h2], by rw [hinstrs, hi]⟩
  refine ⟨B₁, B', hrun₁, hrun₂, hids, by rw [hinstrs, hlen₁], fun p hp j i hl => ?_,
    fun x hx j i hl hno => ?_, fun x hx => ?_, fun hbt' => ?_⟩
  · obtain ⟨j', i', hl', hj, -⟩ := hjump p hp
    rw [hl] at hl'
    cases hl'
    exact ⟨hj, hlast hl (hr₁.hit p hp j i hl)⟩
  · obtain ⟨-, -, -, hi⟩ := lastInstr_eq_some.mp hl
    exact hlast hl (hr₁.miss j i hi hno)
  · unfold ProcBuilder.preds
    rw [hblocks, hr₁.block, Option.map_map, Option.map_map]
    congr 2
    funext bb
    simp only [Function.comp, if_neg hx]
  · have hold : B.preds t = bt.preds := by simp [ProcBuilder.preds, hbt]
    have hnew : B'.preds t = removeSwap (B.preds t ++ B.preds b)
        (((B.preds t ++ B.preds b).findIdx? (· = b)).getD 0) := by
      rw [hold]
      unfold ProcBuilder.preds
      rw [hblocks, hbt₁]
      simp [ProcBuilder.preds]
    rw [hnew]
    exact removeSwap_perm_erase (List.mem_append_left _ hbt')

/-! ## What threading keeps -/

section

variable (hB : B.Preds arr) (hb : b ∈ arr) (hr : B.Removable b) (h : Threaded B b t B')
include hB hb h

theorem Threaded.last {j : InstrId} {i : Instr} (hx : x ∈ arr) (hl : B.lastInstr x = some (j, i)) :
    x ∈ B.preds b ∧ i.JumpsTo b ∧ B'.lastInstr x = some (j, i.withTarget t) ∨
    x ∉ B.preds b ∧ B'.lastInstr x = some (j, i) := by
  by_cases hp : x ∈ B.preds b
  · obtain ⟨h1, h2⟩ := h.hit x hp j i hl
    exact .inl ⟨hp, h1, h2⟩
  · refine .inr ⟨hp, h.miss x hp j i hl fun p hpb i' hl' => hp ?_⟩
    rw [hB.last x hx p (hB.mem b hb p hpb) j i i' hl hl']
    exact hpb

theorem Threaded.last_back {j : InstrId} {i' : Instr} (hx : x ∈ arr)
    (hl' : B'.lastInstr x = some (j, i')) : ∃ i, B.lastInstr x = some (j, i) ∧
      (x ∈ B.preds b ∧ i.JumpsTo b ∧ i' = i.withTarget t ∨ x ∉ B.preds b ∧ i' = i) := by
  obtain ⟨bb', h1', h2', -⟩ := lastInstr_eq_some.mp hl'
  have hid := h.instrs x
  rw [h1', Option.map_some] at hid
  obtain ⟨bb, h1, h2⟩ := Option.map_eq_some_iff.mp hid.symm
  obtain ⟨bb₀, h0, hv⟩ := hB.valid x hx
  rw [h1] at h0
  cases h0
  rw [← h2] at h2'
  obtain ⟨i, hi⟩ := hv j (List.mem_of_getLast? h2')
  have hl : B.lastInstr x = some (j, i) := lastInstr_eq_some.mpr ⟨bb, h1, h2', hi⟩
  refine ⟨i, hl, ?_⟩
  rcases h.last hB hb hx hl with ⟨hp, hj, e⟩ | ⟨hp, e⟩
  · rw [hl'] at e
    cases e
    exact .inl ⟨hp, hj, rfl⟩
  · rw [hl'] at e
    cases e
    exact .inr ⟨hp, rfl⟩

include hr

theorem Threaded.exit {j : InstrId} {i : Instr} (hx : x ∈ arr) (hl : B.lastInstr x = some (j, i)) :
    ∃ i', B'.lastInstr x = some (j, i') ∧ i'.exit = i.exit.map (redirect b t) ∧
      i'.isJump = i.isJump := by
  rcases h.last hB hb hx hl with ⟨hp, hj, hl'⟩ | ⟨hp, hl'⟩
  · refine ⟨_, hl', Instr.exit_withTarget hj ?_, Instr.isJump_withTarget i⟩
    rintro s u a rfl
    exact hr.noFall x hp ⟨j, s, u, a, hl⟩
  · refine ⟨i, hl', (exit_map_of_not_mem fun hm => hp (hB.pred hb hx ?_)).symm, rfl⟩
    rw [succs_of_lastInstr hl]
    exact hm

theorem Threaded.node {bb : BBlock} (hx : x ∈ arr) (hbb : B.bblocks[x]? = some bb) :
    ∃ bb', B'.bblocks[x]? = some bb' ∧ bb'.instrs = bb.instrs ∧
      B'.node bb' = (B.node bb).map (redirect b t) := by
  have hid := h.instrs x
  rw [hbb, Option.map_some] at hid
  obtain ⟨bb', hbb', hids⟩ := Option.map_eq_some_iff.mp hid
  refine ⟨bb', hbb', hids, ?_⟩
  cases hj : bb.instrs.getLast? with
  | none =>
    unfold ProcBuilder.node
    rw [hids, hj]
    rfl
  | some j =>
    obtain ⟨bb₀, hbb₀, hv⟩ := hB.valid x hx
    rw [hbb] at hbb₀
    cases hbb₀
    obtain ⟨i, hi⟩ := hv j (List.mem_of_getLast? hj)
    have hl : B.lastInstr x = some (j, i) := lastInstr_eq_some.mpr ⟨bb, hbb, hj, hi⟩
    obtain ⟨i', hl', he, hjmp⟩ := h.exit hB hb hr hx hl
    rw [node_of_lastInstr hbb hl, node_of_lastInstr hbb' hl', he, hjmp, hids]
    rfl

theorem Threaded.succs (hx : x ∈ arr) :
    B'.succs x = (B.succs x).map (Option.map (redirect b t)) := by
  obtain ⟨bb, hbb, -⟩ := hB.valid x hx
  obtain ⟨bb', hbb', -, hn⟩ := h.node hB hb hr hx hbb
  unfold ProcBuilder.succs
  rw [hbb, hbb', Option.map_some, Option.map_some, hn]
  exact exitTargets_map _ _

theorem Threaded.threads (ht : B.OnlyJumps b (some t)) (hmem : ∀ y, y ∈ arr' ↔ y ∈ arr ∧ y ≠ b) :
    Threads b t (B.graph arr) (B'.graph arr') := by
  refine ⟨?_, ?_, fun y hy => ?_⟩
  · obtain ⟨bb, j, s, h1, h2, h3⟩ := ht
    unfold ProcBuilder.graph
    rw [if_pos hb, h1, Option.map_some,
      node_of_lastInstr h1 (lastInstr_eq_some.mpr ⟨bb, h1, by rw [h2]; rfl, h3⟩), h2]
    rfl
  · unfold ProcBuilder.graph
    rw [if_neg fun hm => ((hmem b).mp hm).2 rfl]
  · unfold ProcBuilder.graph
    by_cases hm : y ∈ arr
    · obtain ⟨bb, hbb, -⟩ := hB.valid y hm
      obtain ⟨bb', hbb', -, hn⟩ := h.node hB hb hr hm hbb
      rw [if_pos hm, if_pos ((hmem y).mpr ⟨hm, hy⟩), hbb, hbb', Option.map_some, Option.map_some,
        Option.map_some, hn]
    · rw [if_neg hm, if_neg fun hm' => hm ((hmem y).mp hm').1]
      rfl

omit hr in
theorem Threaded.fallsInto {y : BBlockId} (hx : x ∈ arr) : B'.FallsInto x y ↔ B.FallsInto x y := by
  constructor
  · rintro ⟨j, s, u, a, hl'⟩
    obtain ⟨i, hl, ⟨-, -, e⟩ | ⟨-, rfl⟩⟩ := h.last_back hB hb hx hl'
    · cases i <;> cases e
      exact ⟨j, s, _, a, hl⟩
    · exact ⟨j, s, u, a, hl⟩
  · rintro ⟨j, s, u, a, hl⟩
    rcases h.last hB hb hx hl with ⟨-, -, e⟩ | ⟨-, e⟩
    · exact ⟨j, s, _, a, e⟩
    · exact ⟨j, s, u, a, e⟩

end

theorem onlyJumps_iff {u : Option BBlockId} : B.OnlyJumps x u ↔
    ∃ bb j s, B.bblocks[x]? = some bb ∧ bb.instrs = [j] ∧ B.lastInstr x = some (j, .jmp s u) := by
  constructor
  · rintro ⟨bb, j, s, h1, h2, h3⟩
    exact ⟨bb, j, s, h1, h2, lastInstr_eq_some.mpr ⟨bb, h1, by rw [h2]; rfl, h3⟩⟩
  · rintro ⟨bb, j, s, h1, h2, h3⟩
    exact ⟨bb, j, s, h1, h2, (lastInstr_eq_some.mp h3).choose_spec.2.2⟩

theorem ProcBuilder.OnlyJumps.succs {u : Option BBlockId} (h : B.OnlyJumps x u) :
    B.succs x = [u] := by
  obtain ⟨-, j, s, -, -, hl⟩ := onlyJumps_iff.mp h
  exact succs_of_lastInstr hl

theorem count_map_redirect (l : List (Option BBlockId)) (hx : x ≠ b) :
    (l.map (Option.map (redirect b t))).count (some x) =
      l.count (some x) + if x = t then l.count (some b) else 0 := by
  induction l with
  | nil => simp
  | cons y l ih =>
    rw [List.map_cons, List.count_cons, List.count_cons, List.count_cons, ih]
    cases y with
    | none => simp
    | some z =>
      by_cases e : z = b
      · subst e
        rw [Option.map_some, redirect_self]
        by_cases e' : x = t
        · subst e'
          simp [hx.symm]
          omega
        · simp [e', hx.symm, Ne.symm e']
      · rw [Option.map_some, redirect_other e]
        simp only [beq_iff_eq, Option.some.injEq, e, if_false]
        split <;> split <;> omega

section

variable (hB : B.Preds arr) (hb : b ∈ arr) (hr : B.Removable b) (h : Threaded B b t B')
  (ht : B.OnlyJumps b (some t)) (hmem : ∀ y, y ∈ arr' ↔ y ∈ arr ∧ y ≠ b)
include hB hb hr h ht hmem

omit hr in
/-- The predecessors of `t` are its own and those of `b`. -/
theorem Threaded.predsTarget_perm (htm : t ∈ arr') :
    b ∈ B.preds t ∧ (B'.preds t).Perm ((B.preds t ++ B.preds b).erase b) := by
  have hbt : b ∈ B.preds t := by
    refine hB.pred ((hmem t).mp htm).1 hb ?_
    rw [ht.succs]
    exact List.mem_singleton.mpr rfl
  exact ⟨hbt, h.predsTarget hbt⟩

theorem Threaded.count (hx : x ∈ arr') (hp : p ∈ arr') :
    (B'.preds x).count p = (B'.succs p).count (some x) := by
  obtain ⟨hx, hxb⟩ := (hmem x).mp hx
  obtain ⟨hp, hpb⟩ := (hmem p).mp hp
  rw [h.succs hB hb hr hp, count_map_redirect _ hxb]
  by_cases e : x = t
  · subst e
    obtain ⟨-, hperm⟩ := h.predsTarget_perm hB hb ht hmem ((hmem x).mpr ⟨hx, hxb⟩)
    rw [hperm.count_eq, List.count_erase_of_ne hpb, List.count_append, hB.count x hx p hp,
      hB.count b hb p hp, if_pos rfl]
  · rw [h.preds x e, hB.count x hx p hp, if_neg e, Nat.add_zero]

theorem Threaded.mem_preds (hx : x ∈ arr') (hp : p ∈ B'.preds x) : p ∈ arr' := by
  have hxm := hx
  obtain ⟨hx, hxb⟩ := (hmem x).mp hx
  rw [hmem]
  by_cases e : x = t
  · subst e
    obtain ⟨hbx, hperm⟩ := h.predsTarget_perm hB hb ht hmem hxm
    have hp' := List.mem_of_mem_erase (hperm.mem_iff.mp hp)
    refine ⟨?_, ?_⟩
    · rcases List.mem_append.mp hp' with hp' | hp'
      · exact hB.mem x hx p hp'
      · exact hB.mem b hb p hp'
    · rintro rfl
      -- the jump of `b` itself has been taken out
      have hzero : (B'.preds x).count p = 0 := by
        rw [hperm.count_eq, List.count_erase_self, List.count_append, hB.count x hx p hb,
          hB.count p hb p hb, ht.succs]
        have hne : some x ≠ some p := fun e => hxb (Option.some.inj e)
        simp [hne]
      have := List.count_pos_iff.mpr hp
      omega
  · rw [h.preds x e] at hp
    refine ⟨hB.mem x hx p hp, ?_⟩
    rintro rfl
    have he := hB.edge hx hp
    rw [ht.succs] at he
    exact e (Option.some.inj (List.mem_singleton.mp he))

theorem Threaded.preds_inv (hnd : arr'.Nodup) : B'.Preds arr' := by
  refine ⟨hnd, fun x hx => ?_, fun p hp q hq j i i' hl hl' => ?_, fun p hp u hu => ?_,
    fun x hx p hp => h.mem_preds hB hb hr ht hmem hx hp,
    fun x hx p hp => h.count hB hb hr ht hmem hx hp⟩
  · obtain ⟨bb, hbb, hv⟩ := hB.valid x ((hmem x).mp hx).1
    obtain ⟨bb', hbb', hids, -⟩ := h.node hB hb hr ((hmem x).mp hx).1 hbb
    refine ⟨bb', hbb', fun j hj => ?_⟩
    rw [hids] at hj
    obtain ⟨i, hi⟩ := hv j hj
    exact exists_instr hi h.length.symm
  · obtain ⟨_, h1, -⟩ := h.last_back hB hb ((hmem p).mp hp).1 hl
    obtain ⟨_, h2, -⟩ := h.last_back hB hb ((hmem q).mp hq).1 hl'
    exact hB.last p ((hmem p).mp hp).1 q ((hmem q).mp hq).1 j _ _ h1 h2
  · rw [h.succs hB hb hr ((hmem p).mp hp).1] at hu
    obtain ⟨y, hy, hyu⟩ := List.mem_map.mp hu
    obtain ⟨z, rfl, rfl⟩ := Option.map_eq_some_iff.mp hyu
    have hvalid : ∀ w : BBlockId, (∃ bt, B.bblocks[w]? = some bt) → ∃ bt, B'.bblocks[w]? = some bt := by
      rintro w ⟨bt, hbt⟩
      have hid := h.instrs w
      rw [hbt, Option.map_some] at hid
      obtain ⟨bt', hbt', -⟩ := Option.map_eq_some_iff.mp hid
      exact ⟨bt', hbt'⟩
    apply hvalid
    by_cases e : z = b
    · subst e
      rw [redirect_self]
      refine hB.target z hb t ?_
      rw [ht.succs]
      exact List.mem_singleton.mpr rfl
    · rw [redirect_other e]
      exact hB.target p ((hmem p).mp hp).1 z hy

omit hr ht hmem in
theorem Threaded.onlyJumps {u' : Option BBlockId} (hx : x ∈ arr) :
    B'.OnlyJumps x u' ↔ ∃ u, B.OnlyJumps x u ∧
      (x ∈ B.preds b ∧ u = some b ∧ u' = some t ∨ x ∉ B.preds b ∧ u' = u) := by
  constructor
  · intro hj
    obtain ⟨bb', j, s, h1', h2', hl'⟩ := onlyJumps_iff.mp hj
    have hid := h.instrs x
    rw [h1', Option.map_some] at hid
    obtain ⟨bb, h1, h2⟩ := Option.map_eq_some_iff.mp hid.symm
    rw [h2'] at h2
    obtain ⟨i, hl, ⟨hp, hjt, e⟩ | ⟨hp, rfl⟩⟩ := h.last_back hB hb hx hl'
    · cases i with
      | jmp s' u =>
        cases e
        exact ⟨u, onlyJumps_iff.mpr ⟨bb, j, _, h1, h2, hl⟩, .inl ⟨hp, hjt, rfl⟩⟩
      | condJmp => cases e
      | _ => exact hjt.elim
    · exact ⟨u', onlyJumps_iff.mpr ⟨bb, j, s, h1, h2, hl⟩, .inr ⟨hp, rfl⟩⟩
  · rintro ⟨u, hj, hu⟩
    obtain ⟨bb, j, s, h1, h2, hl⟩ := onlyJumps_iff.mp hj
    have hid := h.instrs x
    rw [h1, Option.map_some] at hid
    obtain ⟨bb', h1', h2'⟩ := Option.map_eq_some_iff.mp hid
    rcases hu with ⟨hp, rfl, rfl⟩ | ⟨hp, rfl⟩
    · obtain ⟨-, hl'⟩ := h.hit x hp j _ hl
      exact onlyJumps_iff.mpr ⟨bb', j, s, h1', h2'.trans h2, hl'⟩
    · rcases h.last hB hb hx hl with ⟨hp', -, -⟩ | ⟨-, e⟩
      · exact absurd hp' hp
      · exact onlyJumps_iff.mpr ⟨bb', j, s, h1', h2'.trans h2, e⟩

/-- Which blocks can be removed does not change. -/
theorem Threaded.removable (hx : x ∈ arr') : B'.Removable x ↔ B.Removable x := by
  have hxa := ((hmem x).mp hx).1
  have hjumps : (∃ u, B'.OnlyJumps x u) ↔ ∃ u, B.OnlyJumps x u := by
    constructor
    · rintro ⟨u', hu'⟩
      obtain ⟨u, hu, -⟩ := (h.onlyJumps hB hb hxa).mp hu'
      exact ⟨u, hu⟩
    · rintro ⟨u, hu⟩
      by_cases hp : x ∈ B.preds b
      · have hub : u = some b := by
          have he := hB.edge hb hp
          rw [hu.succs] at he
          exact (List.mem_singleton.mp he).symm
        exact ⟨some t, (h.onlyJumps hB hb hxa).mpr ⟨u, hu, .inl ⟨hp, hub, rfl⟩⟩⟩
      · exact ⟨u, (h.onlyJumps hB hb hxa).mpr ⟨u, hu, .inr ⟨hp, rfl⟩⟩⟩
  by_cases e : x = t
  · subst e
    obtain ⟨hbx, hperm⟩ := h.predsTarget_perm hB hb ht hmem hx
    have hpos : B'.preds x ≠ [] := by
      intro hnil
      have hlen := hperm.length_eq
      have h1 := List.length_pos_of_mem hbx
      have h2 := List.length_pos_iff.mpr hr.preds
      rw [hnil, List.length_erase_of_mem (List.mem_append_left _ hbx), List.length_append,
        List.length_nil] at hlen
      omega
    have hne : B.preds x ≠ [] := List.ne_nil_of_mem hbx
    have hbjump : ¬ B.FallsInto b x := by
      rintro ⟨j, s, u, a, hl⟩
      obtain ⟨-, j', s', -, -, hl'⟩ := onlyJumps_iff.mp ht
      rw [hl] at hl'
      cases hl'
    have hfall : (∀ p ∈ B'.preds x, ¬ B'.FallsInto p x) ↔ ∀ p ∈ B.preds x, ¬ B.FallsInto p x := by
      constructor
      · intro hno p hp hf
        have hpb : p ≠ b := by
          rintro rfl
          exact hbjump hf
        refine hno p (hperm.mem_iff.mpr ?_) ((h.fallsInto hB hb (hB.mem x hxa p hp)).mpr hf)
        exact (List.mem_erase_of_ne hpb).mpr (List.mem_append_left _ hp)
      · intro hno p hp hf
        have hpa := ((hmem p).mp (h.mem_preds hB hb hr ht hmem hx hp)).1
        have hf := (h.fallsInto hB hb hpa).mp hf
        refine hno p (hB.pred hxa hpa ?_) hf
        obtain ⟨j, s, u, a, hl⟩ := hf
        rw [succs_of_lastInstr hl]
        exact List.mem_cons_of_mem _ List.mem_cons_self
    exact ⟨fun hx' => ⟨hjumps.mp hx'.jumps, hne, hfall.mp hx'.noFall⟩,
      fun hx' => ⟨hjumps.mpr hx'.jumps, hpos, hfall.mpr hx'.noFall⟩⟩
  · have hp := h.preds x e
    have hfall : (∀ p ∈ B'.preds x, ¬ B'.FallsInto p x) ↔ ∀ p ∈ B.preds x, ¬ B.FallsInto p x := by
      rw [hp]
      exact forall₂_congr fun p hpx => not_congr (h.fallsInto hB hb (hB.mem x hxa p hpx))
    exact ⟨fun hx' => ⟨hjumps.mp hx'.jumps, hp ▸ hx'.preds, hfall.mp hx'.noFall⟩,
      fun hx' => ⟨hjumps.mpr hx'.jumps, hp.symm ▸ hx'.preds, hfall.mpr hx'.noFall⟩⟩

end

/-- `b` can be removed without a failed assertion. -/
structure ProcBuilder.Ready (B : ProcBuilder) (b : BBlockId) : Prop where
  target : ∃ t, B.OnlyJumps b (some t)
  preds : ∀ p ∈ B.preds b, ¬ B.EndsInSwitch p

theorem Threaded.endsInSwitch (hB : B.Preds arr) (hb : b ∈ arr) (h : Threaded B b t B')
    (hx : x ∈ arr) : B'.EndsInSwitch x ↔ B.EndsInSwitch x := by
  constructor
  · rintro ⟨j, s, v, ts, rs, hl'⟩
    obtain ⟨i, hl, ⟨-, hj, e⟩ | ⟨-, rfl⟩⟩ := h.last_back hB hb hx hl'
    · cases i <;> cases e
      exact hj.elim
    · exact ⟨j, s, v, ts, rs, hl⟩
  · rintro ⟨j, s, v, ts, rs, hl⟩
    rcases h.last hB hb hx hl with ⟨-, hj, -⟩ | ⟨-, e⟩
    · exact hj.elim
    · exact ⟨j, s, v, ts, rs, e⟩

theorem Threaded.ready (hB : B.Preds arr) (hb : b ∈ arr) (hr : B.Removable b)
    (h : Threaded B b t B') (ht : B.OnlyJumps b (some t)) (hs : ∀ p ∈ B.preds b, ¬ B.EndsInSwitch p)
    (hmem : ∀ y, y ∈ arr' ↔ y ∈ arr ∧ y ≠ b) (hx : x ∈ arr') : B'.Ready x ↔ B.Ready x := by
  have hxa := ((hmem x).mp hx).1
  have htarget : (∃ u, B'.OnlyJumps x (some u)) ↔ ∃ u, B.OnlyJumps x (some u) := by
    constructor
    · rintro ⟨u', hu'⟩
      obtain ⟨u, hu, ⟨-, rfl, -⟩ | ⟨-, rfl⟩⟩ := (h.onlyJumps hB hb hxa).mp hu'
      · exact ⟨b, hu⟩
      · exact ⟨u', hu⟩
    · rintro ⟨u, hu⟩
      by_cases hp : x ∈ B.preds b
      · have hub : some u = some b := by
          have he := hB.edge hb hp
          rw [hu.succs] at he
          exact (List.mem_singleton.mp he).symm
        exact ⟨t, (h.onlyJumps hB hb hxa).mpr ⟨_, hu, .inl ⟨hp, hub, rfl⟩⟩⟩
      · exact ⟨u, (h.onlyJumps hB hb hxa).mpr ⟨_, hu, .inr ⟨hp, rfl⟩⟩⟩
  have hpreds : (∀ p ∈ B'.preds x, ¬ B'.EndsInSwitch p) ↔ ∀ p ∈ B.preds x, ¬ B.EndsInSwitch p := by
    by_cases e : x = t
    · subst e
      obtain ⟨hbx, hperm⟩ := h.predsTarget_perm hB hb ht hmem hx
      have hbs : ¬ B.EndsInSwitch b := by
        rintro ⟨j, s, v, ts, rs, hl⟩
        obtain ⟨-, j', s', -, -, hl'⟩ := onlyJumps_iff.mp ht
        rw [hl] at hl'
        cases hl'
      constructor
      · intro hno p hp hps
        have hpb : p ≠ b := by
          rintro rfl
          exact hbs hps
        refine hno p (hperm.mem_iff.mpr ?_) ((h.endsInSwitch hB hb (hB.mem x hxa p hp)).mpr hps)
        exact (List.mem_erase_of_ne hpb).mpr (List.mem_append_left _ hp)
      · intro hno p hp hps
        have hpa := ((hmem p).mp (h.mem_preds hB hb hr ht hmem hx hp)).1
        have hps := (h.endsInSwitch hB hb hpa).mp hps
        rcases List.mem_append.mp (List.mem_of_mem_erase (hperm.mem_iff.mp hp)) with hp' | hp'
        · exact hno p hp' hps
        · exact hs p hp' hps
    · rw [h.preds x e]
      exact forall₂_congr fun p hpx => not_congr (h.endsInSwitch hB hb (hB.mem x hxa p hpx))
  exact ⟨fun hx' => ⟨htarget.mp hx'.target, hpreds.mp hx'.preds⟩,
    fun hx' => ⟨htarget.mpr hx'.target, hpreds.mpr hx'.preds⟩⟩

end Nibble.IR
