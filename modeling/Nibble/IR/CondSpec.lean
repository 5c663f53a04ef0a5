import Nibble.IR.Condition

/-!
# Code with pending jumps

The run contract of a condition whose jumps are not all patched. Control
leaves such code by an `Exit`: a pending jump, or a position. `CondSpec` lists
the pending jumps `P` with the values they stand for; the other exits are
given by `Al`. `JumpSpec` is the contract of a deferred comparison.
-/

namespace Nibble.IR

variable {B B' B'' B₁ : ProcBuilder} {b b' b'' : Nat} {env : Env}

/-! ## Changing one instruction later -/

theorem Emits.set {j : Nat} {i : Instr} (h : Emits b B B') (hj : B.instrs.length ≤ j) :
    Emits b B { B' with instrs := B'.instrs.set j i } := by
  refine ⟨?_, h.memObjs, h.numRegs, h.length, h.cur, h.other, h.isOpen⟩
  obtain ⟨t, ht⟩ := h.instrs
  refine ⟨t.set (j - B.instrs.length) i, ?_⟩
  simp only [← ht]
  rw [List.set_append_right _ _ hj]

theorem Emits.congr (h : Emits b B B') (hi : B''.instrs = B'.instrs)
    (hm : B''.memObjs = B'.memObjs) (hr : B''.numRegs = B'.numRegs)
    (hl : B''.bblocks.length = B'.bblocks.length)
    (hb : ∀ k, B''.blockInstrs k = B'.blockInstrs k) (ho : ∀ k, B''.IsOpen k ↔ B'.IsOpen k) :
    Emits b B B'' := by
  refine ⟨hi ▸ h.instrs, hm ▸ h.memObjs, hr ▸ h.numRegs, hl ▸ h.length, ?_, fun k hk hkb => ?_,
    fun k hk hkb hop => (ho k).mpr (h.isOpen k hk hkb hop)⟩
  · rw [hb]
    exact h.cur
  · rw [hb]
    exact h.other k hk hkb

theorem Future.set {j : Nat} {x y : Instr} (hx : B.instrs[j]? = some x) (hxy : x.Later y) :
    Future (fun i => i = j) B { B with instrs := B.instrs.set j y } := by
  refine ⟨fun i z hz => ?_, List.prefix_refl _, fun _ => List.prefix_refl _⟩
  by_cases e : j = i
  · subst e
    have hlt := (List.getElem?_eq_some_iff.mp hx).1
    obtain rfl : z = x := Option.some.inj (hz.symm.trans hx)
    exact ⟨y, by simp [hlt], .inr ⟨rfl, hxy⟩⟩
  · exact ⟨z, by simp [e, hz], .inl rfl⟩

theorem Future.congr {M : InstrId → Prop} (h : Future M B B') (hi : B''.instrs = B'.instrs)
    (hm : B''.memObjs = B'.memObjs) (hb : ∀ k, B''.blockInstrs k = B'.blockInstrs k) :
    Future M B B'' := by
  refine ⟨fun i x hx => ?_, hm ▸ h.memObjs, fun k => ?_⟩
  · rw [hi]
    exact h.instrs i x hx
  · rw [hb]
    exact h.blocks k

theorem Future.setTarget {j s f t : Nat} {a : Reg}
    (hx : B.instrs[j]? = some (.condJmp s none f a)) :
    Future (fun i => i = j) B (B.setTarget j (.condJmp s (some t) f a) s t) :=
  (Future.set hx (.patch s f a t)).congr rfl rfl fun _ => ProcBuilder.blockInstrs_setTarget

/-- Changes allowed at both steps add up. -/
theorem Future.trans' {M M' : InstrId → Prop} (h : Future M B B') (h' : Future M' B' B'') :
    Future (fun i => M i ∨ M' i) B B'' :=
  (h.mono fun _ _ => .inl).trans (h'.mono fun _ _ => .inr)

/-- A comparison stays a comparison; its condition may have been inverted. -/
theorem Future.cmp {M : InstrId → Prop} (h : Future M B B') {c : Nat} {x : Instr} {r : Reg}
    (hx : B.instrs[c]? = some x) (hr : x.cmpReg? = some r) :
    B'.instrs[c]? = some x ∨ B'.instrs[c]? = some x.flipCond := by
  obtain ⟨y, hy, rfl | ⟨-, hl⟩⟩ := h.instrs c x hx
  · exact .inl hy
  · cases hl with
    | refl => exact .inl hy
    | flip => exact .inr hy
    | patch => cases hr

theorem flipCond_ne {x : Instr} {r : Reg} (hr : x.cmpReg? = some r) : x.flipCond ≠ x := by
  cases x with
  | intCmp | fltCmp => simp [Instr.flipCond, oppositeCond_ne]
  | _ => cases hr

/-- A conditional jump stays one, and keeps the target it has. -/
theorem Future.condJmp {M : InstrId → Prop} (h : Future M B B') {j s f : Nat}
    {t : Option BBlockId} {a : Reg} (hx : B.instrs[j]? = some (.condJmp s t f a)) :
    ∃ t', B'.instrs[j]? = some (.condJmp s t' f a) ∧ ∀ u, t = some u → t' = some u := by
  obtain ⟨y, hy, rfl | ⟨-, hl⟩⟩ := h.instrs j _ hx
  · exact ⟨t, hy, fun _ h => h⟩
  · cases hl with
    | refl => exact ⟨t, hy, fun _ h => h⟩
    | flip => exact ⟨t, hy, fun _ h => h⟩
    | patch s f a t' => exact ⟨some t', hy, fun _ h => by cases h⟩

theorem Code.setTarget {O : Nat → Prop} {j s f t : Nat} {a : Reg} (h : Code b B b' B' O) (hj : O j)
    (hx : B'.instrs[j]? = some (.condJmp s none f a)) :
    Code b B b' (B'.setTarget j (.condJmp s (some t) f a) s t) (fun i => O i ∧ i ≠ j) := by
  obtain ⟨l, hl, hlr, hc⟩ := h.patches
  have hrj := h.range j hj
  refine ⟨(h.emits.set hrj.1).congr rfl rfl rfl (by simp)
      (fun _ => ProcBuilder.blockInstrs_setTarget) (fun _ => ProcBuilder.isOpen_setTarget),
    ProcBuilder.isOpen_setTarget.mpr h.isOpen, h.fresh, fun i hi => ?_, l ++ [j], ?_, ?_, ?_⟩
  · simpa using h.range i hi.1
  · simp [hl]
  · intro i hi
    simp only [ProcBuilder.setTarget_instrs, List.length_set]
    rcases List.mem_append.mp hi with hm | hm
    · exact hlr i hm
    · rw [List.mem_singleton.mp hm]
      exact hrj
  · intro i s' t' f' a' hi hix
    rw [List.count_append]
    by_cases e : j = i
    · subst e
      have h0 := (hc j s none f a hi hx).1 hj
      simp [h0]
    · have hix' : B'.instrs[i]? = some (.condJmp s' t' f' a') := by
        simpa [e] using hix
      have h1 := hc i s' t' f' a' hi hix'
      have h2 : List.count i [j] = 0 := by simp [e]
      rw [h2]
      refine ⟨fun ho => h1.1 ho.1, fun ho => h1.2 fun ho' => ho ⟨ho', Ne.symm e⟩⟩

/-- Inverting the condition of a comparison that the code itself emitted. -/
theorem Code.flip {O : Nat → Prop} {c : Nat} {x : Instr} {r : Reg} (h : Code b B b' B' O)
    (hc : B.instrs.length ≤ c) (hx : B'.instrs[c]? = some x) (hr : x.cmpReg? = some r) :
    Code b B b' { B' with instrs := B'.instrs.set c x.flipCond } O := by
  obtain ⟨l, hl, hlr, hp⟩ := h.patches
  refine ⟨h.emits.set hc, h.isOpen, h.fresh, by simpa using h.range, l, hl, by simpa using hlr,
    fun j s t f a hj hjx => ?_⟩
  by_cases e : c = j
  · subst e
    have hlt := (List.getElem?_eq_some_iff.mp hx).1
    simp only [List.getElem?_set_self hlt, Option.some.injEq] at hjx
    rw [← Instr.cmpReg?_flipCond, hjx] at hr
    cases hr
  · refine hp j s t f a hj ?_
    simpa [e] using hjx

/-! ## Exits -/

/-- How control leaves: by a conditional jump that is taken, or at a position in a state. -/
inductive Exit where
  | jump (j : Nat)
  | pos (b pos : Nat) (φ : MState → Prop)

/-- Control gets from `c` to the exit, with the store `st` and the first `n` registers kept. -/
def Reached (B : ProcBuilder) (env : Env) (n : Nat) (c : Config) (st : Store) : Exit → Prop
  | .jump j => ∃ s t f a, B.instrs[j]? = some (.condJmp s t f a) ∧
      ∀ u, t = some u → ∃ σ', After n c.st st σ' ∧ Steps B env c ⟨u, 0, σ'⟩
  | .pos b p φ => ∃ σ', After n c.st st σ' ∧ φ σ' ∧ Steps B env c ⟨b, p, σ'⟩

theorem Reached.head {n n' : Nat} {c c' : Config} {st st' : Store} {e : Exit}
    (hs : Steps B env c c') (ha : After n c.st st' c'.st) (hn : n ≤ n')
    (h : Reached B env n' c' st e) : Reached B env n c st e := by
  cases e with
  | jump j =>
    obtain ⟨s, t, f, a, hj, hu⟩ := h
    refine ⟨s, t, f, a, hj, fun u hut => ?_⟩
    obtain ⟨σ', ha', hs'⟩ := hu u hut
    exact ⟨σ', ha.trans ha' hn, hs.trans hs'⟩
  | pos b p φ =>
    obtain ⟨σ', ha', hφ, hs'⟩ := h
    exact ⟨σ', ha.trans ha' hn, hφ, hs.trans hs'⟩

/-- Emission from `b` in `B` to `b'` in `B'` of code that computes the condition `sem`. It may be
left by a pending jump of `P`, which stands for the value, or by an exit that `Al` allows. `M` are
the other instructions that may still change. -/
structure CondSpec (sem : Env → Store → Store × Bool) (b : Nat) (B : ProcBuilder) (b' : Nat)
    (B' : ProcBuilder) (P : Pending) (M : Nat → Prop) (Al : ProcBuilder → Bool → Exit → Prop) :
    Prop where
  code : Code b B b' B' fun j => j ∈ P.map Prod.fst ∨ M j
  nodup : (P.map Prod.fst).Nodup
  sep : ∀ j ∈ P.map Prod.fst, ¬ M j
  pend : ∀ j ∈ P.map Prod.fst, ∃ s f a, B'.instrs[j]? = some (.condJmp s none f a)
  run : ∀ env B'' σ,
    Future (fun j => B.instrs.length > j ∨ j ∈ P.map Prod.fst ∨ M j) B' B'' → ∃ e,
      ((∃ j, (j, (sem env σ.store).2) ∈ P ∧ e = .jump j) ∨ Al B'' (sem env σ.store).2 e) ∧
      Reached B'' env B.numRegs ⟨b, B.endPos b, σ⟩ (sem env σ.store).1 e

section CondSpec

variable {sem : Env → Store → Store × Bool} {P P' K : Pending} {M M' : Nat → Prop}
  {Al Al' : ProcBuilder → Bool → Exit → Prop} {p : Nat × Bool}

/-- Giving a pending jump its target. -/
theorem CondSpec.patch {t : Nat} (h : CondSpec sem b B b' B' (K ++ p :: P) M Al)
    (ht : t < B'.bblocks.length) : ∃ s f a, B'.instrs[p.1]? = some (.condJmp s none f a) ∧
    patchJmpTarget p.1 t B' = some ((), B'.setTarget p.1 (.condJmp s (some t) f a) s t) ∧
    CondSpec sem b B b' (B'.setTarget p.1 (.condJmp s (some t) f a) s t) (K ++ P) M fun B'' v e =>
      Al B'' v e ∨ v = p.2 ∧ e = .pos t 0 fun _ => True := by
  have hmem : p.1 ∈ (K ++ p :: P).map Prod.fst := List.mem_map_of_mem (by simp)
  obtain ⟨s, f, a, hx⟩ := h.pend p.1 hmem
  have hnd : p.1 ∉ (K ++ P).map Prod.fst ∧ ((K ++ P).map Prod.fst).Nodup := by
    have := h.nodup
    simp only [List.map_append, List.map_cons] at this ⊢
    exact List.nodup_cons.mp (List.perm_middle.nodup_iff.mp this)
  have hiff : ∀ j, j ∈ (K ++ p :: P).map Prod.fst ↔ j = p.1 ∨ j ∈ (K ++ P).map Prod.fst := by
    intro j
    simp only [List.map_append, List.map_cons, List.mem_append, List.mem_cons]
    tauto
  have hfut : Future (fun i => i = p.1) B' (B'.setTarget p.1 (.condJmp s (some t) f a) s t) :=
    .setTarget hx
  have hlt := (List.getElem?_eq_some_iff.mp hx).1
  refine ⟨s, f, a, hx, patchJmpTarget_condJmp hx ht, ?_, hnd.2, fun j hj => h.sep j ((hiff j).mpr (.inr hj)),
    fun j hj => ?_, fun env B'' σ hF => ?_⟩
  · refine (h.code.setTarget (.inl hmem) hx).congr (fun j _ _ _ _ _ => ?_) fun j hj => ?_
    · rw [hiff]
      constructor
      · rintro (hj | hj)
        · exact ⟨.inl (.inr hj), fun e => hnd.1 (e ▸ hj)⟩
        · exact ⟨.inr hj, fun e => h.sep p.1 hmem (e ▸ hj)⟩
      · rintro ⟨(hj | hj) | hj, hne⟩
        · exact (hne hj).elim
        · exact .inl hj
        · exact .inr hj
    · simpa using h.code.range j (hj.imp (fun hj => (hiff j).mpr (.inr hj)) id)
  · obtain ⟨s', f', a', hj'⟩ := h.pend j ((hiff j).mpr (.inr hj))
    have hne : p.1 ≠ j := fun e => hnd.1 (e ▸ hj)
    exact ⟨s', f', a', by simp [hne, hj']⟩
  · have hF' : Future (fun j => B.instrs.length > j ∨ j ∈ (K ++ p :: P).map Prod.fst ∨ M j) B' B'' :=
      (hfut.trans' hF).mono fun i _ hi => by
        rw [hiff]
        tauto
    obtain ⟨e, he, hr⟩ := h.run env B'' σ hF'
    rcases he with ⟨j, hj, rfl⟩ | he
    · by_cases hjp : j = p.1
      · subst hjp
        have hv : (sem env σ.store).2 = p.2 := by
          have h1 : (p.1, (sem env σ.store).2) ∈ K ++ p :: P := hj
          have h2 : p ∈ K ++ p :: P := by simp
          exact congrArg Prod.snd (List.inj_on_of_nodup_map h.nodup h1 h2 rfl)
        refine ⟨.pos t 0 fun _ => True, .inr (.inr ⟨hv, rfl⟩), ?_⟩
        obtain ⟨s', t', f', a', hj'', hu⟩ := hr
        obtain ⟨t'', ht'', hk⟩ := hF.condJmp (j := p.1) (s := s) (f := f) (a := a) (t := some t)
          (by simp [hlt])
        rw [hj''] at ht''
        cases ht''
        obtain ⟨σ', ha, hs⟩ := hu t (hk t rfl)
        exact ⟨σ', ha, trivial, hs⟩
      · refine ⟨.jump j, .inl ⟨j, ?_, rfl⟩, hr⟩
        simp only [List.mem_append, List.mem_cons] at hj ⊢
        rcases hj with hj | hj | hj
        · exact .inl hj
        · exact absurd (congrArg Prod.fst hj) hjp
        · exact .inr hj
    · exact ⟨e, .inr (.inl he), hr⟩

theorem CondSpec.imp (h : CondSpec sem b B b' B' P M Al)
    (hAl : ∀ B'' v e, Future (fun j => B.instrs.length > j ∨ j ∈ P.map Prod.fst ∨ M j) B' B'' →
      Al B'' v e → Al' B'' v e) :
    CondSpec sem b B b' B' P M Al' := by
  refine ⟨h.code, h.nodup, h.sep, h.pend, fun env B'' σ hF => ?_⟩
  obtain ⟨e, he, hr⟩ := h.run env B'' σ hF
  exact ⟨e, he.imp id (hAl B'' _ e hF), hr⟩

theorem CondSpec.congr_sem {sem' : Env → Store → Store × Bool} (h : CondSpec sem b B b' B' P M Al)
    (hs : ∀ env st, sem' env st = sem env st) : CondSpec sem' b B b' B' P M Al := by
  obtain rfl : sem' = sem := funext fun env => funext fun st => hs env st
  exact h

/-- Negation: every pending jump stands for the other value. -/
theorem CondSpec.neg (h : CondSpec sem b B b' B' P M Al) :
    CondSpec (fun env st => ((sem env st).1, !(sem env st).2)) b B b' B'
      (P.map fun p => (p.1, !p.2)) M fun B'' v e => Al B'' (!v) e := by
  have hmap : (P.map fun p : Nat × Bool => (p.1, !p.2)).map Prod.fst = P.map Prod.fst := by
    simp [List.map_map, Function.comp_def]
  refine ⟨by rw [hmap]; exact h.code, by rw [hmap]; exact h.nodup, by rw [hmap]; exact h.sep,
    by rw [hmap]; exact h.pend, fun env B'' σ hF => ?_⟩
  rw [hmap] at hF
  obtain ⟨e, he, hr⟩ := h.run env B'' σ hF
  refine ⟨e, ?_, hr⟩
  rcases he with ⟨j, hj, rfl⟩ | he
  · exact .inl ⟨j, List.mem_map.mpr ⟨_, hj, rfl⟩, rfl⟩
  · exact .inr (by simpa using he)

/-- Code that falls through when the value is `w`, followed by code for the rest. -/
theorem CondSpec.seq {sem' : Env → Store → Store × Bool} {w : Bool}
    (h : CondSpec sem b B b' B' P (fun _ => False) fun _ v e =>
      v = w ∧ e = .pos b' (B'.endPos b') fun _ => True)
    (hP : ∀ p ∈ P, p.2 = !w) (h' : CondSpec sem' b' B' b'' B'' P' M Al) :
    CondSpec (fun env st => if (sem env st).2 = w then sem' env (sem env st).1 else sem env st)
      b B b'' B'' (P ++ P') M Al := by
  have hlen := h.code.emits.instrs.length_le
  have hold : ∀ j ∈ P.map Prod.fst, j < B'.instrs.length := fun j hj => (h.code.range j (.inl hj)).2
  have hnew : ∀ j, (j ∈ P'.map Prod.fst ∨ M j) → B'.instrs.length ≤ j :=
    fun j hj => (h'.code.range j hj).1
  refine ⟨?_, ?_, fun j hj => ?_, fun j hj => ?_, fun env B₂ σ hF => ?_⟩
  · refine (h.code.trans h'.code).congr (fun j _ _ _ _ _ => ?_) fun j hj => ?_
    · simp only [List.map_append, List.mem_append, or_false, or_assoc]
    · refine (h.code.trans h'.code).range j ?_
      simpa only [List.map_append, List.mem_append, or_false, or_assoc] using hj
  · rw [List.map_append, List.nodup_append]
    refine ⟨h.nodup, h'.nodup, fun i hi j hj e => ?_⟩
    have := hold i hi
    have := hnew j (.inl hj)
    subst e
    omega
  · rw [List.map_append, List.mem_append] at hj
    rcases hj with hj | hj
    · intro hM
      have := hold j hj
      have := hnew j (.inr hM)
      omega
    · exact h'.sep j hj
  · rw [List.map_append, List.mem_append] at hj
    rcases hj with hj | hj
    · obtain ⟨s, f, a, hx⟩ := h.pend j hj
      exact ⟨s, f, a, h'.code.emits.getElem? hx⟩
    · exact h'.pend j hj
  · have hF₁ : Future (fun j => B.instrs.length > j ∨ j ∈ P.map Prod.fst ∨ False) B' B₂ := by
      refine (h'.code.emits.future.trans' hF).mono fun i hi hm => ?_
      simp only [List.map_append, List.mem_append, false_or, or_false, or_assoc] at hm ⊢
      rcases hm with hm | hm | hm
      · exact .inl hm
      · exact .inr hm
      · have := hnew i hm
        omega
    have hF₂ : Future (fun j => B'.instrs.length > j ∨ j ∈ P'.map Prod.fst ∨ M j) B'' B₂ := by
      refine hF.mono fun i _ hm => ?_
      simp only [List.map_append, List.mem_append, or_assoc] at hm
      rcases hm with hm | hm | hm
      · exact .inl (Nat.lt_of_lt_of_le hm hlen)
      · exact .inl (hold i hm)
      · exact .inr hm
    obtain ⟨e, he, hr⟩ := h.run env B₂ σ hF₁
    rcases he with ⟨j, hj, rfl⟩ | ⟨hv, rfl⟩
    · have hw : (sem env σ.store).2 ≠ w := by
        have := hP _ hj
        simp only at this
        rw [this]
        simp
      rw [if_neg hw]
      exact ⟨.jump j, .inl ⟨j, List.mem_append_left _ hj, rfl⟩, hr⟩
    · obtain ⟨σ₁, ha₁, -, hs₁⟩ := hr
      obtain ⟨e, he, hr⟩ := h'.run env B₂ σ₁ hF₂
      rw [ha₁.store] at he hr
      rw [if_pos hv]
      refine ⟨e, he.imp (fun ⟨j, hj, hje⟩ => ⟨j, List.mem_append_right _ hj, hje⟩) id, ?_⟩
      exact hr.head hs₁ ha₁ h.code.emits.numRegs

end CondSpec

end Nibble.IR
