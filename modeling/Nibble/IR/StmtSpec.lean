import Nibble.IR.StmtEmit

/-!
# What the code of a statement does

The contract of `IR_emit_stmt` (`Lowered`), and its rules: code that follows,
the jump that closes a block, branches and loops. Runs are stated in later
builders (`Grows`), in which the jumps of `break` and `continue` have received
their targets.
-/

namespace Nibble.IR

open Nibble.Lib Nibble.Lib.Structured Lowering

variable {B B' B'' B₁ B₂ C : ProcBuilder} {b b' b₁ t : BBlockId} {env : Env} {σ σ' : MState}

/-! ## Later builders -/

/-- `C` is a later builder than `B`. Jumps without a target may have received one. -/
structure Grows (B C : ProcBuilder) : Prop where
  instrs : ∀ (i : InstrId) (x : Instr), B.instrs[i]? = some x → C.instrs[i]? = some x ∨
    ∃ s t, x = .jmp s none ∧ C.instrs[i]? = some (.jmp s (some t))
  memObjs : B.memObjs <+: C.memObjs
  blocks : ∀ k, B.blockInstrs k <+: C.blockInstrs k

theorem Grows.refl (B : ProcBuilder) : Grows B B :=
  ⟨fun _ _ h => .inl h, List.prefix_refl _, fun _ => List.prefix_refl _⟩

theorem Grows.trans (h : Grows B B') (h' : Grows B' C) : Grows B C := by
  refine ⟨fun i x hx => ?_, h.memObjs.trans h'.memObjs, fun k => (h.blocks k).trans (h'.blocks k)⟩
  rcases h.instrs i x hx with hx' | ⟨s, t, rfl, hx'⟩
  · exact h'.instrs i x hx'
  · rcases h'.instrs i _ hx' with hx' | ⟨_, _, heq, -⟩
    · exact .inr ⟨s, t, rfl, hx'⟩
    · cases heq

theorem Emits.grows (h : Emits b B B') : Grows B B' :=
  ⟨fun _ _ hx => .inl (h.getElem? hx), h.memObjs, h.blocks⟩

theorem Grows.length (h : Grows B C) : B.instrs.length ≤ C.instrs.length := by
  by_contra hlt
  have hx := List.getElem?_eq_getElem (l := B.instrs) (i := C.instrs.length) (by omega)
  rcases h.instrs _ _ hx with h' | ⟨_, _, -, h'⟩
  all_goals
    have := (List.getElem?_eq_some_iff.mp h').1
    omega

/-- What stands at a position of a block stands there later. -/
theorem Grows.instrAt {k : BBlockId} {pos : Nat} {id : InstrId} {y : Instr} (h : Grows B C)
    (hb : (B.blockInstrs k)[pos]? = some id) (hy : C.instrs[id]? = some y) :
    C.instrAt k pos = some (id, y) := by
  have hF : Future (fun _ => False) { B with instrs := [] } C := ⟨by simp, h.memObjs, h.blocks⟩
  exact hF.instrAt hb hy

/-- An instruction that was emitted last, unless it is a jump that waits for its target. -/
theorem Grows.pushed {i : Instr} (h : Grows (B.push b i) C) (hb : b < B.bblocks.length)
    (hi : ∀ s, i ≠ .jmp s none) : C.instrAt b (B.endPos b) = some (B.instrs.length, i) := by
  refine h.instrAt (by simp [ProcBuilder.endPos, ProcBuilder.blockInstrs_push_self hb]) ?_
  rcases h.instrs B.instrs.length i (by simp) with hx | ⟨s, _, hs, -⟩
  · exact hx
  · exact absurd hs (hi s)

/-- The later builder with the jumps that waited in `B` as they were: it steps nowhere else. -/
theorem Grows.future (h : Grows B C) : ∃ C', Future (fun _ => False) B C' ∧
    ∀ env c d, step C' env c = some d → step C env c = some d := by
  let C' : ProcBuilder := { C with instrs := B.instrs ++ C.instrs.drop B.instrs.length }
  have hget : ∀ (id : InstrId) (x : Instr), C'.instrs[id]? = some x → C.instrs[id]? = some x ∨ ∃ s, x = .jmp s none := by
    intro id x hx
    rcases Nat.lt_or_ge id B.instrs.length with hlt | hge
    · rw [List.getElem?_append_left hlt] at hx
      exact (h.instrs id x hx).imp (fun hx => hx) fun ⟨s, _, hs, _⟩ => ⟨s, hs⟩
    · rw [List.getElem?_append_right hge, List.getElem?_drop, Nat.add_sub_cancel' hge] at hx
      exact .inl hx
  refine ⟨C', ⟨fun i x hx => ⟨x, ?_, .inl rfl⟩, h.memObjs, h.blocks⟩, fun env c d hd => ?_⟩
  · rw [List.getElem?_append_left (List.getElem?_eq_some_iff.mp hx).1]
    exact hx
  · unfold step at hd ⊢
    cases hat : C'.instrAt c.bb c.pos with
    | none =>
      rw [hat] at hd
      cases hd
    | some p =>
      obtain ⟨id, x⟩ := p
      rw [hat] at hd
      unfold ProcBuilder.instrAt at hat ⊢
      obtain ⟨bb, hbb, hat⟩ := Option.bind_eq_some_iff.mp hat
      obtain ⟨id', hid, hat⟩ := Option.bind_eq_some_iff.mp hat
      obtain ⟨x', hx, hat⟩ := Option.bind_eq_some_iff.mp hat
      cases hat
      rcases hget id x hx with hx | ⟨s, rfl⟩
      · have hbb' : C.bblocks[c.bb]? = some bb := hbb
        simp only [hbb', hid, hx, Option.bind_eq_bind, Option.bind_some]
        exact hd
      · cases hd

theorem Grows.steps {c d : Config} (h : Grows B C)
    (hs : ∀ C', Future (fun _ => False) B C' → Steps C' env c d) : Steps C env c d := by
  obtain ⟨C', hF, hstep⟩ := h.future
  exact Relation.ReflTransGen.mono (fun _ _ => hstep env _ _) _ _ (hs C' hF)

theorem Runs.grows (h : Runs env b B σ b' B' σ') (hG : Grows B' C) :
    Steps C env ⟨b, B.endPos b, σ⟩ ⟨b', B'.endPos b', σ'⟩ :=
  hG.steps fun C' hF => h C' (hF.mono fun _ _ hf => hf.elim)

/-! ## The contract -/

/-- A jump to `t` comes next. -/
def AtJmp (C : ProcBuilder) (t : BBlockId) (c : Config) : Prop :=
  ∃ id src, C.instrAt c.bb c.pos = some (id, .jmp src (some t))

/-- A `ret` of `w` comes next. -/
def AtRet (C : ProcBuilder) (env : Env) (w : Word) (c : Config) : Prop :=
  ∃ id v, C.instrAt c.bb c.pos = some (id, .ret v) ∧ v.read env C.memObjs c.st = some w

/-- The end of the block where emission goes on, if it does. -/
def AtEnd (B : ProcBuilder) (out : Option BBlockId) (c : Config) : Prop :=
  out = some c.bb ∧ c.pos = B.endPos c.bb

/-- Where a statement is left: `normal` tells how it is left at its end. -/
def StmtExit (C : ProcBuilder) (env : Env) (normal : Config → Prop) (brk cont : BBlockId)
    (o : Lib.Outcome Word) (st : Store) (c : Config) : Prop :=
  c.st.store = st ∧ match o with
    | .normal => normal c
    | .brk => AtJmp C brk c
    | .cont => AtJmp C cont c
    | .ret w => AtRet C env w c

/-- The jumps have the target `t`. -/
def Targets (C : ProcBuilder) (js : List InstrId) (t : BBlockId) : Prop :=
  ∀ j ∈ js, ∃ s, C.instrs[j]? = some (.jmp s (some t))

abbrev IRProg := Env → Nat → Prog Store Word

/-- The code from `b` in `B` to `B'` carries out the program `p`. The jumps `js` of its `break`s
and `ks` of its `continue`s wait for their targets. -/
structure Lowered (b : BBlockId) (B B' : ProcBuilder) (js ks : List InstrId)
    (normal : ProcBuilder → Config → Prop) (p : IRProg) : Prop where
  emits : Emits b B B'
  waits : ∀ j ∈ js ++ ks, B.instrs.length ≤ j ∧ ∃ s, B'.instrs[j]? = some (.jmp s none)
  nodup : (js ++ ks).Nodup
  run : ∀ env C brk cont n σ, Grows B' C → Targets C js brk → Targets C ks cont →
    Carries (step C env) (StmtExit C env (normal C) brk cont) n (p env n σ.store)
      ⟨b, B.endPos b, σ⟩

variable {js ks js' ks' : List InstrId} {normal normal' : ProcBuilder → Config → Prop}
  {p q : IRProg} {out : Option BBlockId}

theorem AtJmp.step {c : Config} (h : AtJmp C t c) :
    step C env c = some ⟨t, 0, { c.st with prev := c.bb }⟩ := by
  obtain ⟨id, src, hat⟩ := h
  exact step_jmp hat

theorem AtRet.step {c : Config} {w : Word} (h : AtRet C env w c) : step C env c = none := by
  obtain ⟨id, v, hat, -⟩ := h
  unfold Nibble.IR.step
  rw [hat]
  rfl

theorem Targets.of_append (h : Targets C (js ++ js') t) : Targets C js t ∧ Targets C js' t :=
  ⟨fun j hj => h j (List.mem_append_left _ hj), fun j hj => h j (List.mem_append_right _ hj)⟩

theorem Lowered.congr (h : Lowered b B B' js ks normal p)
    (hp : ∀ env n st, p env n st = q env n st) : Lowered b B B' js ks normal q := by
  obtain rfl : p = q := funext fun env => funext fun n => funext fun st => hp env n st
  exact h

theorem perm_append_four {α : Type} (js js' ks ks' : List α) :
    ((js ++ js') ++ (ks ++ ks')).Perm ((js ++ ks) ++ (js' ++ ks')) := by
  rw [List.append_assoc, List.append_assoc]
  refine .append_left js ?_
  rw [← List.append_assoc, ← List.append_assoc]
  exact .append_right ks' List.perm_append_comm

/-- The waiting jumps of two pieces of code, one after the other. -/
theorem waits_append (h : ∀ j ∈ js ++ ks, B.instrs.length ≤ j ∧ ∃ s, B₁.instrs[j]? = some (.jmp s none))
    (hnd : (js ++ ks).Nodup)
    (h' : ∀ j ∈ js' ++ ks', B₁.instrs.length ≤ j ∧ ∃ s, B₂.instrs[j]? = some (.jmp s none))
    (hnd' : (js' ++ ks').Nodup) (hlen : B.instrs.length ≤ B₁.instrs.length)
    (hkeep : ∀ (j : InstrId) (x : Instr), B₁.instrs[j]? = some x → B₂.instrs[j]? = some x) :
    (∀ j ∈ (js ++ js') ++ (ks ++ ks'),
      B.instrs.length ≤ j ∧ ∃ s, B₂.instrs[j]? = some (.jmp s none)) ∧
    ((js ++ js') ++ (ks ++ ks')).Nodup := by
  have hperm := perm_append_four js js' ks ks'
  refine ⟨fun j hj => ?_, hperm.nodup_iff.mpr (List.nodup_append.mpr ⟨hnd, hnd', ?_⟩)⟩
  · rcases List.mem_append.mp (hperm.mem_iff.mp hj) with hj | hj
    · obtain ⟨hle, s, hs⟩ := h j hj
      exact ⟨hle, s, hkeep j _ hs⟩
    · exact ⟨hlen.trans (h' j hj).1, (h' j hj).2⟩
  · rintro i hi j hj rfl
    obtain ⟨-, s, hs⟩ := h i hi
    have hlt := (List.getElem?_eq_some_iff.mp hs).1
    have hge := (h' i hj).1
    omega

/-- The jumps of two pieces of code, one after the other. -/
theorem Lowered.waits_append (h : Lowered b B B₁ js ks normal p)
    (h' : Lowered b₁ B₁ B₂ js' ks' normal' q) :
    (∀ j ∈ (js ++ js') ++ (ks ++ ks'),
      B.instrs.length ≤ j ∧ ∃ s, B₂.instrs[j]? = some (.jmp s none)) ∧
    ((js ++ js') ++ (ks ++ ks')).Nodup :=
  IR.waits_append h.waits h.nodup h'.waits h'.nodup h.emits.instrs.length_le
    fun _ _ => h'.emits.getElem?

/-- Code that follows. -/
theorem Lowered.seq (h : Lowered b B B₁ js ks (fun _ => AtEnd B₁ (some b₁)) p)
    (h' : Lowered b₁ B₁ B₂ js' ks' normal q) (hb : b₁ = b ∨ B.bblocks.length ≤ b₁) :
    Lowered b B B₂ (js ++ js') (ks ++ ks') normal fun env n => seq (p env n) (q env n) := by
  obtain ⟨hwaits, hnodup⟩ := h.waits_append h'
  refine ⟨h.emits.trans h'.emits hb, hwaits, hnodup, fun env C brk cont n σ hG hjs hks => ?_⟩
  obtain ⟨hjs, hjs'⟩ := hjs.of_append
  obtain ⟨hks, hks'⟩ := hks.of_append
  refine (h.run env C brk cont n σ (h'.emits.grows.trans hG) hjs hks).seq
    (fun st' d _ hd => ?_) fun o st' d _ ho hd => ⟨d, .refl, ?_⟩
  · obtain ⟨bb, pos, σ'⟩ := d
    obtain ⟨rfl, hbb, hpos⟩ := hd
    obtain rfl : b₁ = bb := Option.some.inj hbb
    obtain rfl : pos = B₁.endPos b₁ := hpos
    exact h'.run env C brk cont n σ' hG hjs' hks'
  · cases o with
    | normal => exact absurd rfl ho
    | brk | cont | ret => exact hd

/-- Behind code that always leaves nothing is reached. -/
theorem Lowered.seq_of_leaves (h : Lowered b B B' js ks (fun _ => AtEnd B' none) p) (q : IRProg) :
    Lowered b B B' js ks normal fun env n => Structured.seq (p env n) (q env n) := by
  refine ⟨h.emits, h.waits, h.nodup, fun env C brk cont n σ hG hjs hks => ?_⟩
  refine (h.run env C brk cont n σ hG hjs hks).seq (fun st' d _ hd => nomatch hd.2.1)
    fun o st' d _ ho hd => ⟨d, .refl, ?_⟩
  cases o with
  | normal => exact absurd rfl ho
  | brk | cont | ret => exact hd

/-! ## Jumps at the end of a block -/

theorem emitInstrJmp_ok (ho : B.IsOpen b) (ht : t < B.bblocks.length) : ∃ B',
    emitInstrJmp b (some t) B = some (B.instrs.length, B') ∧
    Emits b (B.push b (.jmp b (some t))) B' ∧ SameNodes B B' ∧
    B'.bblocks.length = B.bblocks.length := by
  let P : ProcBuilder := B.push b (.jmp b (some t))
  let Q : ProcBuilder := { P with patched := P.patched ++ [B.instrs.length] }
  have hPQ : Emits b P Q :=
    ⟨List.prefix_refl _, List.prefix_refl _, Nat.le_refl _, Nat.le_refl _, List.prefix_refl _,
      fun _ _ _ => rfl, fun _ _ _ h => h⟩
  have he := hPQ.trans (.connect b b t Q) (.inl rfl)
  refine ⟨Q.connect b t, ?_, he, ⟨rfl, rfl, fun j hj => he.targeted ((Emits.push ho.lt).targeted hj)⟩,
    by simp [Q, P]⟩
  have hrun : (connectBBlocks b t >>= fun _ => pure B.instrs.length : Build InstrId) Q =
      some (B.instrs.length, Q.connect b t) := by
    rw [bind_run _ _ (connectBBlocks_eq (by simpa [Q, P] using ht))]
    rfl
  unfold emitInstrJmp
  rw [bind_run _ _ (addInstr_eq ho)]
  exact hrun

/-- A jump at the end of the block where emission goes on. -/
theorem Lowered.jmp (h : Lowered b B B' js ks (fun _ => AtEnd B' out) p)
    (hopen : ∀ b', out = some b' → B'.IsOpen b' ∧ (b' = b ∨ B.bblocks.length ≤ b'))
    (ht : t < B'.bblocks.length) : ∃ B'', emitJmpFrom out t B' = some ((), B'') ∧
    Lowered b B B'' js ks (fun C => AtJmp C t) p ∧ SameNodes B' B'' ∧
    B''.bblocks.length = B'.bblocks.length := by
  cases out with
  | none =>
    exact ⟨B', rfl, ⟨h.emits, h.waits, h.nodup, fun env C brk cont n σ hG hjs hks =>
      (h.run env C brk cont n σ hG hjs hks).bind fun o st d _ hd => ⟨d, .refl, hd.1, by
        cases o with
        | normal => exact nomatch hd.2.1
        | brk | cont | ret => exact hd.2⟩⟩, ⟨rfl, rfl, fun _ hj => hj⟩, rfl⟩
  | some b' =>
    obtain ⟨ho, hfresh⟩ := hopen b' rfl
    obtain ⟨B'', hrun, he, hn, hlen⟩ := emitInstrJmp_ok ho ht
    have hpush : Emits b' B' (B'.push b' (.jmp b' (some t))) := .push ho.lt
    have hall := hpush.trans he (.inl rfl)
    refine ⟨B'', ?_, ⟨h.emits.trans hall hfresh, fun j hj => ⟨(h.waits j hj).1, ?_⟩, h.nodup,
      fun env C brk cont n σ hG hjs hks => ?_⟩, hn, hlen⟩
    · exact (bind_run _ _ hrun).trans rfl
    · obtain ⟨s, hs⟩ := (h.waits j hj).2
      exact ⟨s, hall.getElem? hs⟩
    · refine (h.run env C brk cont n σ (hall.grows.trans hG) hjs hks).bind
        fun o st d _ hd => ⟨d, .refl, hd.1, ?_⟩
      cases o with
      | normal =>
        obtain ⟨-, hbb, hpos⟩ := hd
        cases hbb
        exact ⟨_, _, by rw [hpos]; exact (he.grows.trans hG).pushed ho.lt nofun⟩
      | brk | cont | ret => exact hd.2

/-! ## Jumps that receive their targets -/

theorem patchJmpTarget_jmp {j : InstrId} {s : BBlockId} (hj : B.instrs[j]? = some (.jmp s none))
    (ht : t < B.bblocks.length) :
    patchJmpTarget j t B = some ((), B.setTarget j (.jmp s (some t)) s t) := by
  unfold patchJmpTarget
  rw [bind_run _ _ get_run]
  simp only [hj]
  rw [bind_run _ _ (setInstr_run _ _)]
  exact connectBBlocks_eq ht

/-- The jumps `js`, which waited, have received the target `t`. -/
structure PatchedTo (B B' : ProcBuilder) (js : List InstrId) (t : BBlockId) : Prop where
  layout : SameLayout B B'
  filled : ∀ j ∈ js, ∃ s, B.instrs[j]? = some (.jmp s none) ∧ B'.instrs[j]? = some (.jmp s (some t))
  other : ∀ (j : InstrId) (x : Instr), j ∉ js → B.instrs[j]? = some x → B'.instrs[j]? = some x

theorem PatchedTo.targets (h : PatchedTo B B' js t) : Targets B' js t := fun j hj => by
  obtain ⟨s, -, hs⟩ := h.filled j hj
  exact ⟨s, hs⟩

theorem PatchedTo.grows (h : PatchedTo B B' js t) : Grows B B' := by
  refine ⟨fun j x hx => ?_, h.layout.memObjs ▸ List.prefix_refl _,
    fun k => h.layout.blocks k ▸ List.prefix_refl _⟩
  by_cases hj : j ∈ js
  · obtain ⟨s, hs, hs'⟩ := h.filled j hj
    exact .inr ⟨s, t, Option.some.inj (hx.symm.trans hs), hs'⟩
  · exact .inl (h.other j x hj hx)

/-- A jump keeps the target that it has. -/
theorem Targets.grows (h : Targets B js t) (hG : Grows B C) : Targets C js t := by
  intro j hj
  obtain ⟨s, hs⟩ := h j hj
  rcases hG.instrs j _ hs with hs' | ⟨_, _, heq, -⟩
  · exact ⟨s, hs'⟩
  · cases heq

/-- The jumps that are patched belong to the code that was emitted. -/
theorem Emits.patched (h : Emits b B B₁) (hp : PatchedTo B₁ B₂ js t)
    (hjs : ∀ j ∈ js, B.instrs.length ≤ j) : Emits b B B₂ := by
  refine ⟨?_, hp.layout.memObjs ▸ h.memObjs, hp.layout.numRegs ▸ h.numRegs,
    hp.layout.length ▸ h.length, ?_, fun k hk hkb => ?_, fun k hk hkb hop => ?_⟩
  · rw [List.prefix_iff_getElem?]
    intro i hi
    exact hp.other i _ (fun hj => Nat.not_le.mpr hi (hjs i hj))
      (h.getElem? (List.getElem?_eq_getElem hi))
  · rw [hp.layout.blocks]
    exact h.cur
  · rw [hp.layout.blocks]
    exact h.other k hk hkb
  · exact (hp.layout.isOpen k).mpr (h.isOpen k hk hkb hop)

theorem SameLayout.setJmp {j : InstrId} {s : BBlockId} (hx : B.instrs[j]? = some (.jmp s none)) :
    SameLayout B (B.setTarget j (.jmp s (some t)) s t) := by
  refine ⟨⟨rfl, rfl, fun i hi => ?_⟩, fun _ => ProcBuilder.blockInstrs_setTarget,
    fun _ => ProcBuilder.isOpen_setTarget, by simp, rfl, rfl⟩
  obtain ⟨s', t', f', a', hi⟩ := hi
  have hne : j ≠ i := by
    rintro rfl
    rw [hx] at hi
    cases hi
  exact ⟨s', t', f', a', by simp [hne, hi]⟩

theorem patchUJmpList_ok (hjs : ∀ j ∈ js, ∃ s, B.instrs[j]? = some (.jmp s none)) (hnd : js.Nodup)
    (ht : t < B.bblocks.length) :
    ∃ B', patchUJmpList js t B = some ((), B') ∧ PatchedTo B B' js t := by
  induction js generalizing B with
  | nil => exact ⟨B, rfl, .refl B, by simp, fun _ _ _ h => h⟩
  | cons j js ih =>
    obtain ⟨hj, hnd⟩ := List.nodup_cons.mp hnd
    obtain ⟨s, hs⟩ := hjs j (List.mem_cons_self ..)
    have hlt := (List.getElem?_eq_some_iff.mp hs).1
    have hrest : ∀ (i : InstrId) (x : Instr), i ≠ j → B.instrs[i]? = some x →
        (B.setTarget j (.jmp s (some t)) s t).instrs[i]? = some x := by
      intro i x hi hx
      simp [Ne.symm hi, hx]
    obtain ⟨B', hrun, hp⟩ := ih (B := B.setTarget j (.jmp s (some t)) s t) (fun i hi => by
      obtain ⟨s', hs'⟩ := hjs i (List.mem_cons_of_mem _ hi)
      exact ⟨s', hrest i _ (fun e => hj (e ▸ hi)) hs'⟩) hnd (by simpa using ht)
    refine ⟨B', (bind_run _ _ (patchJmpTarget_jmp hs ht)).trans hrun,
      (SameLayout.setJmp hs).trans hp.layout, fun i hi => ?_, fun i x hi hx => ?_⟩
    · rcases List.mem_cons.mp hi with rfl | hi
      · exact ⟨s, hs, hp.other i _ hj (by simp [hlt])⟩
      · obtain ⟨s', hs', ht'⟩ := hp.filled i hi
        have hne : i ≠ j := fun e => hj (e ▸ hi)
        exact ⟨s', by simpa [Ne.symm hne] using hs', ht'⟩
    · exact hp.other i x (fun h => hi (List.mem_cons_of_mem _ h))
        (hrest i x (fun h => hi (h ▸ List.mem_cons_self ..)) hx)

/-! ## Loops -/

section Loops

variable {cond : Store → Store × Bool} {body : Nat → Prog Store Word} {next : Store → Store}
  {hdrBb bodyBb lastBb nxtBb brk cont : BBlockId} {n : Nat}

/-- At the start of a block. -/
def AtStart (t : BBlockId) (c : Config) : Prop := c.bb = t ∧ c.pos = 0

theorem AtJmp.exists_step {c : Config} {st : Store} (env : Env) (h : AtJmp C t c) (hst : c.st.store = st) :
    ∃ σ : MState, σ.store = st ∧ Nibble.IR.step C env c = some ⟨t, 0, σ⟩ :=
  ⟨{ c.st with prev := c.bb }, hst, h.step⟩

/-- A loop that tests first. The body, also where it continues, jumps to `nxtBb`. -/
theorem whileLoop_carries
    (hcond : ∀ σ, ∃ σ', σ'.store = (cond σ.store).1 ∧
      Steps C env ⟨hdrBb, 0, σ⟩ ⟨if (cond σ.store).2 then bodyBb else lastBb, 0, σ'⟩)
    (hbody : ∀ σ, Carries (step C env) (StmtExit C env (AtJmp C nxtBb) lastBb nxtBb) n
      (body n σ.store) ⟨bodyBb, 0, σ⟩)
    (hnext : ∀ σ, ∃ σ', σ'.store = next σ.store ∧ Steps C env ⟨nxtBb, 0, σ⟩ ⟨hdrBb, 0, σ'⟩)
    (σ : MState) : Carries (step C env) (StmtExit C env (AtStart lastBb) brk cont) n
      (rounds (whileRound cond (body n) next) n σ.store) ⟨hdrBb, 0, σ⟩ := by
  let head (st : Store) (c : Config) : Prop := AtStart hdrBb c ∧ c.st.store = st
  have hhead : head σ.store ⟨hdrBb, 0, σ⟩ := ⟨⟨rfl, rfl⟩, rfl⟩
  refine Carries.rounds (fun st c hc => ?_) (Nat.le_refl n) hhead
  obtain ⟨bb, pos, σ⟩ := c
  obtain ⟨⟨rfl, rfl⟩, rfl⟩ := hc
  obtain ⟨σ₁, hst₁, hs₁⟩ := hcond σ
  unfold whileRound
  cases htrue : (cond σ.store).2 with
  | false =>
    rw [htrue] at hs₁
    exact ⟨_, hs₁, hst₁, rfl, rfl⟩
  | true =>
    rw [htrue, if_pos rfl] at hs₁
    have hback : ∀ (st : Store) (d : Config), StepsTo (step C env) ⟨bb, 0, σ⟩ d → d.st.store = st →
        AtJmp C nxtBb d → RoundCarries (step C env) (fun st c => AtStart bb c ∧ c.st.store = st)
          (StmtExit C env (AtStart lastBb) brk cont) n (some (.inl (next st))) ⟨bb, 0, σ⟩ := by
      intro st d hs hst hd
      obtain ⟨σ₂, hst₂, hstep⟩ := hd.exists_step env hst
      obtain ⟨σ₃, hst₃, hs₃⟩ := hnext σ₂
      obtain ⟨d', hd', hs'⟩ := exists_step_of_tail hs hstep
      exact ⟨d', _, hd', hs'.trans hs₃, ⟨rfl, rfl⟩, by rw [hst₃, hst₂]⟩
    have h := (hbody σ₁).of_steps hs₁
    rw [hst₁] at h
    refine RoundCarries.afterBody h (fun st d hs hd => hback st d hs hd.1 hd.2)
      (fun st d hs hd => hback st d hs hd.1 hd.2) (fun st d hd => ?_) fun w st d hd => ⟨d, .refl, hd⟩
    obtain ⟨σ₂, hst₂, hstep⟩ := hd.2.exists_step env hd.1
    exact ⟨_, .single hstep, hst₂, rfl, rfl⟩

/-- A loop that tests last, in `C` with a step to the next round. -/
theorem doWhileLoop_carries {normal : Config → Prop}
    (hbody : ∀ σ, Carries (step C env) (StmtExit C env normal lastBb bodyBb) n
      (body n σ.store) ⟨bodyBb, 0, σ⟩)
    (hcond : ∀ d, normal d → ∃ σ', σ'.store = (cond d.st.store).1 ∧
      if (cond d.st.store).2 then ∃ d', Steps C env d d' ∧ step C env d' = some ⟨bodyBb, 0, σ'⟩
      else Steps C env d ⟨lastBb, 0, σ'⟩)
    (σ : MState) : Carries (step C env) (StmtExit C env (AtStart lastBb) brk cont) n
      (rounds (doWhileRound cond (body n)) n σ.store) ⟨bodyBb, 0, σ⟩ := by
  let head (st : Store) (c : Config) : Prop := AtStart bodyBb c ∧ c.st.store = st
  have hhead : head σ.store ⟨bodyBb, 0, σ⟩ := ⟨⟨rfl, rfl⟩, rfl⟩
  refine Carries.rounds (fun st c hc => ?_) (Nat.le_refl n) hhead
  obtain ⟨bb, pos, σ⟩ := c
  obtain ⟨⟨rfl, rfl⟩, rfl⟩ := hc
  refine RoundCarries.afterBody (hbody σ) (fun st d hs hd => ?_) (fun st d hs hd => ?_) (fun st d hd => ?_)
    fun w st d hd => ⟨d, .refl, hd⟩
  · obtain ⟨rfl, hd⟩ := hd
    obtain ⟨σ₁, hst₁, h⟩ := hcond d hd
    cases htrue : (cond d.st.store).2 with
    | false =>
      rw [htrue] at h
      exact ⟨_, hs.trans h, hst₁, rfl, rfl⟩
    | true =>
      rw [htrue, if_pos rfl] at h
      obtain ⟨d', hs', hstep⟩ := h
      obtain ⟨e, he, hs''⟩ := exists_step_of_tail (hs.trans hs') hstep
      exact ⟨e, _, he, hs'', ⟨rfl, rfl⟩, hst₁⟩
  · obtain ⟨σ₁, hst₁, hstep⟩ := hd.2.exists_step env hd.1
    obtain ⟨e, he, hs'⟩ := exists_step_of_tail hs hstep
    exact ⟨e, _, he, hs', ⟨rfl, rfl⟩, hst₁⟩
  · obtain ⟨σ₁, hst₁, hstep⟩ := hd.2.exists_step env hd.1
    exact ⟨_, .single hstep, hst₁, rfl, rfl⟩

end Loops

end Nibble.IR
