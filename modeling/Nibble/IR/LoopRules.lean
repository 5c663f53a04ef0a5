import Nibble.IR.StmtRules

/-!
# Emission of loops

A loop comes to its end at a block of its own (`LoopOk`). The code of a body and
of what follows it in a round is `LoopCode`; its jumps receive their targets
when the block behind the loop is known.
-/

namespace Nibble.IR.Lowering

open Nibble.Lib Nibble.Lib.Structured

variable {B B' B'' B₀ B₁ B₂ B₃ C : ProcBuilder} {b b' b₁ b₂ t bodyBb hdrBb contBb lastBb : BBlockId}
  {env : Env} {σ : MState} {F F' : List NodeId} {js ks js' ks' : List InstrId}
  {normal normal' : ProcBuilder → Config → Prop} {p q : IRProg} {out : Option BBlockId}
  {u : UJmps} {inLoop falls : Bool} {e : BExpr} {sense : Bool} {body : StmtEmitter}
  {f : Env → Store → Store}

/-- The emitter of a statement that has no jumps for the statements around it. -/
def LoopOk (emit : Option BBlockId → Build (Option BBlockId)) (p : IRProg) : Prop :=
  ∀ b B F, Arena B F → B.IsOpen b → ∃ b' B', emit (some b) B = some (some b', B') ∧
    B'.IsOpen b' ∧ (b' = b ∨ B.bblocks.length ≤ b') ∧ (∃ F', Arena B' F') ∧
    Lowered b B B' [] [] (fun _ => AtEnd B' (some b')) p

theorem LoopOk.congr {emit : Option BBlockId → Build (Option BBlockId)} (h : LoopOk emit p)
    (hp : ∀ env n st, p env n st = q env n st) : LoopOk emit q := by
  obtain rfl : p = q := funext fun env => funext fun n => funext fun st => hp env n st
  exact h

theorem keepUJmps_ok {emit : Option BBlockId → Build (Option BBlockId)} (h : LoopOk emit p) :
    StmtOk inLoop true (keepUJmps emit) p := by
  intro b B F u ha ho _
  obtain ⟨b', B', hrun, ho', hfresh, ha', hlow⟩ := h b B F ha ho
  refine ⟨some b', u, B', bind_run _ _ hrun, rfl, fun b'' hb'' => ?_, ha', [], [], by simp,
    fun _ => ⟨rfl, rfl⟩, hlow⟩
  cases hb''
  exact ⟨ho', hfresh⟩

/-- A statement outside of loops, without its lists. -/
theorem LoopOk.of_stmt {emit : StmtEmitter} (h : StmtOk false true emit p) :
    LoopOk (fun b => do
      let (b, _) ← emit b .missing
      pure b) p := by
  intro b B F ha ho
  obtain ⟨out, u', B', hrun, hfalls, hopen, ha', js, ks, -, hnone, hlow⟩ :=
    h b B F .missing ha ho nofun
  obtain ⟨b', rfl⟩ := Option.isSome_iff_exists.mp hfalls
  obtain ⟨rfl, rfl⟩ := hnone rfl
  exact ⟨b', B', bind_run _ _ hrun, (hopen b' rfl).1, (hopen b' rfl).2, ha', hlow⟩

theorem LoopOk.seq {emit emit' : Option BBlockId → Build (Option BBlockId)} (h : LoopOk emit p)
    (h' : LoopOk emit' q) : LoopOk (fun b => do
      let b ← emit b
      emit' b) fun env n => seq (p env n) (q env n) := by
  intro b B F ha ho
  obtain ⟨b₁, B₁, hrun, ho₁, hfresh, ⟨F₁, ha₁⟩, hlow⟩ := h b B F ha ho
  obtain ⟨b', B', hrun', ho', hfresh', ha', hlow'⟩ := h' b₁ B₁ F₁ ha₁ ho₁
  exact ⟨b', B', (bind_run _ _ hrun).trans hrun', ho',
    fresh_trans hlow.emits.length hfresh hfresh', ha', hlow.seq hlow' hfresh⟩

theorem loopOk_skip : LoopOk pure fun _ _ => skip := fun b B F ha ho =>
  ⟨b, B, rfl, ho, .inl rfl, ⟨F, ha⟩, lowered_skip b B⟩

/-! ## The body of a loop -/

/-- The flag of a loop header changes nothing that the code does. -/
theorem markLoopHdr_ok (t : BBlockId) (B : ProcBuilder) :
    ∃ B', markLoopHdr t B = some ((), B') ∧ PatchedTo B B' [] t := by
  let B' : ProcBuilder :=
    { B with bblocks := B.bblocks.modify t fun bb => { bb with isLoopHdr := true } }
  have hget : ∀ k : BBlockId, ∃ f : BBlock → BBlock, B'.bblocks[k]? = B.bblocks[k]?.map f ∧
      ∀ bb, (f bb).instrs = bb.instrs ∧ (f bb).closed = bb.closed := by
    intro k
    refine ⟨fun bb => if t = k then { bb with isLoopHdr := true } else bb, ?_, fun bb => ?_⟩
    · simp only [B', List.getElem?_modify]
      cases B.bblocks[k]? with
      | none => rfl
      | some bb => by_cases h : t = k <;> simp [h]
    · dsimp only
      split <;> exact ⟨rfl, rfl⟩
  refine ⟨B', rfl, ⟨⟨rfl, rfl, fun _ hj => hj⟩, fun k => ?_, fun k => ?_, by simp [B'], rfl, rfl⟩,
    by simp, fun _ _ _ hx => hx⟩
  · obtain ⟨f, hf, hkeep⟩ := hget k
    unfold ProcBuilder.blockInstrs
    rw [hf]
    cases B.bblocks[k]? with
    | none => rfl
    | some bb => exact (hkeep bb).1
  · obtain ⟨f, hf, hkeep⟩ := hget k
    unfold ProcBuilder.IsOpen
    rw [hf]
    cases B.bblocks[k]? with
    | none => simp
    | some bb => simp [(hkeep bb).2]

theorem EmptyBlock.layout (h : EmptyBlock B t) (hl : SameLayout B B') : EmptyBlock B' t :=
  ⟨(hl.isOpen t).mpr h.isOpen, (hl.endPos t).trans h.endPos⟩

/-- The code of a loop's body from `bodyBb` and of `next` from its own block. The end of the body
and its `continue`s go to `contBb`, where `f` is done on the way to `hdrBb`. -/
structure LoopCode (B B' : ProcBuilder) (bodyBb hdrBb : BBlockId) (nxtBb : Option BBlockId)
    (js ks : List InstrId) (p : IRProg) (f : Env → Store → Store) : Prop where
  arena : ∃ F, Arena B' F
  grows : Grows B B'
  length : B.bblocks.length ≤ B'.bblocks.length
  emits : ∀ {b B₀}, Emits b B₀ B → B₀.bblocks.length ≤ bodyBb →
    (∀ t, nxtBb = some t → B₀.bblocks.length ≤ t) → Emits b B₀ B'
  keeps : ∀ {t}, EmptyBlock B t → t ≠ bodyBb → nxtBb ≠ some t → EmptyBlock B' t
  waits : ∀ j ∈ js ++ ks, B.instrs.length ≤ j ∧ ∃ s, B'.instrs[j]? = some (.jmp s none)
  nodup : (js ++ ks).Nodup
  body : ∀ env C last n σ, Grows B' C → Targets C js last → Targets C ks (nxtBb.getD hdrBb) →
    Carries (step C env) (StmtExit C env (AtJmp C (nxtBb.getD hdrBb)) last (nxtBb.getD hdrBb)) n
      (p env n σ.store) ⟨bodyBb, 0, σ⟩
  next : ∀ env C σ, Grows B' C → ∃ σ', σ'.store = f env σ.store ∧
    Steps C env ⟨nxtBb.getD hdrBb, 0, σ⟩ ⟨hdrBb, 0, σ'⟩

theorem closeLoop_ok (h : Lowered b B B' js ks (fun _ => AtEnd B' out) p)
    (hopen : ∀ b', out = some b' → B'.IsOpen b' ∧ (b' = b ∨ B.bblocks.length ≤ b'))
    (ha : Arena B' F) (ht : hdrBb < B'.bblocks.length) : ∃ B'',
      closeLoop out hdrBb B' = some ((), B'') ∧ (∃ F, Arena B'' F) ∧
      Lowered b B B'' js ks (fun C => AtJmp C hdrBb) p := by
  obtain ⟨B₁, hrun, hlow, hn, -⟩ := h.jmp hopen ht
  have ha₁ := arena_of_sameNodes ha hn
  cases out with
  | none =>
    cases hrun
    exact ⟨B', rfl, ⟨F, ha⟩, hlow⟩
  | some b' =>
    obtain ⟨B'', hmark, hp⟩ := markLoopHdr_ok hdrBb B₁
    refine ⟨B'', ?_, ⟨F, arena_of_sameNodes ha₁ hp.layout.nodes⟩, hlow.emits.patched hp (by simp),
      fun j hj => ?_, hlow.nodup, fun env C brk cont n σ hG => hlow.run env C brk cont n σ (hp.grows.trans hG)⟩
    · unfold emitJmpFrom at hrun
      obtain ⟨⟨x, B₂⟩, hjmp, hrun⟩ := Option.bind_eq_some_iff.mp hrun
      cases hrun
      exact (bind_run _ _ hjmp).trans hmark
    · obtain ⟨hle, s, hs⟩ := hlow.waits j hj
      exact ⟨hle, s, hp.other j _ (by simp) hs⟩

/-- What the `next` of a loop has to yield. -/
def NextOk (next : Option StmtEmitter) (f : Env → Store → Store) : Prop :=
  match next with
  | none => ∀ env, f env = id
  | some emit => StmtOk false true emit fun env _ => act (f env)

theorem emitLoopBody_none (hbody : StmtOk true falls body p) (hf : ∀ env, f env = id)
    (ha : Arena B F) (hb : EmptyBlock B bodyBb) (ht : hdrBb < B.bblocks.length) : ∃ js ks B',
      emitLoopBody body none bodyBb hdrBb B = some (⟨some js, some ks⟩, B') ∧
      LoopCode B B' bodyBb hdrBb none js ks p f := by
  obtain ⟨out, u, B₁, hrun, -, hopen, ⟨F₁, ha₁⟩, js, ks, rfl, -, hlow⟩ :=
    hbody bodyBb B F .empty ha hb.isOpen fun _ => UJmps.there_empty
  obtain ⟨B', hclose, ha', hjmp⟩ :=
    closeLoop_ok hlow hopen ha₁ (ht.trans_le hlow.emits.length)
  refine ⟨js, ks, B', ?_, ha', hjmp.emits.grows, hjmp.emits.length, fun he hle _ => he.trans hjmp.emits (.inr hle),
    fun ht hne _ => ht.emits hjmp.emits hne, hjmp.waits, hjmp.nodup, fun env C last n σ hG hjs hks => ?_, fun env C σ _ => ⟨σ, by rw [hf]; rfl, .refl⟩⟩
  · unfold emitLoopBody
    rw [bind_run _ _ hrun]
    exact (bind_run (emitNext none out) _ (pure_run out)).trans (bind_run _ _ hclose)
  · have hrun := hjmp.run env C last hdrBb n σ hG hjs hks
    rwa [hb.endPos] at hrun

theorem emitLoopBody_some {emit : StmtEmitter} {nxtBb : BBlockId} (hbody : StmtOk true falls body p)
    (hnext : StmtOk false true emit fun env _ => act (f env)) (ha : Arena B F)
    (hb : EmptyBlock B bodyBb) (hn : EmptyBlock B nxtBb) (hne : nxtBb ≠ bodyBb)
    (ht : hdrBb < B.bblocks.length) : ∃ js ks B',
      emitLoopBody body (some (nxtBb, emit)) bodyBb hdrBb B = some (⟨some js, some ks⟩, B') ∧
      LoopCode B B' bodyBb hdrBb (some nxtBb) js ks p f := by
  obtain ⟨out, u, B₁, hrun, hcode⟩ := hbody bodyBb B F .empty ha hb.isOpen fun _ => UJmps.there_empty
  obtain ⟨B₂, js, ks, hjmp, ⟨F₂, ha₂⟩, rfl, -, hlow, -⟩ :=
    hcode.jump (hn.lt.trans_le hcode.emits.length)
  have hn₂ := hn.emits hlow.emits hne
  obtain ⟨out', u', B₃, hrun', hfalls, hopen, ⟨F₃, ha₃⟩, js', ks', -, hnone, hlow'⟩ :=
    hnext nxtBb B₂ F₂ .missing ha₂ hn₂.isOpen nofun
  obtain ⟨rfl, rfl⟩ := hnone rfl
  obtain ⟨B', hclose, ha', hback⟩ := closeLoop_ok hlow' hopen ha₃
    ((ht.trans_le hlow.emits.length).trans_le hlow'.emits.length)
  refine ⟨js, ks, B', ?_, ha', hlow.emits.grows.trans hback.emits.grows,
    hlow.emits.length.trans hback.emits.length, fun he hle hle' => ?_, fun ht hb' hn' => ?_, fun j hj => ?_,
    hlow.nodup, fun env C last n σ hG hjs hks => ?_, fun env C σ hG => ?_⟩
  · have hcheck : check out'.isSome B₃ = some ((), B₃) := by
      rw [hfalls]
      rfl
    have hnext' : emitNext (some (nxtBb, emit)) out B₁ = some (out', B₃) := by
      unfold emitNext
      dsimp only
      rw [bind_run _ _ hjmp, bind_run _ _ hrun', bind_run _ _ hcheck]
      rfl
    unfold emitLoopBody
    rw [bind_run _ _ hrun]
    exact (bind_run _ _ hnext').trans (bind_run _ _ hclose)
  · exact (he.trans hlow.emits (.inr hle)).trans hback.emits (.inr (hle' nxtBb rfl))
  · exact (ht.emits hlow.emits hb').emits hback.emits fun e => hn' (congrArg some e.symm)
  · obtain ⟨hle, s, hs⟩ := hlow.waits j hj
    exact ⟨hle, s, hback.emits.getElem? hs⟩
  · have hrun := hlow.run env C last nxtBb n σ (hback.emits.grows.trans hG) hjs hks
    rwa [hb.endPos] at hrun
  · obtain ⟨d, hs, hst, hd⟩ := hback.run env C 0 0 0 σ hG nofun nofun
    rw [hn₂.endPos] at hs
    exact ⟨{ d.st with prev := d.bb }, hst, hs.tail hd.step⟩

theorem emitLoopBody_ok {next : Option (BBlockId × StmtEmitter)} (hbody : StmtOk true falls body p)
    (hnext : NextOk (next.map Prod.snd) f) (ha : Arena B F) (hb : EmptyBlock B bodyBb)
    (hn : ∀ t, next.map Prod.fst = some t → EmptyBlock B t ∧ t ≠ bodyBb)
    (ht : hdrBb < B.bblocks.length) : ∃ js ks B',
      emitLoopBody body next bodyBb hdrBb B = some (⟨some js, some ks⟩, B') ∧
      LoopCode B B' bodyBb hdrBb (next.map Prod.fst) js ks p f := by
  cases next with
  | none => exact emitLoopBody_none hbody hnext ha hb ht
  | some nx =>
    obtain ⟨hn, hne⟩ := hn nx.1 rfl
    exact emitLoopBody_some hbody hnext ha hb hn hne ht

/-! ## The blocks of a loop -/

/-- Blocks have been allocated. -/
structure Allocs (B B' : ProcBuilder) : Prop where
  emits : ∀ b, Emits b B B'
  nodes : SameNodes B B'
  isOpen : ∀ k, B.IsOpen k → B'.IsOpen k
  endPos : ∀ k, B'.endPos k = B.endPos k

theorem Allocs.refl (B : ProcBuilder) : Allocs B B :=
  ⟨fun b => .refl b B, ⟨rfl, rfl, fun _ h => h⟩, fun _ h => h, fun _ => rfl⟩

theorem Allocs.trans (h : Allocs B B') (h' : Allocs B' B'') : Allocs B B'' :=
  ⟨fun b => (h.emits b).trans (h'.emits b) (.inl rfl), h.nodes.trans h'.nodes,
    fun k hk => h'.isOpen k (h.isOpen k hk), fun k => (h'.endPos k).trans (h.endPos k)⟩

theorem Allocs.alloc (B : ProcBuilder) : Allocs B B.alloc :=
  ⟨fun b => .alloc b B, sameNodes_alloc B, fun _ => ProcBuilder.isOpen_alloc, endPos_alloc⟩

theorem Allocs.length (h : Allocs B B') : B.bblocks.length ≤ B'.bblocks.length :=
  (h.emits 0).length

theorem EmptyBlock.allocs (ht : EmptyBlock B t) (h : Allocs B B') : EmptyBlock B' t :=
  ⟨h.isOpen t ht.isOpen, (h.endPos t).trans ht.endPos⟩

theorem allocNext_ok (next : Option StmtEmitter) (B : ProcBuilder) : ∃ nx B',
    allocNext next B = some (nx, B') ∧ nx.map Prod.snd = next ∧ Allocs B B' ∧
    ∀ t, nx.map Prod.fst = some t → B.bblocks.length ≤ t ∧ EmptyBlock B' t := by
  cases next with
  | none => exact ⟨none, B, rfl, rfl, .refl B, nofun⟩
  | some emit =>
    refine ⟨some (B.bblocks.length, emit), B.alloc, rfl, rfl, .alloc B, fun t ht => ?_⟩
    cases ht
    exact ⟨Nat.le_refl _, emptyBlock_alloc B⟩

/-- The jump into a loop from the block in front of it. -/
theorem enterLoop_ok (hal : Allocs B B₁) (ho : B.IsOpen b) (ht : t < B₁.bblocks.length) : ∃ B₂,
    emitInstrJmp b (some t) B₁ = some (B₁.instrs.length, B₂) ∧ Emits b B B₂ ∧ SameNodes B B₂ ∧
    (∀ k, EmptyBlock B₁ k → B.bblocks.length ≤ k → EmptyBlock B₂ k) ∧
    ∀ env C σ, Grows B₂ C →
      Steps C env ⟨b, B.endPos b, σ⟩ ⟨t, 0, { σ with prev := b }⟩ := by
  have ho₁ := hal.isOpen b ho
  obtain ⟨B₂, hrun, he, hn, -⟩ := emitInstrJmp_ok ho₁ ht
  have hpush : Emits b B₁ B₂ := (Emits.push ho₁.lt).trans he (.inl rfl)
  refine ⟨B₂, hrun, (hal.emits b).trans hpush (.inl rfl), hal.nodes.trans hn, fun k hk hle =>
    hk.emits hpush (Nat.ne_of_gt (ho.lt.trans_le hle)), fun env C σ hG => ?_⟩
  have hat := (he.grows.trans hG).pushed ho₁.lt nofun
  rw [hal.endPos] at hat
  exact .single (step_jmp hat)

/-- The jumps of a loop receive their targets. -/
theorem patchLoop_ok (hwaits : ∀ j ∈ js ++ ks, ∃ s, B.instrs[j]? = some (.jmp s none))
    (hnd : (js ++ ks).Nodup) (hl : lastBb < B.bblocks.length) (hc : contBb < B.bblocks.length) :
    ∃ B₁ B₂, patchLoop ⟨some js, some ks⟩ lastBb contBb B = some ((), B₂) ∧
      PatchedTo B B₁ js lastBb ∧ PatchedTo B₁ B₂ ks contBb := by
  obtain ⟨hjs, hks, hdisj⟩ := List.nodup_append.mp hnd
  obtain ⟨B₁, hrun, hp⟩ := patchUJmpList_ok (fun j hj => hwaits j (List.mem_append_left _ hj)) hjs hl
  obtain ⟨B₂, hrun', hp'⟩ := patchUJmpList_ok (B := B₁) (fun j hj => by
    obtain ⟨s, hs⟩ := hwaits j (List.mem_append_right _ hj)
    exact ⟨s, hp.other j _ (fun hj' => hdisj j hj' j hj rfl) hs⟩) hks
    (hp.layout.length.symm ▸ hc)
  exact ⟨B₁, B₂, (bind_run _ _ hrun).trans hrun', hp, hp'⟩

/-! ## The kinds of loops -/

/-- What a loop has to show of the code around its rounds. -/
theorem lowered_loop {round : Env → Nat → Structured.Round Store Word} (he : Emits b B B')
    (hl : EmptyBlock B' lastBb) (hrun : ∀ env C n σ, Grows B' C → ∃ c : Config,
      Steps C env ⟨b, B.endPos b, σ⟩ c ∧ ∀ brk cont,
        Carries (step C env) (StmtExit C env (AtStart lastBb) brk cont) n
          (rounds (round env n) n σ.store) c) :
    Lowered b B B' [] [] (fun _ => AtEnd B' (some lastBb)) fun env n => rounds (round env n) n := by
  refine lowered_atEnd ⟨he, by simp, .nil, fun env C brk cont n σ hG _ _ => ?_⟩ hl
  obtain ⟨c, hs, hc⟩ := hrun env C n σ hG
  exact (hc brk cont).of_steps hs

/-- The code of a loop from the jump into it to the jump back: the body is in the block
`B.bblocks.length`, the block behind that one is empty. -/
structure LoopStart (b : BBlockId) (B B' : ProcBuilder) (hdrBb contBb : BBlockId)
    (js ks : List InstrId) (p : IRProg) (f : Env → Store → Store) : Prop where
  arena : ∃ F, Arena B' F
  emits : Emits b B B'
  other : EmptyBlock B' B.alloc.bblocks.length
  cont_lt : contBb < B'.bblocks.length
  waits : ∀ j ∈ js ++ ks, B.instrs.length ≤ j ∧ ∃ s, B'.instrs[j]? = some (.jmp s none)
  nodup : (js ++ ks).Nodup
  enter : ∀ env C σ, Grows B' C →
    Steps C env ⟨b, B.endPos b, σ⟩ ⟨hdrBb, 0, { σ with prev := b }⟩
  body : ∀ env C last n σ, Grows B' C → Targets C js last → Targets C ks contBb →
    Carries (step C env) (StmtExit C env (AtJmp C contBb) last contBb) n (p env n σ.store)
      ⟨B.bblocks.length, 0, σ⟩
  next : ∀ env C σ, Grows B' C → ∃ σ', σ'.store = f env σ.store ∧
    Steps C env ⟨contBb, 0, σ⟩ ⟨hdrBb, 0, σ'⟩

theorem startLoop_ok {next : Option StmtEmitter} (hbody : StmtOk true falls body p)
    (hnext : NextOk next f) (ha : Arena B F) (ho : B.IsOpen b)
    (hh : hdrBb = B.bblocks.length ∨ hdrBb = B.alloc.bblocks.length) :
    ∃ nx B₁ id B₂ js ks B₃, allocNext next B.alloc.alloc = some (nx, B₁) ∧
      emitInstrJmp b (some hdrBb) B₁ = some (id, B₂) ∧
      emitLoopBody body nx B.bblocks.length hdrBb B₂ = some (⟨some js, some ks⟩, B₃) ∧
      LoopStart b B B₃ hdrBb ((nx.map Prod.fst).getD hdrBb) js ks p f := by
  have hlen : B.alloc.bblocks.length = B.bblocks.length + 1 := ProcBuilder.alloc_length
  have hle : B.bblocks.length ≤ B.alloc.bblocks.length := by omega
  have hne : B.alloc.bblocks.length ≠ B.bblocks.length := by omega
  obtain ⟨nx, B₁, halloc, rfl, hal, hnx⟩ := allocNext_ok next B.alloc.alloc
  have hfar : ∀ t, nx.map Prod.fst = some t → t > B.alloc.bblocks.length ∧ EmptyBlock B₁ t := by
    intro t ht
    obtain ⟨hle, hempty⟩ := hnx t ht
    rw [ProcBuilder.alloc_length] at hle
    exact ⟨hle, hempty⟩
  have hbody₁ : EmptyBlock B₁ B.bblocks.length := (emptyBlock_alloc B).alloc.allocs hal
  have hother₁ : EmptyBlock B₁ B.alloc.bblocks.length := (emptyBlock_alloc B.alloc).allocs hal
  have hlt : hdrBb < B₁.bblocks.length := by
    rcases hh with rfl | rfl
    · exact hbody₁.lt
    · exact hother₁.lt
  obtain ⟨B₂, hjmp, he₂, hn₂, hkeep, henter⟩ :=
    enterLoop_ok (((Allocs.alloc B).trans (.alloc _)).trans hal) ho hlt
  have hother₂ := hkeep _ hother₁ hle
  have hfar₂ : ∀ t, nx.map Prod.fst = some t → EmptyBlock B₂ t := fun t ht =>
    hkeep t (hfar t ht).2 (hle.trans (Nat.le_of_lt (hfar t ht).1))
  have hlt₂ : hdrBb < B₂.bblocks.length := by
    rcases hh with rfl | rfl
    · exact (hkeep _ hbody₁ (Nat.le_refl _)).lt
    · exact hother₂.lt
  obtain ⟨js, ks, B₃, hrun, hcode⟩ := emitLoopBody_ok hbody hnext (arena_of_sameNodes ha hn₂)
    (hkeep _ hbody₁ (Nat.le_refl _))
    (fun t ht => ⟨hfar₂ t ht, Nat.ne_of_gt (hle.trans_lt (hfar t ht).1)⟩) hlt₂
  refine ⟨nx, B₁, _, B₂, js, ks, B₃, halloc, hjmp, hrun, hcode.arena,
    hcode.emits he₂ (Nat.le_refl _) fun t ht => hle.trans (Nat.le_of_lt (hfar t ht).1),
    hcode.keeps hother₂ hne fun h => absurd (hfar _ h).1 (Nat.lt_irrefl _), ?_,
    fun j hj => ⟨he₂.instrs.length_le.trans (hcode.waits j hj).1, (hcode.waits j hj).2⟩,
    hcode.nodup, fun env C σ hG => henter env C σ (hcode.grows.trans hG), hcode.body, hcode.next⟩
  refine lt_of_lt_of_le ?_ hcode.length
  cases hx : nx.map Prod.fst with
  | none => exact hlt₂
  | some t => exact (hfar₂ t hx).lt

/-- The end of a loop that tests first: its jumps receive their targets. -/
theorem LoopStart.finish (cond : Env → Store → Store × Bool) (h : LoopStart b B B₁ hdrBb contBb js ks p f)
    (he : Emits b B B₂) (hG₂ : Grows B₁ B₂) (hlen : B₁.bblocks.length ≤ B₂.bblocks.length)
    (ha : Arena B₂ F) (hlast : EmptyBlock B₂ lastBb) (hnew : B.bblocks.length ≤ lastBb)
    (hwaits : ∀ j ∈ js ++ ks, ∃ s, B₂.instrs[j]? = some (.jmp s none))
    (hcond : ∀ env C σ, Grows B₂ C → ∃ σ', σ'.store = (cond env σ.store).1 ∧
      Steps C env ⟨hdrBb, 0, σ⟩
        ⟨if (cond env σ.store).2 then B.bblocks.length else lastBb, 0, σ'⟩) :
    ∃ B', patchLoop ⟨some js, some ks⟩ lastBb contBb B₂ = some ((), B') ∧
      B'.IsOpen lastBb ∧ (lastBb = b ∨ B.bblocks.length ≤ lastBb) ∧ (∃ F', Arena B' F') ∧
      Lowered b B B' [] [] (fun _ => AtEnd B' (some lastBb))
        fun env n => rounds (whileRound (cond env) (p env n) (f env)) n := by
  obtain ⟨B₃, B', hpatch, hp, hp'⟩ := patchLoop_ok hwaits h.nodup hlast.lt (h.cont_lt.trans_le hlen)
  have hlast' := (hlast.layout hp.layout).layout hp'.layout
  have he' := (he.patched hp fun j hj => (h.waits j (List.mem_append_left _ hj)).1).patched hp'
    fun j hj => (h.waits j (List.mem_append_right _ hj)).1
  refine ⟨B', hpatch, hlast'.isOpen, .inr hnew, ⟨F, arena_of_sameNodes (arena_of_sameNodes ha hp.layout.nodes) hp'.layout.nodes⟩,
    lowered_loop he' hlast' fun env C n σ hG => ?_⟩
  have hG₃ := hp'.grows.trans hG
  have hGC := hp.grows.trans hG₃
  have hG₁ := hG₂.trans hGC
  exact ⟨_, h.enter env C σ hG₁, fun brk cont => whileLoop_carries
    (fun σ => hcond env C σ hGC) (fun σ => h.body env C lastBb n σ hG₁ (hp.targets.grows hG₃)
      (hp'.targets.grows hG)) (fun σ => h.next env C σ hG₁) { σ with prev := b }⟩

theorem emitCondLoop_ok {next : Option StmtEmitter} (hgood : e.removesFirstOnly = true)
    (hbody : StmtOk true falls body p) (hnext : NextOk next f) :
    LoopOk (emitCondLoop (some (.expr e)) body next)
      fun env n => rounds (whileRound (e.sem env) (p env n) (f env)) n := by
  intro b B F ha ho
  obtain ⟨nx, B₁, id, B₂, js, ks, B₃, halloc, hjmp, hrun, hstart⟩ :=
    startLoop_ok hbody hnext ha ho (.inr rfl)
  obtain ⟨F₃, ha₃⟩ := hstart.arena
  have hlt : B.bblocks.length < B₃.bblocks.length :=
    (by simp : B.bblocks.length < B.alloc.bblocks.length).trans hstart.other.lt
  obtain ⟨last, B₄, F₄, hcond, ha₄, hcode⟩ :=
    emitCond_ok true hgood ha₃ hstart.other.isOpen hlt
  have he₄ := hcode.cond.code.emits
  obtain ⟨B', hpatch, hend⟩ := hstart.finish (fun env => e.sem env)
    (hstart.emits.trans he₄ (.inr (by simp))) he₄.grows he₄.length ha₄
    ⟨hcode.cond.code.isOpen, hcode.empty⟩ (hstart.emits.length.trans hcode.new)
    (fun j hj => by
      obtain ⟨s, hs⟩ := (hstart.waits j hj).2
      exact ⟨s, he₄.getElem? hs⟩)
    fun env C σ hG => by
      have h := condCode_run hcode hlt hG env σ
      rwa [hstart.other.endPos] at h
  refine ⟨last, B', ?_, hend⟩
  unfold emitCondLoop
  dsimp only
  rw [bind_run _ _ allocBBlock_run, bind_run _ _ allocBBlock_run, bind_run _ _ halloc]
  refine (bind_run (theBlock (some b)) _ (pure_run b)).trans ?_
  rw [bind_run _ _ hjmp, bind_run _ _ hrun, bind_run _ _ hcond, bind_run _ _ hpatch]
  rfl

/-- A loop that only its body ends. -/
theorem emitInfLoop_ok {next : Option StmtEmitter} (hbody : StmtOk true falls body p)
    (hnext : NextOk next f) : LoopOk (emitInfLoop body next)
      fun env n => rounds (whileRound (fun st => (st, true)) (p env n) (f env)) n := by
  intro b B F ha ho
  obtain ⟨nx, B₁, id, B₂, js, ks, B₃, halloc, hjmp, hrun, hstart⟩ :=
    startLoop_ok hbody hnext ha ho (.inl rfl)
  obtain ⟨F₃, ha₃⟩ := hstart.arena
  obtain ⟨B', hpatch, hend⟩ := hstart.finish (fun _ st => (st, true)) hstart.emits (.refl _)
    (Nat.le_refl _) ha₃ hstart.other (by simp) (fun j hj => (hstart.waits j hj).2)
    fun env C σ _ => ⟨σ, rfl, .refl⟩
  refine ⟨B.alloc.bblocks.length, B', ?_, hend⟩
  unfold emitInfLoop
  rw [bind_run _ _ allocBBlock_run, bind_run _ _ allocBBlock_run, bind_run _ _ halloc]
  refine (bind_run (theBlock (some b)) _ (pure_run b)).trans ?_
  rw [bind_run _ _ hjmp, bind_run _ _ hrun, bind_run _ _ hpatch]
  rfl

/-- The condition of a `do` loop goes back to `t` by a jump. -/
theorem emitDoCond_ok (out : Option BBlockId) (hgood : e.removesFirstOnly = true) (ha : Arena B F)
    (ho : ∀ b', out = some b' → B.IsOpen b') (ht : t < B.bblocks.length) : ∃ last B',
      emitDoCond e out t B = some (last, B') ∧ (∃ F', Arena B' F') ∧ EmptyBlock B' last ∧
      B.bblocks.length ≤ last ∧ Grows B B' ∧
      (∀ {b₀ B₀}, Emits b₀ B₀ B → (∀ b', out = some b' → b' = b₀ ∨ B₀.bblocks.length ≤ b') →
        Emits b₀ B₀ B') ∧
      (∀ (j : InstrId) (x : Instr), B.instrs[j]? = some x → B'.instrs[j]? = some x) ∧
      ∀ env C d, Grows B' C → AtEnd B out d → ∃ σ', σ'.store = (e.sem env d.st.store).1 ∧
        if (e.sem env d.st.store).2 then ∃ d', Steps C env d d' ∧ step C env d' = some ⟨t, 0, σ'⟩
        else Steps C env d ⟨last, 0, σ'⟩ := by
  cases out with
  | none =>
    exact ⟨B.bblocks.length, B.alloc, rfl, ⟨F, arena_of_sameNodes ha (sameNodes_alloc B)⟩,
      emptyBlock_alloc B, Nat.le_refl _, (Emits.alloc 0 B).grows,
      fun he _ => he.trans (.alloc _ B) (.inl rfl), fun _ _ hx => hx, fun _ _ _ _ hd => nomatch hd.1⟩
  | some b' =>
    obtain ⟨B₁, hmark, hp⟩ := markLoopHdr_ok t B
    obtain ⟨last, B', F', hcond, ha', hcode⟩ := emitCond_ok true hgood
      (arena_of_sameNodes ha hp.layout.nodes) ((hp.layout.isOpen b').mpr (ho b' rfl))
      (hp.layout.length.symm ▸ ht)
    have he := hcode.cond.code.emits
    refine ⟨last, B', (bind_run _ _ hmark).trans hcond, ⟨F', ha'⟩,
      ⟨hcode.cond.code.isOpen, hcode.empty⟩, hp.layout.length ▸ hcode.new, hp.grows.trans he.grows,
      fun he₀ hfresh => (he₀.patched hp nofun).trans he (hfresh b' rfl),
      fun j x hx => he.getElem? (hp.other j x nofun hx), fun env C d hG hd => ?_⟩
    obtain ⟨bb, pos, σ⟩ := d
    obtain ⟨hbb, hpos⟩ := hd
    obtain rfl : b' = bb := Option.some.inj hbb
    obtain rfl : pos = B₁.endPos b' := hpos.trans (hp.layout.endPos b').symm
    dsimp only
    cases hv : (e.sem env σ.store).2 with
    | true =>
      obtain ⟨d', σ', hst, hs, hstep⟩ := condCode_enters hcode hG σ hv
      exact ⟨σ', hst, d', hs, hstep⟩
    | false =>
      obtain ⟨σ', hst, hs⟩ := condCode_run hcode (hp.layout.length.symm ▸ ht) hG env σ
      rw [hv] at hs
      exact ⟨σ', hst, hs⟩

theorem emitDoWhile_ok (hgood : e.removesFirstOnly = true) (hbody : StmtOk true falls body p) :
    LoopOk (emitStmtDoWhile (.expr e) body)
      fun env n => rounds (doWhileRound (e.sem env) (p env n)) n := by
  intro b B F ha ho
  obtain ⟨B₁, hjmp, he₁, hn₁, hkeep, henter⟩ := enterLoop_ok (.alloc B) ho (emptyBlock_alloc B).lt
  have hempty := hkeep _ (emptyBlock_alloc B) (Nat.le_refl _)
  obtain ⟨out, u, B₂, hrun, -, hopen, ⟨F₂, ha₂⟩, js, ks, rfl, -, hlow⟩ :=
    hbody _ B₁ F .empty (arena_of_sameNodes ha hn₁) hempty.isOpen fun _ => UJmps.there_empty
  obtain ⟨hjs, hks, hdisj⟩ := List.nodup_append.mp hlow.nodup
  have hlt₂ := hempty.lt.trans_le hlow.emits.length
  have hwaits : ∀ j ∈ js ++ ks, B.instrs.length ≤ j := fun j hj =>
    he₁.instrs.length_le.trans (hlow.waits j hj).1
  obtain ⟨B₃, hpatch, hp⟩ := patchUJmpList_ok
    (fun j hj => (hlow.waits j (List.mem_append_right _ hj)).2) hks hlt₂
  obtain ⟨last, B₄, hcond, ⟨F₄, ha₄⟩, hlast, hnew, hG₄, he₄, hsame, hback⟩ := emitDoCond_ok out
    hgood (arena_of_sameNodes ha₂ hp.layout.nodes)
    (fun b' hb' => (hp.layout.isOpen b').mpr (hopen b' hb').1) (hp.layout.length.symm ▸ hlt₂)
  obtain ⟨B₅, hpatch', hp'⟩ := patchUJmpList_ok (B := B₄) (fun j hj => by
    obtain ⟨s, hs⟩ := (hlow.waits j (List.mem_append_left _ hj)).2
    exact ⟨s, hsame j _ (hp.other j _ (fun hj' => hdisj j hj j hj' rfl) hs)⟩) hjs hlast.lt
  have he₂ := he₁.trans hlow.emits (.inr (Nat.le_refl _))
  have he₅ := (he₄ (he₂.patched hp fun j hj => hwaits j (List.mem_append_right _ hj)) fun b' hb' =>
    fresh_trans he₁.length (.inr (Nat.le_refl _)) (hopen b' hb').2).patched hp' fun j hj =>
      hwaits j (List.mem_append_left _ hj)
  have hlast₅ := hlast.layout hp'.layout
  refine ⟨last, B₅, ?_, hlast₅.isOpen, .inr ?_, ⟨F₄, arena_of_sameNodes ha₄ hp'.layout.nodes⟩,
    lowered_loop he₅ hlast₅ fun env C n σ hG => ?_⟩
  · unfold emitStmtDoWhile
    dsimp only
    rw [bind_run _ _ allocBBlock_run]
    refine (bind_run (theBlock (some b)) _ (pure_run b)).trans ?_
    rw [bind_run _ _ hjmp, bind_run _ _ hrun]
    exact (bind_run _ _ hpatch).trans ((bind_run _ _ hcond).trans (bind_run _ _ hpatch'))
  · exact (he₂.length.trans (Nat.le_of_eq hp.layout.length.symm)).trans hnew
  · have hG₄' := hp'.grows.trans hG
    have hG₃ := hG₄.trans hG₄'
    have hG₂ := hp.grows.trans hG₃
    refine ⟨_, henter env C σ (hlow.emits.grows.trans hG₂), fun brk cont =>
      doWhileLoop_carries (fun σ => ?_) (fun d (hd : AtEnd B₂ out d) => ?_)
        { σ with prev := b }⟩
    · have h := hlow.run env C last _ n σ hG₂ (hp'.targets.grows hG) (hp.targets.grows hG₃)
      rwa [hempty.endPos] at h
    · exact hback env C d hG₄' ⟨hd.1, hd.2.trans (hp.layout.endPos d.bb).symm⟩

end Nibble.IR.Lowering
