import Nibble.IR.CondEnter
import Nibble.IR.StmtSpec

/-!
# Emission of statements

What emitting a statement from an open block has to yield (`StmtOk`), and that
each kind of statement other than a `switch` yields it when its parts do.
-/

namespace Nibble.IR.Lowering

open Nibble.Lib Nibble.Lib.Structured

variable {B B' B'' B₀ B₁ B₂ B₃ C : ProcBuilder} {b b' b₁ b₂ t lastBb : BBlockId} {env : Env}
  {σ : MState} {F F' : List NodeId} {js ks js' ks' : List InstrId}
  {normal normal' : ProcBuilder → Config → Prop} {p q : IRProg} {out : Option BBlockId}
  {u : UJmps} {inLoop falls : Bool} {e : BExpr} {sense : Bool}

/-- The lists with jumps added to them. -/
def UJmps.add (u : UJmps) (js ks : List InstrId) : UJmps :=
  ⟨u.brk.map (· ++ js), u.cont.map (· ++ ks)⟩

@[simp] theorem UJmps.add_nil (u : UJmps) : u.add [] [] = u := by
  obtain ⟨brk, cont⟩ := u
  cases brk <;> cases cont <;> simp [UJmps.add]

@[simp] theorem UJmps.add_add (u : UJmps) (js ks js' ks' : List InstrId) :
    (u.add js ks).add js' ks' = u.add (js ++ js') (ks ++ ks') := by
  obtain ⟨brk, cont⟩ := u
  cases brk <;> cases cont <;> simp [UJmps.add]

/-- Both lists are there. -/
def UJmps.There (u : UJmps) : Prop := u.brk.isSome = true ∧ u.cont.isSome = true

theorem UJmps.There.add (h : u.There) (js ks : List InstrId) : (u.add js ks).There := by
  obtain ⟨brk, cont⟩ := u
  obtain ⟨h, h'⟩ := h
  exact ⟨by simpa [UJmps.add] using h, by simpa [UJmps.add] using h'⟩

theorem UJmps.there_empty : UJmps.empty.There := ⟨rfl, rfl⟩

/-- What emission from `b` in `B` has left: code for `p`, after which control goes on in `out`. -/
structure StmtCode (inLoop falls : Bool) (p : IRProg) (b : BBlockId) (B : ProcBuilder) (u : UJmps)
    (out : Option BBlockId) (u' : UJmps) (B' : ProcBuilder) : Prop where
  falls : out.isSome = falls
  isOpen : ∀ b', out = some b' → B'.IsOpen b' ∧ (b' = b ∨ B.bblocks.length ≤ b')
  arena : ∃ F', Arena B' F'
  code : ∃ js ks, u' = u.add js ks ∧ (inLoop = false → js = [] ∧ ks = []) ∧
    Lowered b B B' js ks (fun _ => AtEnd B' out) p

/-- The emitter of a statement, in a loop or not, that carries out `p` and comes to its end if it
`falls`. -/
def StmtOk (inLoop falls : Bool) (emit : StmtEmitter) (p : IRProg) : Prop :=
  ∀ b B F u, Arena B F → B.IsOpen b → (inLoop = true → u.There) → ∃ out u' B',
    emit (some b) u B = some ((out, u'), B') ∧ StmtCode inLoop falls p b B u out u' B'

theorem StmtOk.congr {emit : StmtEmitter} (h : StmtOk inLoop falls emit p)
    (hp : ∀ env n st, p env n st = q env n st) : StmtOk inLoop falls emit q := by
  obtain rfl : p = q := funext fun env => funext fun n => funext fun st => hp env n st
  exact h

/-! ## Builders -/

theorem arena_of_sameNodes (h : Arena B F) (hn : SameNodes B B') : Arena B' F :=
  (hn.uses (Uses.refl h)).arena

theorem sameNodes_alloc (B : ProcBuilder) : SameNodes B B.alloc := ⟨rfl, rfl, fun _ h => h⟩

theorem sameNodes_push {i : Instr} (hb : b < B.bblocks.length) : SameNodes B (B.push b i) :=
  ⟨rfl, rfl, fun _ h => (Emits.push hb).targeted h⟩

@[simp] theorem endPos_alloc (k : BBlockId) : B.alloc.endPos k = B.endPos k := by
  unfold ProcBuilder.endPos
  rw [ProcBuilder.blockInstrs_alloc]

/-- An open block without instructions. -/
structure EmptyBlock (B : ProcBuilder) (t : BBlockId) : Prop where
  isOpen : B.IsOpen t
  endPos : B.endPos t = 0

theorem EmptyBlock.lt (h : EmptyBlock B t) : t < B.bblocks.length := h.isOpen.lt

theorem EmptyBlock.emits (h : EmptyBlock B t) (he : Emits b B B') (hne : t ≠ b) :
    EmptyBlock B' t := by
  refine ⟨he.isOpen t h.lt hne h.isOpen, ?_⟩
  unfold ProcBuilder.endPos
  rw [he.other t h.lt hne]
  exact h.endPos

theorem emptyBlock_alloc (B : ProcBuilder) : EmptyBlock B.alloc B.bblocks.length := by
  refine ⟨ProcBuilder.isOpen_alloc_new, ?_⟩
  rw [endPos_alloc]
  unfold ProcBuilder.endPos
  rw [ProcBuilder.blockInstrs_of_le (Nat.le_refl _)]
  rfl

theorem EmptyBlock.alloc (h : EmptyBlock B t) : EmptyBlock B.alloc t :=
  ⟨ProcBuilder.isOpen_alloc h.isOpen, (endPos_alloc t).trans h.endPos⟩

/-! ## Statements without control flow -/

theorem lowered_skip (b : BBlockId) (B : ProcBuilder) :
    Lowered b B B [] [] (fun _ => AtEnd B (some b)) fun _ _ => skip :=
  ⟨.refl b B, by simp, .nil, fun _ _ _ _ _ _ _ _ _ => ⟨_, .refl, rfl, rfl, rfl⟩⟩

theorem skip_ok : StmtOk inLoop true (fun b u => pure (b, u)) fun _ _ => skip := by
  intro b B F u ha ho _
  exact ⟨some b, u, B, rfl, rfl, fun b' hb' => by cases hb'; exact ⟨ho, .inl rfl⟩, ⟨F, ha⟩, [], [],
    by simp, fun _ => ⟨rfl, rfl⟩, lowered_skip b B⟩

theorem Effect.stmtOk (e : Effect) : StmtOk inLoop true
    (fun b u => do
      let b ← e.emit b
      pure (b, u)) fun env _ => act (e.sem env) := by
  intro b B F u ha ho _
  obtain ⟨b', B', F', hrun, huses, hval⟩ := e.ok b B F ha ho
  refine ⟨some b', u, B', bind_run _ _ hrun, rfl, fun b'' hb'' => ?_, ⟨F', huses.arena⟩, [], [],
    by simp, fun _ => ⟨rfl, rfl⟩, hval.code.emits, by simp, .nil, fun env C brk cont n σ hG _ _ => ?_⟩
  · cases hb''
    exact ⟨hval.code.isOpen, hval.code.fresh⟩
  · obtain ⟨σ', hr, ha', -⟩ := hval.run env σ
    exact ⟨_, hr.grows hG, ha'.store, rfl, rfl⟩

theorem emitSimple_ok (s : Ast.SimpleStmt irParts) : StmtOk inLoop true (emitSimple s)
    fun env _ => act ((irMeaning env).simple s) := by
  match s with
  | .expr e | .exprAssign e | .decl (.var e) => exact e.stmtOk
  | .decl .const | .decl .uninit => exact skip_ok

/-- A `ret` behind code that computes its value. -/
theorem lowered_ret {sem : Env → Store → Store × Word} {v : Value} (h : ValSpec sem b B b' B'
      fun env σ w => Settled B' σ (fun objs σ => v.read env objs σ) w) :
    Lowered b B (B'.push b' (.ret v)) [] [] normal
      fun env _ st => some (.ret (sem env st).2, (sem env st).1) := by
  have ho := h.code.isOpen
  refine ⟨h.code.emits.trans (.push ho.lt) h.code.fresh, by simp, .nil,
    fun env C brk cont n σ hG _ _ => ?_⟩
  obtain ⟨σ', hr, ha, hw⟩ := h.run env σ
  have hG' := (Emits.push ho.lt).grows.trans hG
  exact ⟨_, hr.grows hG', ha.store, _, v, hG.pushed ho.lt nofun, hw.now hG'.memObjs⟩

/-- The value of a `return` without an expression. -/
theorem valSpec_void (ho : B.IsOpen b) : ValSpec (fun env => (irMeaning env).ret none) b B b B
    fun env σ w => Settled B σ (fun objs σ => (⟨.void, .none⟩ : Value).read env objs σ) w :=
  ⟨.refl ho fun _ hf => hf, fun _ σ => ⟨σ, .refl, .refl _ _, fun _ _ _ _ => rfl⟩⟩

theorem emitStmtReturn_ok (e : Option RetExpr) : StmtOk inLoop false (emitStmtReturn e)
    fun env _ st => some (.ret ((irMeaning env).ret e st).2, ((irMeaning env).ret e st).1) := by
  intro b B F u ha ho _
  obtain ⟨b', v, B', F', hrun, huses, hval⟩ : ∃ b' v B' F',
      emitRetValue e b B = some ((b', v), B') ∧ Uses F B F' [] B' ∧
      ValSpec (fun env => (irMeaning env).ret e) b B b' B'
        fun env σ w => Settled B' σ (fun objs σ => v.read env objs σ) w := by
    cases e with
    | some e => exact e.ok b B F ha ho
    | none => exact ⟨b, _, B, F, rfl, .refl ha, valSpec_void ho⟩
  refine ⟨none, u, _, ?_, rfl, nofun, ⟨F', arena_of_sameNodes huses.arena
    (sameNodes_push hval.code.isOpen.lt)⟩, [], [], by simp, fun _ => ⟨rfl, rfl⟩, lowered_ret hval⟩
  unfold emitStmtReturn
  rw [bind_run _ _ (show theBlock (some b) B = some (b, B) from rfl), bind_run _ _ hrun]
  exact bind_run _ _ (addInstr_eq hval.code.isOpen)

/-- A jump that waits for its target. -/
theorem waiting_jmp (hb : b < B.bblocks.length) (hG : Grows (B.push b (.jmp b none)) C)
    (hC : Targets C [B.instrs.length] t) : AtJmp C t ⟨b, B.endPos b, σ⟩ := by
  obtain ⟨s, hs⟩ := hC _ (List.mem_singleton_self _)
  refine ⟨_, s, hG.instrAt ?_ hs⟩
  simp [ProcBuilder.endPos, ProcBuilder.blockInstrs_push_self hb]

theorem emitInstrJmp_none (ho : B.IsOpen b) :
    emitInstrJmp b none B = some (B.instrs.length, B.push b (.jmp b none)) := by
  unfold emitInstrJmp
  rw [bind_run _ _ (addInstr_eq ho)]
  rfl

theorem emitBreak_ok : StmtOk true false emitBreak fun _ _ st => some (.brk, st) := by
  intro b B F u ha ho hu
  obtain ⟨brk, cont⟩ := u
  obtain ⟨l, hl⟩ := Option.isSome_iff_exists.mp (hu rfl).1
  obtain rfl : brk = some l := hl
  refine ⟨none, ⟨some (l ++ [B.instrs.length]), cont⟩, B.push b (.jmp b none), ?_, rfl, nofun,
    ⟨F, arena_of_sameNodes ha (sameNodes_push ho.lt)⟩, [B.instrs.length], [], ?_, nofun,
    .push ho.lt, by simp, by simp, fun env C brk cont n σ hG hjs _ =>
      ⟨_, .refl, rfl, waiting_jmp ho.lt hG hjs⟩⟩
  · exact (bind_run (theBlock (some b)) _ (pure_run b)).trans (bind_run _ _ (emitInstrJmp_none ho))
  · simp [UJmps.add]

theorem emitContinue_ok : StmtOk true false emitContinue fun _ _ st => some (.cont, st) := by
  intro b B F u ha ho hu
  obtain ⟨brk, cont⟩ := u
  obtain ⟨l, hl⟩ := Option.isSome_iff_exists.mp (hu rfl).2
  obtain rfl : cont = some l := hl
  refine ⟨none, ⟨brk, some (l ++ [B.instrs.length])⟩, B.push b (.jmp b none), ?_, rfl, nofun,
    ⟨F, arena_of_sameNodes ha (sameNodes_push ho.lt)⟩, [], [B.instrs.length], ?_, nofun,
    .push ho.lt, by simp, by simp, fun env C brk cont n σ hG _ hks =>
      ⟨_, .refl, rfl, waiting_jmp ho.lt hG hks⟩⟩
  · exact (bind_run (theBlock (some b)) _ (pure_run b)).trans (bind_run _ _ (emitInstrJmp_none ho))
  · simp [UJmps.add]

/-! ## Blocks -/

/-- The block where control goes on, as seen from further back. -/
theorem fresh_trans (hlen : B.bblocks.length ≤ B₁.bblocks.length)
    (h : b₁ = b ∨ B.bblocks.length ≤ b₁) (h' : b' = b₁ ∨ B₁.bblocks.length ≤ b') :
    b' = b ∨ B.bblocks.length ≤ b' := by
  rcases h' with rfl | h'
  · exact h
  · exact .inr (hlen.trans h')

theorem blockBody_cons {emit rest : StmtEmitter} (h : StmtOk inLoop true emit p)
    (h' : StmtOk inLoop falls rest q) : StmtOk inLoop falls
      (fun b u => do
        let (b, u) ← emit b u
        rest b u) fun env n => seq (p env n) (q env n) := by
  intro b B F u ha ho hu
  obtain ⟨out, u₁, B₁, hrun, hfalls, hopen, ⟨F₁, ha₁⟩, js, ks, rfl, hnone, hcode⟩ := h b B F u ha ho hu
  obtain ⟨b₁, rfl⟩ := Option.isSome_iff_exists.mp hfalls
  obtain ⟨ho₁, hb₁⟩ := hopen b₁ rfl
  obtain ⟨out', u₂, B₂, hrun', hfalls', hopen', ha₂, js', ks', rfl, hnone', hcode'⟩ :=
    h' b₁ B₁ F₁ _ ha₁ ho₁ fun hin => (hu hin).add js ks
  refine ⟨out', _, B₂, (bind_run _ _ hrun).trans hrun', hfalls', fun b' hb' => ?_, ha₂,
    js ++ js', ks ++ ks', UJmps.add_add .., fun hin => ?_, hcode.seq hcode' hb₁⟩
  · exact ⟨(hopen' b' hb').1, fresh_trans hcode.emits.length hb₁ (hopen' b' hb').2⟩
  · obtain ⟨rfl, rfl⟩ := hnone hin
    obtain ⟨rfl, rfl⟩ := hnone' hin
    exact ⟨rfl, rfl⟩

theorem blockBody_last {emit : StmtEmitter} (h : StmtOk inLoop false emit p) : StmtOk inLoop false
    (fun b u => do
      let (b, u) ← emit b u
      pure (b, u)) fun env n => seq (p env n) skip := by
  intro b B F u ha ho hu
  obtain ⟨out, u', B', hrun, hfalls, hopen, ha', js, ks, hu', hnone, hcode⟩ := h b B F u ha ho hu
  obtain rfl : out = none := Option.not_isSome_iff_eq_none.mp (by simp [hfalls])
  exact ⟨none, u', B', bind_run _ _ hrun, hfalls, hopen, ha', js, ks, hu', hnone,
    hcode.seq_of_leaves _⟩

/-! ## Conditions -/

theorem condCode_run (h : CondCode e B b sense t b' B') (ht : t < B.bblocks.length)
    (hG : Grows B' C) (env : Env) (σ : MState) : ∃ σ', σ'.store = (e.sem env σ.store).1 ∧
      Steps C env ⟨b, B.endPos b, σ⟩
        ⟨if (e.sem env σ.store).2 = sense then t else b', 0, σ'⟩ := by
  obtain ⟨C', hF, hstep⟩ := hG.future
  obtain ⟨σ', hst, hs⟩ :=
    (h.cond.correct (Nat.ne_of_gt (ht.trans_le h.new))).run env C' σ hF
  exact ⟨σ', hst, Relation.ReflTransGen.mono (fun _ _ => hstep env _ _) _ _ hs⟩

theorem condCode_enters (h : CondCode e B b sense t b' B') (hG : Grows B' C) (σ : MState)
    (hv : (e.sem env σ.store).2 = sense) : ∃ d σ', σ'.store = (e.sem env σ.store).1 ∧
      Steps C env ⟨b, B.endPos b, σ⟩ d ∧ step C env d = some ⟨t, 0, σ'⟩ := by
  obtain ⟨C', hF, hstep⟩ := hG.future
  obtain ⟨d, σ', hst, hs, hd⟩ := h.enters hF σ hv
  exact ⟨d, σ', hst, Relation.ReflTransGen.mono (fun _ _ => hstep env _ _) _ _ hs, hstep env _ _ hd⟩

theorem emitCond_ok (sense : Bool) (hgood : e.removesFirstOnly = true) (ha : Arena B F) (ho : B.IsOpen b)
    (ht : t < B.bblocks.length) : ∃ b' B' F', emitCond e (some b) sense t B = some (b', B') ∧
      Arena B' F' ∧ CondCode e B b sense t b' B' :=
  processCfgCond_code hgood (Nat.le_refl _) ha ho ht

/-! ## Branches -/

theorem lowered_imp (h : Lowered b B B' js ks normal p)
    (hnormal : ∀ env C d, Grows B' C → normal C d →
      ∃ e, Steps C env d e ∧ e.st.store = d.st.store ∧ normal' C e) :
    Lowered b B B' js ks normal' p := by
  refine ⟨h.emits, h.waits, h.nodup, fun env C brk cont n σ hG hjs hks =>
    (h.run env C brk cont n σ hG hjs hks).bind fun o st d _ hd => ?_⟩
  cases o with
  | normal =>
    obtain ⟨e, hs, hst, he⟩ := hnormal env C d hG hd.2
    exact ⟨e, hs, hst.trans hd.1, he⟩
  | brk | cont | ret => exact ⟨d, .refl, hd⟩

theorem lowered_start (h : Lowered b B B' js ks (fun C => AtJmp C t) p) :
    Lowered b B B' js ks (fun _ => AtStart t) p :=
  lowered_imp h fun _ _ _ _ hd => ⟨_, .single hd.step, rfl, rfl, rfl⟩

theorem lowered_atEnd (h : Lowered b B B' js ks (fun _ => AtStart t) p) (ht : EmptyBlock B' t) :
    Lowered b B B' js ks (fun _ => AtEnd B' (some t)) p :=
  lowered_imp h fun _ _ d _ hd => ⟨d, .refl, rfl, by rw [hd.1], by rw [hd.2, hd.1, ht.endPos]⟩

/-- Nothing is emitted into a block that is new. -/
theorem lowered_skip_start (ht : EmptyBlock B t) :
    Lowered t B B [] [] (fun _ => AtStart t) fun _ _ => skip := by
  refine lowered_imp (lowered_skip t B) fun _ _ d _ hd => ⟨d, .refl, rfl, ?_⟩
  obtain ⟨hbb, hpos⟩ := hd
  cases hbb
  exact ⟨rfl, hpos.trans ht.endPos⟩

/-- A condition, the code for true behind it and the code for false in the block `t`. -/
theorem lowered_branch (hcode : CondCode e B₁ b false t b₂ B₂) (hB : Emits b B B₁)
    (hb : b < B.bblocks.length) (hpos : B₁.endPos b = B.endPos b) (ht : B.bblocks.length ≤ t)
    (ht₁ : EmptyBlock B₁ t) (h : Lowered b₂ B₂ B₃ js ks normal p)
    (h' : Lowered t B₃ B' js' ks' normal q) : Lowered b B B' (js ++ js') (ks ++ ks')
      normal fun env n => branch (e.sem env) (p env n) (q env n) := by
  have hcond := hB.trans hcode.cond.code.emits (.inl rfl)
  have hlen := hB.length
  have hnew := hcode.new
  have ht₃ := (ht₁.emits hcode.cond.code.emits (Nat.ne_of_gt (hb.trans_le ht))).emits h.emits
    (Nat.ne_of_lt (ht₁.lt.trans_le hnew))
  obtain ⟨hwaits, hnodup⟩ := h.waits_append h'
  refine ⟨(hcond.trans h.emits (.inr (hlen.trans hnew))).trans h'.emits (.inr ht),
    fun j hj => ⟨hcond.instrs.length_le.trans (hwaits j hj).1, (hwaits j hj).2⟩, hnodup,
    fun env C brk cont n σ hG hjs hks => ?_⟩
  obtain ⟨hjs, hjs'⟩ := hjs.of_append
  obtain ⟨hks, hks'⟩ := hks.of_append
  have hG₃ := h'.emits.grows.trans hG
  obtain ⟨σ₁, hst, hs⟩ := condCode_run hcode ht₁.lt (h.emits.grows.trans hG₃) env σ
  rw [hpos] at hs
  refine Carries.of_steps hs ?_
  unfold branch
  rw [← hst]
  cases hv : (e.sem env σ.store).2 with
  | true =>
    have hrun := h.run env C brk cont n σ₁ hG₃ hjs hks
    rw [hcode.empty] at hrun
    exact hrun
  | false =>
    have hrun := h'.run env C brk cont n σ₁ hG hjs' hks'
    rw [ht₃.endPos] at hrun
    exact hrun

/-- The body of an `if` and the jump behind it. -/
theorem StmtCode.jump (h : StmtCode inLoop falls p b B u out u' B') (ht : t < B'.bblocks.length) :
    ∃ B'' js ks, emitJmpFrom out t B' = some ((), B'') ∧ (∃ F, Arena B'' F) ∧ u' = u.add js ks ∧
      (inLoop = false → js = [] ∧ ks = []) ∧ Lowered b B B'' js ks (fun C => AtJmp C t) p ∧
      (falls = false → Lowered b B B'' js ks (fun _ _ => False) p) := by
  obtain ⟨hfalls, hopen, ⟨F, ha⟩, js, ks, hu, hnone, hcode⟩ := h
  obtain ⟨B'', hrun, hjmp, hn, -⟩ := hcode.jmp hopen ht
  refine ⟨B'', js, ks, hrun, ⟨F, arena_of_sameNodes ha hn⟩, hu, hnone, hjmp, fun hleaves => ?_⟩
  obtain rfl : out = none := Option.not_isSome_iff_eq_none.mp (by simp [hfalls, hleaves])
  cases hrun
  exact lowered_imp hcode fun _ _ _ _ hd => nomatch hd.1

theorem StmtCode.emits (h : StmtCode inLoop falls p b B u out u' B') : Emits b B B' := by
  obtain ⟨-, -, -, js, ks, -, -, hcode⟩ := h
  exact hcode.emits

/-- Of a constant condition one branch is left. -/
theorem emitIfConst_ok {imm : Word} {emit emit' : StmtEmitter} {elseBody : Option StmtEmitter}
    (hpick : (if imm != 0 then some emit else elseBody) = some emit')
    (h : StmtOk inLoop falls emit' p) : StmtOk inLoop falls (emitStmtIf (.const imm) emit elseBody) p := by
  have heq : emitStmtIf (.const imm) emit elseBody = emit' := by
    funext b u
    unfold emitStmtIf
    dsimp only
    rw [hpick]
  rwa [heq]

theorem emitIf_ok {emit : StmtEmitter} (hgood : e.removesFirstOnly = true)
    (h : StmtOk inLoop falls emit p) : StmtOk inLoop true (emitStmtIf (.expr e) emit none)
      fun env n => branch (e.sem env) (p env n) skip := by
  intro b B F u ha ho hu
  have hne : b ≠ B.bblocks.length := Nat.ne_of_lt ho.lt
  have hlast := emptyBlock_alloc B
  obtain ⟨b₂, B₂, F₂, hcond, ha₂, hcode⟩ := emitCond_ok false hgood
    (arena_of_sameNodes ha (sameNodes_alloc B)) (ProcBuilder.isOpen_alloc ho) hlast.lt
  obtain ⟨out, u', B₃, hrun, hbody⟩ := h b₂ B₂ F₂ u ha₂ hcode.cond.code.isOpen hu
  have hlast₃ := (hlast.emits hcode.cond.code.emits hne.symm).emits hbody.emits
    (Nat.ne_of_lt (hlast.lt.trans_le hcode.new))
  obtain ⟨B₄, js, ks, hjmp, ha₄, rfl, hnone, hlow, -⟩ := hbody.jump hlast₃.lt
  have hlast₄ := (hlast.emits hcode.cond.code.emits hne.symm).emits hlow.emits
    (Nat.ne_of_lt (hlast.lt.trans_le hcode.new))
  have hall := lowered_branch hcode (.alloc b B) ho.lt (endPos_alloc b) (Nat.le_refl _) hlast
    (lowered_start hlow) (lowered_skip_start hlast₄)
  rw [List.append_nil, List.append_nil] at hall
  refine ⟨some B.bblocks.length, u.add js ks, B₄, ?_, rfl, fun b' hb' => ?_, ha₄, js, ks, rfl, hnone,
    lowered_atEnd hall hlast₄⟩
  · unfold emitStmtIf
    dsimp only
    rw [bind_run _ _ allocBBlock_run, bind_run _ _ hcond, bind_run _ _ hrun, bind_run _ _ hjmp]
    rfl
  · cases hb'
    exact ⟨hlast₄.isOpen, .inr (Nat.le_refl _)⟩

theorem emitIfElse_ok {emit emit' : StmtEmitter} {falls' : Bool} (hgood : e.removesFirstOnly = true)
    (h : StmtOk inLoop falls emit p) (h' : StmtOk inLoop falls' emit' q) :
    StmtOk inLoop (falls || falls') (emitStmtIf (.expr e) emit (some emit'))
      fun env n => branch (e.sem env) (p env n) (q env n) := by
  intro b B F u ha ho hu
  have hlen : B.alloc.bblocks.length = B.bblocks.length + 1 := ProcBuilder.alloc_length
  have hb := ho.lt
  have hle : B.bblocks.length ≤ B.alloc.bblocks.length := by omega
  have hlast := (emptyBlock_alloc B).alloc
  have hfalse := emptyBlock_alloc B.alloc
  obtain ⟨b₂, B₂, F₂, hcond, ha₂, hcode⟩ := emitCond_ok false hgood
    (arena_of_sameNodes (arena_of_sameNodes ha (sameNodes_alloc B)) (sameNodes_alloc _))
    (ProcBuilder.isOpen_alloc (ProcBuilder.isOpen_alloc ho)) hfalse.lt
  have hnew : B.alloc.alloc.bblocks.length ≤ b₂ := hcode.new
  obtain ⟨out, u', B₃, hrun, hbody⟩ := h b₂ B₂ F₂ u ha₂ hcode.cond.code.isOpen hu
  have hkeep : ∀ {t B₃}, EmptyBlock B.alloc.alloc t → t ≠ b → Emits b₂ B₂ B₃ → EmptyBlock B₃ t :=
    fun ht hne he => (ht.emits hcode.cond.code.emits hne).emits he
      (Nat.ne_of_lt (ht.lt.trans_le hnew))
  obtain ⟨B₄, js, ks, hjmp, ⟨F₄, ha₄⟩, rfl, hnone, hlow, hleave⟩ :=
    hbody.jump (t := B.bblocks.length) (hkeep hlast (Nat.ne_of_gt hb) hbody.emits).lt
  have hlast₄ := hkeep hlast (Nat.ne_of_gt hb) hlow.emits
  have hfalse₄ := hkeep hfalse (Nat.ne_of_gt (hb.trans_le hle)) hlow.emits
  obtain ⟨out', u', B₅, hrun', hbody'⟩ := h' _ B₄ F₄ _ ha₄ hfalse₄.isOpen fun hin => (hu hin).add js ks
  have hne : B.bblocks.length ≠ B.alloc.bblocks.length := by omega
  obtain ⟨B₆, js', ks', hjmp', ha₆, rfl, hnone', hlow', hleave'⟩ :=
    hbody'.jump (hlast₄.emits hbody'.emits hne).lt
  have hlast₆ := hlast₄.emits hlow'.emits hne
  have hall : ∀ {normal}, Lowered b₂ B₂ B₄ js ks normal p →
      Lowered B.alloc.bblocks.length B₄ B₆ js' ks' normal q →
      Lowered b B B₆ (js ++ js') (ks ++ ks') normal
        fun env n => branch (e.sem env) (p env n) (q env n) :=
    fun hp hq => lowered_branch hcode ((Emits.alloc b B).trans (.alloc b _) (.inl rfl)) hb
      ((endPos_alloc b).trans (endPos_alloc b)) hle hfalse hp hq
  refine ⟨if out.isNone && out'.isNone then none else some B.bblocks.length,
    (u.add js ks).add js' ks', B₆, ?_, ?_, fun b' hb' => ?_, ha₆, js ++ js', ks ++ ks',
    UJmps.add_add .., fun hin => ?_, ?_⟩
  · unfold emitStmtIf
    dsimp only
    rw [bind_run _ _ allocBBlock_run, bind_run _ _ allocBBlock_run, bind_run _ _ hcond,
      bind_run _ _ hrun, bind_run _ _ hjmp, bind_run _ _ hrun', bind_run _ _ hjmp']
    rfl
  · rw [← hbody.falls, ← hbody'.falls]
    cases out <;> cases out' <;> rfl
  · split at hb'
    · cases hb'
    · cases hb'
      exact ⟨hlast₆.isOpen, .inr (Nat.le_refl _)⟩
  · obtain ⟨rfl, rfl⟩ := hnone hin
    obtain ⟨rfl, rfl⟩ := hnone' hin
    exact ⟨rfl, rfl⟩
  · split
    · rename_i hnone
      rw [Bool.and_eq_true, Option.isNone_iff_eq_none, Option.isNone_iff_eq_none] at hnone
      have hf := hbody.falls
      have hf' := hbody'.falls
      rw [hnone.1] at hf
      rw [hnone.2] at hf'
      exact lowered_imp (hall (hleave hf.symm) (hleave' hf'.symm)) fun _ _ _ _ hd => hd.elim
    · exact lowered_atEnd (hall (lowered_start hlow) (lowered_start hlow')) hlast₆

end Nibble.IR.Lowering
