import Nibble.IR.Frame

/-!
# Values and straight-line code

What it means that a result denotes a word from now on (`Settled`), and the
code that turns it into an operand. `Runs` is an execution inside the code
between two builders, in every later builder that leaves this code as it is.
-/

namespace Nibble.IR

variable {B B' B'' : ProcBuilder} {b b' : Nat} {env : Env} {σ σ' σ'' : MState}

/-! ## Single steps -/

section Step

variable {id pos : Nat} {i : Instr}

theorem step_exec (hat : B.instrAt b pos = some (id, i)) (hi : i.isControl = false)
    (hex : execInstr env B.memObjs i σ = some σ') :
    step B env ⟨b, pos, σ⟩ = some ⟨b, pos + 1, σ'⟩ := by
  simp only [step, hat, Option.bind_eq_bind, Option.bind_some]
  cases i with
  | jmp | condJmp | switchCaseJmp => cases hi
  | _ => simp only [hex, Option.bind_some]

theorem step_jmp {src t : Nat} (hat : B.instrAt b pos = some (id, .jmp src (some t))) :
    step B env ⟨b, pos, σ⟩ = some (σ.enter b t) := by
  simp [step, hat]

theorem step_condJmp_true {src f t : Nat} {a : Reg}
    (hat : B.instrAt b pos = some (id, .condJmp src (some t) f a))
    (ha : lowBytes 1 (σ.regs a) ≠ 0) : step B env ⟨b, pos, σ⟩ = some (σ.enter b t) := by
  simp only [step, hat, Option.bind_eq_bind, Option.bind_some]
  rw [if_pos ha]

theorem step_condJmp_false {src f : Nat} {t : Option BBlockId} {a : Reg}
    (hat : B.instrAt b pos = some (id, .condJmp src t f a))
    (ha : lowBytes 1 (σ.regs a) = 0) : step B env ⟨b, pos, σ⟩ = some (σ.enter b f) := by
  simp only [step, hat, Option.bind_eq_bind, Option.bind_some]
  rw [if_neg (not_not_intro ha)]

end Step

/-! ## Runs of emitted code -/

/-- Control runs from where `B` ends block `b` to where `B'` ends block `b'`, in every later
builder that has the code between the two as it is. -/
def Runs (env : Env) (b : Nat) (B : ProcBuilder) (σ : MState) (b' : Nat) (B' : ProcBuilder)
    (σ' : MState) : Prop :=
  ∀ B'', Future (fun j => B.instrs.length > j) B' B'' →
    Steps B'' env ⟨b, B.endPos b, σ⟩ ⟨b', B'.endPos b', σ'⟩

/-- The store has become `st` and the first `n` registers are as they were. -/
structure After (n : Nat) (σ : MState) (st : Store) (σ' : MState) : Prop where
  store : σ'.store = st
  regs : ∀ r : Nat, r < n → σ'.regs r = σ.regs r

theorem After.refl (n : Nat) (σ : MState) : After n σ σ.store σ := ⟨rfl, fun _ _ => rfl⟩

theorem After.trans {n n' : Nat} {st st' : Store} (h : After n σ st σ') (h' : After n' σ' st' σ'')
    (hn : n ≤ n') : After n σ st' σ'' :=
  ⟨h'.store, fun r hr => (h'.regs r (by omega)).trans (h.regs r hr)⟩

theorem After.setReg {n r : Nat} {v : Word} (hr : n ≤ r) : After n σ σ.store (σ.setReg r v) :=
  ⟨rfl, fun _ hs => σ.setReg_other v (Nat.ne_of_lt (hs.trans_le hr))⟩

theorem After.enter {n s t : Nat} {st : Store} (h : After n σ st σ') :
    After n σ st (σ'.enter s t).st :=
  ⟨h.store, h.regs⟩

theorem Runs.refl : Runs env b B σ b B σ := fun _ _ => .refl

theorem Runs.trans {B₁ : ProcBuilder} {b₁ : Nat} (h : Runs env b B σ b₁ B₁ σ')
    (h' : Runs env b₁ B₁ σ' b' B' σ'') (hl : B.instrs.length ≤ B₁.instrs.length)
    (he : Future (fun _ => False) B₁ B') : Runs env b B σ b' B' σ'' := by
  intro B'' hF
  refine (h B'' ((he.mono fun _ _ hf => hf.elim).trans hF)).trans
    (h' B'' (hF.mono fun j _ hj => ?_))
  exact Nat.lt_of_lt_of_le hj hl

theorem endPos_push_self {i : Instr} (hb : b < B.bblocks.length) :
    (B.push b i).endPos b = B.endPos b + 1 := by
  simp [ProcBuilder.endPos, ProcBuilder.blockInstrs_push_self hb]

/-- The instruction just pushed, as a later builder has it. -/
theorem Future.pushed {M : InstrId → Prop} {i : Instr} (hF : Future M (B.push b i) B'')
    (hb : b < B.bblocks.length) :
    ∃ y, B''.instrAt b (B.endPos b) = some (B.instrs.length, y) ∧
      B''.instrs[B.instrs.length]? = some y ∧ (y = i ∨ M B.instrs.length ∧ i.Later y) := by
  obtain ⟨y, hy, hyi⟩ := hF.instrs B.instrs.length i (by simp)
  refine ⟨y, hF.instrAt ?_ hy, hy, hyi⟩
  simp [ProcBuilder.endPos, ProcBuilder.blockInstrs_push_self hb]

/-- One emitted instruction that does not transfer control. -/
theorem Runs.push {i : Instr} (hb : b < B.bblocks.length) (hi : i.isControl = false)
    (hex : ∀ objs, B.memObjs <+: objs → execInstr env objs i σ = some σ') :
    Runs env b B σ b (B.push b i) σ' := by
  intro B'' hF
  obtain ⟨y, hat, -, rfl | ⟨hM, -⟩⟩ := hF.pushed hb
  · rw [endPos_push_self hb]
    exact .one (step_exec hat hi (hex _ hF.memObjs))
  · exact absurd hM (Nat.lt_irrefl _)

/-! ## Words that stay the same -/

/-- `f` reads `v` in state `σ`, and also later: with more memory objects and after registers that
`B` has not handed out yet have changed. -/
def Settled (B : ProcBuilder) (σ : MState) (f : List MemObj → MState → Option Word) (v : Word) :
    Prop :=
  ∀ objs σ', B.memObjs <+: objs → After B.numRegs σ σ.store σ' → f objs σ' = some v

theorem Settled.now {f : List MemObj → MState → Option Word} {v : Word} {objs : List MemObj}
    (h : Settled B σ f v) (ho : B.memObjs <+: objs) : f objs σ = some v :=
  h objs σ ho (.refl _ _)

theorem Settled.mono {f : List MemObj → MState → Option Word} {v : Word} (h : Settled B σ f v)
    (ho : B.memObjs <+: B'.memObjs) (hn : B.numRegs ≤ B'.numRegs)
    (ha : After B.numRegs σ σ.store σ') : Settled B' σ' f v := by
  intro objs σ'' hp h'
  refine h objs σ'' (ho.trans hp) (ha.trans ?_ hn)
  rw [← ha.store]
  exact h'

theorem Settled.imm (v : Word) : Settled B σ (fun _ _ => some v) v := fun _ _ _ _ => rfl

theorem Settled.reg {r : Nat} (hr : r < B.numRegs) :
    Settled B σ (fun _ σ => some (σ.regs r)) (σ.regs r) :=
  fun _ _ _ h => congrArg some (h.regs r hr)

theorem Settled.congr {f g : List MemObj → MState → Option Word} {v : Word} (h : Settled B σ f v)
    (hfg : ∀ objs σ', B.memObjs <+: objs → g objs σ' = f objs σ') : Settled B σ g v :=
  fun objs σ' hp ha => (hfg objs σ' hp).trans (h objs σ' hp ha)

/-! ## Straight-line emission -/

/-- `B'` is `B` with instructions that do not transfer control added to `b`. -/
structure Straight (b : Nat) (B B' : ProcBuilder) : Prop where
  emits : Emits b B B'
  isOpen : B'.IsOpen b
  length : B'.bblocks.length = B.bblocks.length
  scJmps : B'.scJmps = B.scJmps
  scJmpFreelist : B'.scJmpFreelist = B.scJmpFreelist
  patched : B'.patched = B.patched
  plain : ∀ j : Nat, ∀ x, B.instrs.length ≤ j → B'.instrs[j]? = some x → x.isControl = false

theorem Straight.refl (ho : B.IsOpen b) : Straight b B B :=
  ⟨.refl b B, ho, rfl, rfl, rfl, rfl, fun j x hj hx => by
    have := (List.getElem?_eq_some_iff.mp hx).1
    omega⟩

theorem Straight.trans (h : Straight b B B') (h' : Straight b B' B'') : Straight b B B'' := by
  refine ⟨h.emits.trans h'.emits (.inl rfl), h'.isOpen, h'.length.trans h.length,
    h'.scJmps.trans h.scJmps, h'.scJmpFreelist.trans h.scJmpFreelist,
    h'.patched.trans h.patched, fun j x hj hx => ?_⟩
  rcases Nat.lt_or_ge j B'.instrs.length with hlt | hge
  · have hx' := h'.emits.getElem? (List.getElem?_eq_getElem hlt)
    rw [hx] at hx'
    cases hx'
    exact h.plain j _ hj (List.getElem?_eq_getElem hlt)
  · exact h'.plain j x hge hx

theorem closes_of_not_isControl {i : Instr} (h : i.isControl = false) : i.closes = false := by
  cases i <;> simp_all [Instr.isControl, Instr.closes]

theorem Straight.push {i : Instr} (ho : B.IsOpen b) (hi : i.isControl = false) :
    Straight b B (B.push b i) := by
  refine ⟨.push ho.lt, ProcBuilder.isOpen_push_self ho.lt (closes_of_not_isControl hi), by simp,
    rfl, rfl, rfl, fun j x hj hx => ?_⟩
  have hlt := (List.getElem?_eq_some_iff.mp hx).1
  simp only [ProcBuilder.push_instrs, List.length_append, List.length_singleton] at hlt
  obtain rfl : j = B.instrs.length := by omega
  simp only [ProcBuilder.push_instrs, List.getElem?_concat_length] at hx
  cases hx
  exact hi

namespace ProcBuilder

/-- A register taken. -/
def takeReg (B : ProcBuilder) : ProcBuilder := { B with numRegs := B.numRegs + 1 }

/-- A memory object added. -/
def addObj (B : ProcBuilder) (o : MemObj) : ProcBuilder := { B with memObjs := B.memObjs ++ [o] }

@[simp] theorem takeReg_instrs : B.takeReg.instrs = B.instrs := rfl
@[simp] theorem takeReg_bblocks : B.takeReg.bblocks = B.bblocks := rfl
@[simp] theorem takeReg_memObjs : B.takeReg.memObjs = B.memObjs := rfl
@[simp] theorem takeReg_numRegs : B.takeReg.numRegs = B.numRegs + 1 := rfl
@[simp] theorem takeReg_endPos : B.takeReg.endPos b = B.endPos b := rfl
@[simp] theorem addObj_instrs {o : MemObj} : (B.addObj o).instrs = B.instrs := rfl
@[simp] theorem addObj_bblocks {o : MemObj} : (B.addObj o).bblocks = B.bblocks := rfl
@[simp] theorem addObj_memObjs {o : MemObj} : (B.addObj o).memObjs = B.memObjs ++ [o] := rfl
@[simp] theorem addObj_numRegs {o : MemObj} : (B.addObj o).numRegs = B.numRegs := rfl
@[simp] theorem addObj_endPos {o : MemObj} : (B.addObj o).endPos b = B.endPos b := rfl

end ProcBuilder

theorem Straight.of_code {R : Nat} {o : List MemObj} (ho : B.IsOpen b) (hR : B.numRegs ≤ R)
    (hm : B.memObjs <+: o) : Straight b B { B with numRegs := R, memObjs := o } :=
  ⟨⟨List.prefix_refl _, hm, hR, Nat.le_refl _, List.prefix_refl _, fun _ _ _ => rfl,
    fun _ _ _ h => h⟩, ho, rfl, rfl, rfl, rfl, (Straight.refl ho).plain⟩

theorem Straight.takeReg (ho : B.IsOpen b) : Straight b B B.takeReg :=
  .of_code ho (Nat.le_succ _) (List.prefix_refl _)

theorem Straight.addObj {o : MemObj} (ho : B.IsOpen b) : Straight b B (B.addObj o) :=
  .of_code ho (Nat.le_refl _) (List.prefix_append _ _)

/-! ## Converting a result into an operand -/

/-- The code between the builders turns what `f` reads into what `g` reads. -/
structure Converts (b : Nat) (B : ProcBuilder) (f g : Env → List MemObj → MState → Option Word)
    (B' : ProcBuilder) : Prop where
  straight : Straight b B B'
  run : ∀ env σ v, Settled B σ (f env) v → ∃ σ', Runs env b B σ b B' σ' ∧
    After B.numRegs σ σ.store σ' ∧ Settled B' σ' (g env) v

/-- What register `r` holds. -/
def readReg (r : Reg) (_ : Env) (_ : List MemObj) (σ : MState) : Option Word := some (σ.regs r)

/-- What a result stands for. -/
def readValue (er : ExprResult) (env : Env) (objs : List MemObj) (σ : MState) : Option Word :=
  er.value env objs σ

/-- The value at an address. -/
def readAddr (a : MemAddr) (size : Nat) (env : Env) (objs : List MemObj) (σ : MState) :
    Option Word :=
  (addrOf env objs σ.regs a).map (loadN σ.store.mem · size)

variable {f g : Env → List MemObj → MState → Option Word}

/-- No code is needed when both read the same. -/
theorem Converts.same (hs : Straight b B B')
    (hrun : ∀ env σ, Runs env b B σ b B' σ)
    (hfg : ∀ env objs σ, B'.memObjs <+: objs → g env objs σ = f env objs σ) :
    Converts b B f g B' := by
  refine ⟨hs, fun env σ v hv => ⟨σ, hrun env σ, .refl _ _, ?_⟩⟩
  exact (hv.mono hs.emits.memObjs hs.emits.numRegs (.refl _ _)).congr fun objs σ' => hfg env objs σ'

theorem Converts.refl (ho : B.IsOpen b) (hfg : ∀ env objs σ, g env objs σ = f env objs σ) :
    Converts b B f g B :=
  .same (.refl ho) (fun _ _ => .refl) fun env objs σ _ => hfg env objs σ

theorem Runs.of_code {R : Nat} {o : List MemObj} :
    Runs env b B σ b { B with numRegs := R, memObjs := o } σ := fun _ _ => .refl

theorem Converts.trans {h : Env → List MemObj → MState → Option Word} (h₁ : Converts b B f g B')
    (h₂ : Converts b B' g h B'') : Converts b B f h B'' := by
  refine ⟨h₁.straight.trans h₂.straight, fun env σ v hv => ?_⟩
  obtain ⟨σ₁, hr₁, ha₁, hv₁⟩ := h₁.run env σ v hv
  obtain ⟨σ₂, hr₂, ha₂, hv₂⟩ := h₂.run env σ₁ v hv₁
  refine ⟨σ₂, hr₁.trans hr₂ h₁.straight.emits.instrs.length_le h₂.straight.emits.future, ?_, hv₂⟩
  rw [← ha₁.store]
  exact ⟨ha₂.store, fun r hr =>
    (ha₂.regs r (hr.trans_le h₁.straight.emits.numRegs)).trans (ha₁.regs r hr)⟩

/-- A fresh register is defined by an instruction that puts `f` into it. -/
theorem emitDef_ok {mk : Reg → Instr} (ho : B.IsOpen b) (hi : ∀ r, (mk r).isControl = false)
    (hex : ∀ env objs σ r, execInstr env objs (mk r) σ = (f env objs σ).map (σ.setReg r)) :
    ∃ r B', emitDef b mk B = some (r, B') ∧ Converts b B f (readReg r) B' := by
  have hs := (Straight.takeReg ho).trans (.push (i := mk B.numRegs) ho (hi _))
  refine ⟨B.numRegs, B.takeReg.push b (mk B.numRegs), ?_, hs, fun env σ v hv => ?_⟩
  · simp only [emitDef, bind, StateT.bind, nextReg, Option.bind]
    erw [addInstr_eq (B := B.takeReg) ho]
    rfl
  · refine ⟨σ.setReg B.numRegs v, fun B'' hF => ?_, .setReg (Nat.le_refl _), ?_⟩
    · refine Runs.push (B := B.takeReg) ho.lt (hi _) (fun objs hp => ?_) B'' hF
      rw [hex, hv.now hp]
      rfl
    · have := Settled.reg (B := B.takeReg.push b (mk B.numRegs)) (σ := σ.setReg B.numRegs v)
        (r := B.numRegs) (by simp)
      simp only [MState.setReg_self] at this
      exact this

/-- The address of a symbol, once it is a memory object. -/
theorem addrOf_obj_sym {objs : List MemObj} {regs : Reg → Word} {o : Nat} {s : SymId}
    (h : objs[o]? = some (.sym s)) :
    addrOf env objs regs ⟨.obj o, none, 0, 0⟩ = some (env.symAddr s) := by
  simp [addrOf, MemAddr.evalWith, objAddr, h]

theorem getElem?_addObj {o : MemObj} {objs : List MemObj}
    (hp : (B.addObj o).memObjs <+: objs) : objs[B.memObjs.length]? = some o := by
  obtain ⟨t, rfl⟩ := hp
  simp

theorem symAsAddr_eq (s : SymId) :
    symAsAddr s B = some (⟨.obj B.memObjs.length, none, 0, 0⟩, B.addObj (.sym s)) := rfl

/-- A symbol is made a memory object, and reads as it did. -/
theorem Converts.sym (ho : B.IsOpen b) {s : SymId}
    (hfg : ∀ env objs σ, addrOf env objs σ.regs ⟨.obj B.memObjs.length, none, 0, 0⟩ =
      some (env.symAddr s) → g env objs σ = f env objs σ) :
    Converts b B f g (B.addObj (.sym s)) :=
  .same (.addObj ho) (fun _ _ => .of_code) fun env objs σ hp =>
    hfg env objs σ (addrOf_obj_sym (getElem?_addObj hp))

namespace ExprResult

/-- A scalar that is not a deferred comparison. -/
def IsPlain (er : ExprResult) : Prop :=
  er.type.isScalar = true ∧ er.kind ≠ .none ∧ ∀ c, er.kind ≠ .deferredCmp c

end ExprResult

theorem typeFitsInReg_of_isScalar {t : Ty} (h : t.isScalar = true) : typeFitsInReg t = true := by
  cases t with
  | integer k => cases k <;> rfl
  | float k => cases k <;> rfl
  | enum id k => cases k <;> rfl
  | ptr _ | proc _ => rfl
  | _ => cases h

theorem executeLea_ok (ho : B.IsOpen b) (t : Ty) (a : MemAddr) :
    ∃ r B', executeLea b t a B = some (r, B') ∧
      Converts b B (fun env objs σ => addrOf env objs σ.regs a) (readReg r) B' := by
  have hlea : ∃ r B', emitDef b (.lAddr t · a) B = some (r, B') ∧
      Converts b B (fun env objs σ => addrOf env objs σ.regs a) (readReg r) B' :=
    emitDef_ok ho (fun _ => rfl) fun env objs σ r => by
      simp only [execInstr]
      cases addrOf env objs σ.regs a <;> rfl
  unfold executeLea
  generalize hidx : (if a.scale = 0 then none else a.indexReg) = index
  cases hbase : a.base with
  | none | obj | strLit | floatLit => exact hlea
  | reg r =>
    cases index with
    | some i => exact hlea
    | none =>
      by_cases hd : a.disp = 0
      · simp only [hd, if_true]
        refine ⟨r, B, rfl, .refl ho fun env objs σ => ?_⟩
        obtain ⟨base, idx, scale, disp⟩ := a
        simp only at hbase hidx hd
        subst hbase hd
        by_cases hs : scale = 0
        · subst hs
          cases idx <;> simp [readReg, addrOf, MemAddr.evalWith]
        · rw [if_neg hs] at hidx
          subst hidx
          simp [readReg, addrOf, MemAddr.evalWith]
      · simp only [hd, if_false]
        exact hlea

theorem check_eq {c : Bool} (h : c = true) : check c B = some ((), B) := by
  subst h
  rfl

theorem load_ok (ho : B.IsOpen b) (t : Ty) (a : MemAddr) :
    ∃ r B', emitDef b (.load t · a) B = some (r, B') ∧
      Converts b B (readAddr a t.size) (readReg r) B' :=
  emitDef_ok ho (fun _ => rfl) fun env objs σ r => by
    simp only [execInstr, readAddr]
    cases addrOf env objs σ.regs a <;> rfl

theorem valueToReg_ok {er : ExprResult} (ho : B.IsOpen b) (hp : er.IsPlain) :
    ∃ r B', valueToReg b er B = some (r, B') ∧ Converts b B (readValue er) (readReg r) B' := by
  obtain ⟨t, k⟩ := er
  obtain ⟨hsc, hnone, hdef⟩ := hp
  have hfit := typeFitsInReg_of_isScalar hsc
  cases k with
  | none => exact absurd rfl hnone
  | deferredCmp c => exact absurd rfl (hdef c)
  | reg r => exact ⟨r, B, rfl, .refl ho fun _ _ _ => rfl⟩
  | imm v => exact emitDef_ok ho (fun _ => rfl) fun _ _ _ _ => rfl
  | memAddr a => exact executeLea_ok ho t a
  | derefAddr a => exact load_ok ho t a
  | floatLit i => exact load_ok ho t _
  | tmpObj o =>
    obtain ⟨r, B', he, hc⟩ := load_ok ho t (tmpObjAsAddr o)
    refine ⟨r, B', ?_, hc⟩
    simp only [valueToReg, bind, StateT.bind, check_eq hfit, Option.bind]
    exact he
  | strLit i =>
    obtain ⟨r, B', he, hc⟩ := load_ok ho t (strLitAsAddr i)
    refine ⟨r, B', ?_, hc⟩
    simp only [valueToReg, bind, StateT.bind, check_eq hfit, Option.bind]
    exact he
  | var s =>
    obtain ⟨r, B', he, hc⟩ := load_ok (B := B.addObj (.sym s)) ho t ⟨.obj B.memObjs.length, none, 0, 0⟩
    refine ⟨r, B', ?_, (Converts.sym ho fun env objs σ h => ?_).trans hc⟩
    · simp only [valueToReg, bind, StateT.bind, symAsAddr_eq, Option.bind]
      exact he
    · simp only [readAddr, h, readValue, ExprResult.value, Option.map_some]
  | proc s =>
    obtain ⟨r, B', he, hc⟩ := executeLea_ok (B := B.addObj (.sym s)) ho t
      ⟨.obj B.memObjs.length, none, 0, 0⟩
    refine ⟨r, B', ?_, (Converts.sym ho fun env objs σ h => ?_).trans hc⟩
    · simp only [valueToReg, bind, StateT.bind, symAsAddr_eq, Option.bind]
      exact he
    · simp only [h, readValue, ExprResult.value]

theorem valueToOpRIA_ok {er : ExprResult} (ho : B.IsOpen b) (hp : er.IsPlain) :
    ∃ a B', valueToOpRIA b er B = some (a, B') ∧
      Converts b B (readValue er) (fun env objs σ => a.read env objs σ er.type.size) B' := by
  have viaReg : ∀ {er : ExprResult}, er.IsPlain →
      ∃ r B', (do let r ← valueToReg b er; pure (OpRIA.reg r) : Build OpRIA) B = some (.reg r, B') ∧
      Converts b B (readValue er) (readReg r) B' := by
    intro er hp
    obtain ⟨r, B', he, hc⟩ := valueToReg_ok ho hp
    refine ⟨r, B', ?_, hc⟩
    simp only [bind, StateT.bind, he, Option.bind]
    rfl
  obtain ⟨t, k⟩ := er
  cases k with
  | none => exact absurd rfl hp.2.1
  | deferredCmp c => exact absurd rfl (hp.2.2 c)
  | reg r => exact ⟨.reg r, B, rfl, .refl ho fun _ _ _ => rfl⟩
  | imm v => exact ⟨.imm v, B, rfl, .refl ho fun _ _ _ => rfl⟩
  | derefAddr a => exact ⟨.addr a, B, rfl, .refl ho fun _ _ _ => rfl⟩
  | tmpObj o => exact ⟨.addr _, B, rfl, .refl ho fun _ _ _ => rfl⟩
  | strLit i => exact ⟨.addr _, B, rfl, .refl ho fun _ _ _ => rfl⟩
  | floatLit i => exact ⟨.addr _, B, rfl, .refl ho fun _ _ _ => rfl⟩
  | var s =>
    refine ⟨.addr _, B.addObj (.sym s), rfl, .sym ho fun env objs σ h => ?_⟩
    simp only [OpRIA.read, h, readValue, ExprResult.value, Option.map_some]
  | memAddr a =>
    obtain ⟨r, B', he, hc⟩ := viaReg hp
    exact ⟨.reg r, B', he, hc⟩
  | proc s =>
    obtain ⟨r, B', he, hc⟩ := viaReg hp
    exact ⟨.reg r, B', he, hc⟩

theorem valueToOpRA_ok {er : ExprResult} (ho : B.IsOpen b) (hp : er.IsPlain) :
    ∃ a B', valueToOpRA b er B = some (a, B') ∧
      Converts b B (readValue er) (fun env objs σ => a.read env objs σ er.type.size) B' := by
  have viaReg : ∀ {er : ExprResult}, er.IsPlain →
      ∃ r B', (do let r ← valueToReg b er; pure (OpRA.reg r) : Build OpRA) B = some (.reg r, B') ∧
      Converts b B (readValue er) (readReg r) B' := by
    intro er hp
    obtain ⟨r, B', he, hc⟩ := valueToReg_ok ho hp
    refine ⟨r, B', ?_, hc⟩
    simp only [bind, StateT.bind, he, Option.bind]
    rfl
  obtain ⟨t, k⟩ := er
  cases k with
  | none => exact absurd rfl hp.2.1
  | deferredCmp c => exact absurd rfl (hp.2.2 c)
  | reg r => exact ⟨.reg r, B, rfl, .refl ho fun _ _ _ => rfl⟩
  | derefAddr a => exact ⟨.addr a, B, rfl, .refl ho fun _ _ _ => rfl⟩
  | tmpObj o => exact ⟨.addr _, B, rfl, .refl ho fun _ _ _ => rfl⟩
  | strLit i => exact ⟨.addr _, B, rfl, .refl ho fun _ _ _ => rfl⟩
  | floatLit i => exact ⟨.addr _, B, rfl, .refl ho fun _ _ _ => rfl⟩
  | var s =>
    refine ⟨.addr _, B.addObj (.sym s), rfl, .sym ho fun env objs σ h => ?_⟩
    simp only [OpRA.read, h, readValue, ExprResult.value, Option.map_some]
  | imm v =>
    obtain ⟨r, B', he, hc⟩ := viaReg hp
    exact ⟨.reg r, B', he, hc⟩
  | memAddr a =>
    obtain ⟨r, B', he, hc⟩ := viaReg hp
    exact ⟨.reg r, B', he, hc⟩
  | proc s =>
    obtain ⟨r, B', he, hc⟩ := viaReg hp
    exact ⟨.reg r, B', he, hc⟩

end Nibble.IR
