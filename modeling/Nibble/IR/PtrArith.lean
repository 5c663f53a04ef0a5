import Mathlib.Data.BitVec
import Nibble.Ast.PtrFold
import Nibble.IR.CondValue

/-!
# Pointer arithmetic in emitted code

`IR_emit_ptr_int_add` and the difference of two pointers in `IR_emit_op_sub`,
for operands that are not deferred comparisons. A sum emits an address: an
immediate goes into the displacement, anything else into the index register.
-/

namespace Nibble.IR

open Nibble.Lib Nibble.Ast

/-- `type->as_ptr.base->size`. -/
def ptrBaseSize : Ty → Option Word
  | .ptr base => some (BitVec.ofNat 64 base.size)
  | _ => none

/-- `IR_ptr_to_mem_expr_result`: the address that a pointer denotes. -/
def ptrToMemExprResult (b : BBlockId) (er : ExprResult) : Build MemAddr :=
  match er.kind with
  | .memAddr a => pure a
  | .var s => do
    let a ← symAsAddr s
    let r ← emitDef b (.load er.type · a)
    pure ⟨.reg r, none, 0, 0⟩
  | .derefAddr a => do
    let r ← emitDef b (.load er.type · a)
    pure ⟨.reg r, none, 0, 0⟩
  | .reg r => pure ⟨.reg r, none, 0, 0⟩
  | _ => failure

/-- An address that is indexed with another scale is loaded into a register first. -/
def loadOtherScale (b : BBlockId) (ptr : ExprResult) (baseSize : Word) : Build ExprResult :=
  match ptr.kind with
  | .memAddr a =>
    if a.scale ≠ 0 ∧ a.scale.setWidth 64 ≠ baseSize then do
      let r ← executeLea b ptr.type a
      pure ⟨ptr.type, .reg r⟩
    else pure ptr
  | _ => pure ptr

/-- An immediate is added to the displacement. -/
def addDisp (add : Bool) (baseSize imm : Word) (a : MemAddr) : MemAddr :=
  { a with disp := (moved add (a.disp.setWidth 64) baseSize imm).setWidth 32 }

/-- An index is added to the one that the address has, or becomes its index. -/
def addIndex (b : BBlockId) (add : Bool) (baseSize : Word) (a : MemAddr) (int : ExprResult) :
    Build MemAddr :=
  if a.scale ≠ 0 then
    match a.indexReg with
    | some index => do
      let i ← valueToReg b int
      let r ← emitDef b
        (.intBinary (if add then .add else .sub) (.integer .s64) · (.reg index) (.reg i))
      pure { a with indexReg := some r }
    | none => failure
  else do
    let i ← valueToReg b int
    let i ← if add then pure i else emitDef b (.unary .neg int.type · i)
    pure { a with scale := baseSize.setWidth 8, indexReg := some i }

/-- The branch of `IR_emit_ptr_int_add` for an integer that is not an immediate. -/
def emitPtrIndexAdd (b : BBlockId) (ptr int : ExprResult) (add : Bool) (baseSize : Word) :
    Build MemAddr := do
  let ptr' ← loadOtherScale b ptr baseSize
  let a ← ptrToMemExprResult b ptr'
  addIndex b add baseSize a int

/-- `IR_emit_ptr_int_add`. -/
def emitPtrIntAdd (b : BBlockId) (ptr int : ExprResult) (add : Bool) : Build ExprResult :=
  match ptrBaseSize ptr.type with
  | none => failure
  | some baseSize =>
    match int.kind with
    | .imm v => do
      let a ← ptrToMemExprResult b ptr
      pure ⟨ptr.type, .memAddr (addDisp add baseSize v a)⟩
    | _ => do
      let a ← emitPtrIndexAdd b ptr int add baseSize
      pure ⟨ptr.type, .memAddr a⟩

/-- A difference is shifted by the logarithm of the base size. -/
def shiftDiff (b : BBlockId) (baseSizeLog2 : Nat) (r : Reg) : Build Reg :=
  if baseSizeLog2 > 0 then
    emitDef b (.intBinary .sar (.integer .s64) · (.reg r) (.imm (BitVec.ofNat 64 baseSizeLog2)))
  else pure r

/-- The case `ptr - ptr` of `IR_emit_op_sub`. -/
def emitPtrDiff (b : BBlockId) (left right : ExprResult) : Build ExprResult :=
  match (ptrBaseSize left.type).bind clp2 with
  | none => failure
  | some baseSizeLog2 => do
    let x ← valueToOpRIA b left
    let y ← valueToOpRIA b right
    let r ← emitDef b (.intBinary .sub (.integer .s64) · x y)
    let r ← shiftDiff b baseSizeLog2 r
    pure ⟨.integer .s64, .reg r⟩

/-! ## Code with two operands -/

variable {B B' B'' : ProcBuilder} {b : Nat} {env : Env} {σ : MState}
  {f f' g g' h h' : Env → List MemObj → MState → Option Word} {op : Word → Word → Word}

/-- The code between the builders turns what `f` and `g` read into what `h` reads. -/
structure Combines (b : Nat) (B : ProcBuilder) (f g : Env → List MemObj → MState → Option Word)
    (op : Word → Word → Word) (h : Env → List MemObj → MState → Option Word)
    (B' : ProcBuilder) : Prop where
  straight : Straight b B B'
  run : ∀ env σ v w, Settled B σ (f env) v → Settled B σ (g env) w → ∃ σ', Runs env b B σ b B' σ' ∧
    After B.numRegs σ σ.store σ' ∧ Settled B' σ' (h env) (op v w)

namespace Combines

theorem read (ho : B.IsOpen b) (hread : ∀ env objs σ x y, f env objs σ = some x →
    g env objs σ = some y → h env objs σ = some (op x y)) : Combines b B f g op h B :=
  ⟨.refl ho, fun env σ v w hv hw => ⟨σ, .refl, .refl _ _, fun objs σ' hp ha =>
    hread env objs σ' v w (hv objs σ' hp ha) (hw objs σ' hp ha)⟩⟩

theorem convertFst (hc : Converts b B f f' B') (h₂ : Combines b B' f' g op h B'') :
    Combines b B f g op h B'' := by
  refine ⟨hc.straight.trans h₂.straight, fun env σ v w hv hw => ?_⟩
  obtain ⟨σ₁, hr₁, ha₁, hv₁⟩ := hc.run env σ v hv
  obtain ⟨σ₂, hr₂, ha₂, hh⟩ := h₂.run env σ₁ v w hv₁ (hw.converts hc.straight ha₁)
  refine ⟨σ₂, hr₁.trans hr₂ hc.straight.emits.instrs.length_le h₂.straight.emits.future, ?_, hh⟩
  rw [← ha₁.store]
  exact ha₁.trans ha₂ hc.straight.emits.numRegs

theorem convertSnd (hc : Converts b B g g' B') (h₂ : Combines b B' f g' op h B'') :
    Combines b B f g op h B'' := by
  refine ⟨hc.straight.trans h₂.straight, fun env σ v w hv hw => ?_⟩
  obtain ⟨σ₁, hr₁, ha₁, hw₁⟩ := hc.run env σ w hw
  obtain ⟨σ₂, hr₂, ha₂, hh⟩ := h₂.run env σ₁ v w (hv.converts hc.straight ha₁) hw₁
  refine ⟨σ₂, hr₁.trans hr₂ hc.straight.emits.instrs.length_le h₂.straight.emits.future, ?_, hh⟩
  rw [← ha₁.store]
  exact ha₁.trans ha₂ hc.straight.emits.numRegs

theorem convert (h₁ : Combines b B f g op h B') (hc : Converts b B' h h' B'') :
    Combines b B f g op h' B'' := by
  refine ⟨h₁.straight.trans hc.straight, fun env σ v w hv hw => ?_⟩
  obtain ⟨σ₁, hr₁, ha₁, hh⟩ := h₁.run env σ v w hv hw
  obtain ⟨σ₂, hr₂, ha₂, hh'⟩ := hc.run env σ₁ _ hh
  refine ⟨σ₂, hr₁.trans hr₂ h₁.straight.emits.instrs.length_le hc.straight.emits.future, ?_, hh'⟩
  rw [← ha₁.store]
  exact ha₁.trans ha₂ h₁.straight.emits.numRegs

theorem congr {op' : Word → Word → Word} (h₁ : Combines b B f g op h B')
    (hop : ∀ v w, op v w = op' v w) : Combines b B f g op' h B' :=
  ⟨h₁.straight, fun env σ v w hv hw => hop v w ▸ h₁.run env σ v w hv hw⟩

/-- The second operand is changed on the way. -/
theorem mapSnd {k : Word → Word}
    (h₁ : Combines b B f (fun env objs σ => (g env objs σ).map k) op h B') :
    Combines b B f g (fun v w => op v (k w)) h B' :=
  ⟨h₁.straight, fun env σ v w hv hw => h₁.run env σ v (k w) hv fun objs σ' hp ha => by
    simp only [hw objs σ' hp ha, Option.map_some]⟩

/-- The result is changed. -/
theorem map {k : Word → Word} (h₁ : Combines b B f g op h B') :
    Combines b B f g (fun v w => k (op v w)) (fun env objs σ => (h env objs σ).map k) B' := by
  refine ⟨h₁.straight, fun env σ v w hv hw => ?_⟩
  obtain ⟨σ', hr, ha, hh⟩ := h₁.run env σ v w hv hw
  exact ⟨σ', hr, ha, fun objs σ'' hp ha' => by simp only [hh objs σ'' hp ha', Option.map_some]⟩

end Combines

/-! ## Addresses -/

section Addr

variable {objs : List MemObj} {regs : Reg → Word} {a : MemAddr} {p : Word}

theorem addrOf_disp (d : BitVec 32) (h : addrOf env objs regs a = some p) :
    addrOf env objs regs { a with disp := d } =
      some (p - a.disp.signExtend 64 + d.signExtend 64) := by
  simp only [addrOf, MemAddr.evalWith, Option.map_eq_some_iff] at h ⊢
  obtain ⟨x, hx, rfl⟩ := h
  refine ⟨x, hx, ?_⟩
  rw [BitVec.add_sub_cancel]

/-- An address with scale zero has no index. -/
theorem addrOf_index {i : Reg} {s : BitVec 8} (hs : a.scale = 0)
    (h : addrOf env objs regs a = some p) :
    addrOf env objs regs { a with scale := s, indexReg := some i } =
      some (p + regs i * s.setWidth 64) := by
  simp only [addrOf, MemAddr.evalWith, Option.map_eq_some_iff, hs] at h ⊢
  obtain ⟨x, hx, rfl⟩ := h
  refine ⟨x, hx, ?_⟩
  have hzero : BitVec.setWidth 64 (0 : BitVec 8) = 0 := rfl
  rcases a.indexReg with _ | r
  · ring
  · simp only [hzero]
    ring

theorem addrOf_reindex {i j : Reg} (hi : a.indexReg = some i)
    (h : addrOf env objs regs a = some p) :
    addrOf env objs regs { a with indexReg := some j } =
      some (p + (regs j - regs i) * a.scale.setWidth 64) := by
  simp only [addrOf, MemAddr.evalWith, Option.map_eq_some_iff, hi] at h ⊢
  obtain ⟨x, hx, rfl⟩ := h
  refine ⟨x, hx, ?_⟩
  ring

end Addr

/-! ## The pointer of a sum -/

namespace ExprResult

/-- The kinds that `IR_ptr_to_mem_expr_result` turns into an address. -/
def isMemPtr (er : ExprResult) : Bool :=
  match er.kind with
  | .memAddr _ | .var _ | .derefAddr _ | .reg _ => true
  | _ => false

/-- The displacement that the address of a pointer starts with. -/
def disp (er : ExprResult) : BitVec 32 :=
  match er.kind with
  | .memAddr a => a.disp
  | _ => 0

end ExprResult

/-- What an address denotes. -/
def readLoc (a : MemAddr) (env : Env) (objs : List MemObj) (σ : MState) : Option Word :=
  addrOf env objs σ.regs a

theorem readLoc_reg (r : Reg) (env : Env) (objs : List MemObj) (σ : MState) :
    readLoc ⟨.reg r, none, 0, 0⟩ env objs σ = readReg r env objs σ := by
  simp [readLoc, readReg, addrOf, MemAddr.evalWith]

variable {er ptr int : ExprResult} {a : MemAddr} {s : Word}

theorem ptrToMemExprResult_ok (ho : B.IsOpen b) (hm : er.isMemPtr = true)
    (hp : er.type.isScalar = true) :
    ∃ a B', ptrToMemExprResult b er B = some (a, B') ∧
      Converts b B (readValue er) (readLoc a) B' ∧ a.disp = er.disp ∧
      (a.scale = 0 ∨ er.kind = .memAddr a ∧ B' = B) := by
  have viaReg : er.IsPlain → er.disp = 0 →
      (ptrToMemExprResult b er B =
        (valueToReg b er >>= fun r => pure (⟨.reg r, none, 0, 0⟩ : MemAddr)) B) →
      ∃ a B', ptrToMemExprResult b er B = some (a, B') ∧
        Converts b B (readValue er) (readLoc a) B' ∧ a.disp = er.disp ∧
        (a.scale = 0 ∨ er.kind = .memAddr a ∧ B' = B) := by
    intro hplain hd heq
    obtain ⟨r, B', hr, hc⟩ := valueToReg_ok ho hplain
    refine ⟨⟨.reg r, none, 0, 0⟩, B', ?_, hc.trans (.refl hc.straight.isOpen fun env objs σ =>
      readLoc_reg r env objs σ), hd.symm, .inl rfl⟩
    rw [heq, bind_run _ _ hr]
    rfl
  obtain ⟨t, k⟩ := er
  cases k with
  | memAddr a => exact ⟨a, B, rfl, .refl ho fun _ _ _ => rfl, rfl, .inr ⟨rfl, rfl⟩⟩
  | reg r => exact viaReg ⟨hp, by simp, by simp⟩ rfl rfl
  | derefAddr a => exact viaReg ⟨hp, by simp, by simp⟩ rfl rfl
  | var s => exact viaReg ⟨hp, by simp, by simp⟩ rfl rfl
  | _ => cases hm

theorem ptrToMemExprResult_none (hm : er.isMemPtr = false) :
    ptrToMemExprResult b er B = none := by
  obtain ⟨t, k⟩ := er
  cases k with
  | memAddr | reg | derefAddr | var => cases hm
  | _ => rfl

theorem loadOtherScale_ok (ho : B.IsOpen b) (ptr : ExprResult) (s : Word) :
    ∃ ptr' B', loadOtherScale b ptr s B = some (ptr', B') ∧
      Converts b B (readValue ptr) (readValue ptr') B' ∧ ptr'.type = ptr.type ∧
      ptr'.isMemPtr = ptr.isMemPtr ∧
      ∀ a, ptr'.kind = .memAddr a →
        (a.scale = 0 ∨ a.scale.setWidth 64 = s) ∧ ptr.kind = .memAddr a ∧ B' = B := by
  obtain ⟨t, k⟩ := ptr
  cases k with
  | memAddr a =>
    by_cases hs : a.scale ≠ 0 ∧ a.scale.setWidth 64 ≠ s
    · obtain ⟨r, B', hr, hc⟩ := executeLea_ok ho t a
      refine ⟨⟨t, .reg r⟩, B', ?_, hc, rfl, rfl, fun a' ha' => by cases ha'⟩
      simp only [loadOtherScale, if_pos hs]
      rw [bind_run _ _ hr]
      rfl
    · refine ⟨⟨t, .memAddr a⟩, B, ?_, .refl ho fun _ _ _ => rfl, rfl, rfl, ?_⟩
      · simp only [loadOtherScale, if_neg hs]
        rfl
      · rintro a' ⟨⟩
        exact ⟨by tauto, rfl, rfl⟩
  | _ => exact ⟨_, B, rfl, .refl ho fun _ _ _ => rfl, rfl, rfl, fun a' ha' => by cases ha'⟩

/-! ## The index of a sum -/

theorem exec_intBinary {env : Env} {objs : List MemObj} {op : IntBinOp} {r : Reg}
    {x y : OpRIA} {v w z : Word} (hx : x.read env objs σ 8 = some v)
    (hy : y.read env objs σ 8 = some w) (hz : op.eval true v w = some z) :
    execInstr env objs (.intBinary op (.integer .s64) r x y) σ = some (σ.setReg r z) := by
  have hv : v.setWidth 64 = v := BitVec.setWidth_eq v
  have hw : w.setWidth 64 = w := BitVec.setWidth_eq w
  have hz' : z.setWidth 64 = z := BitVec.setWidth_eq z
  simp only [execInstr, show (Ty.integer .s64).size = 8 from rfl, hx, hy, Option.bind_eq_bind,
    Option.bind_some]
  change (@IntBinOp.eval 64 op true (v.setWidth 64) (w.setWidth 64)).bind
    (fun u => some (σ.setReg r (u.setWidth 64))) = _
  rw [hv, hw, hz, Option.bind_some, hz']

theorem emitNeg_ok (ho : B.IsOpen b) (i : Reg) :
    ∃ r B', emitDef b (.unary .neg (.integer .u64) · i) B = some (r, B') ∧
      Converts b B (fun env objs σ => (readReg i env objs σ).map Neg.neg) (readReg r) B' :=
  emitDef_ok ho (fun _ => rfl) fun env objs σ r => by
    have hneg : ((-(σ.regs i).setWidth 64).setWidth 64 : Word) = -σ.regs i := by
      rw [BitVec.setWidth_eq, BitVec.setWidth_eq]
    exact congrArg (some <| σ.setReg r ·) hneg

/-- A new index register beside the one that an address has. -/
theorem reindex_ok {add : Bool} {index i : Reg} (ho : B.IsOpen b) (hidx : a.indexReg = some index)
    (hlt : index < B.numRegs) :
    ∃ r B', emitDef b (.intBinary (if add then .add else .sub) (.integer .s64) · (.reg index)
        (.reg i)) B = some (r, B') ∧
      Combines b B (readLoc a) (readReg i) (fun p v => moved add p (a.scale.setWidth 64) v)
        (readLoc { a with indexReg := some r }) B' := by
  have hdef : ∃ r B', emitDef b (.intBinary (if add then .add else .sub) (.integer .s64) ·
        (.reg index) (.reg i)) B = some (r, B') ∧
      Converts b B (fun _ _ σ => some (if add then σ.regs index + σ.regs i
        else σ.regs index - σ.regs i)) (readReg r) B' :=
    emitDef_ok ho (fun _ => rfl) fun env objs σ r => by
      refine exec_intBinary rfl rfl ?_
      cases add <;> rfl
  obtain ⟨r, B', hrun, hc⟩ := hdef
  refine ⟨r, B', hrun, hc.straight, fun env σ p v hp hv => ?_⟩
  have hsum : Settled B σ (fun _ σ => some (if add then σ.regs index + σ.regs i
      else σ.regs index - σ.regs i))
      (if add then σ.regs index + v else σ.regs index - v) := by
    intro objs σ' hpre ha
    have hi : σ'.regs i = v := Option.some.inj (hv objs σ' hpre ha)
    simp only [hi, ha.regs index hlt]
  obtain ⟨σ', hr, ha, hset⟩ := hc.run env σ _ hsum
  refine ⟨σ', hr, ha, fun objs σ'' hpre ha' => ?_⟩
  have hold : addrOf env objs σ''.regs a = some p := hp.converts hc.straight ha objs σ'' hpre ha'
  have hnew : σ''.regs r = _ := Option.some.inj (hset objs σ'' hpre ha')
  have hkeep : σ''.regs index = σ.regs index :=
    (ha'.regs index (hlt.trans_le hc.straight.emits.numRegs)).trans (ha.regs index hlt)
  rw [readLoc, addrOf_reindex hidx hold, hnew, hkeep]
  cases add <;> simp only [moved, if_true, Bool.false_eq_true, if_false] <;> ring_nf

theorem addIndex_ok {add : Bool} (ho : B.IsOpen b) (hint : int.IsPlain)
    (hty : int.type = .integer .u64)
    (ha : a.scale = 0 ∨ a.scale.setWidth 64 = s ∧ ∃ i, a.indexReg = some i ∧ i < B.numRegs) :
    ∃ a' B', addIndex b add s a int B = some (a', B') ∧
      Combines b B (readLoc a) (readValue int)
        (fun p v => moved add p ((s.setWidth 8).setWidth 64) v) (readLoc a') B' := by
  obtain ⟨i, B₁, hrun, hc⟩ := valueToReg_ok ho hint
  have hopen := hc.straight.isOpen
  by_cases hz : a.scale = 0
  · cases add with
    | true =>
      refine ⟨{ a with scale := s.setWidth 8, indexReg := some i }, B₁, ?_, .convertSnd hc
        (.read hopen fun env objs σ p v hp hv => ?_)⟩
      · rw [addIndex, if_neg (not_not_intro hz), bind_run _ _ hrun]
        rfl
      · rw [readLoc, addrOf_index hz hp, Option.some.inj hv]
        simp only [moved, if_true]
        rw [BitVec.mul_comm]
    | false =>
      obtain ⟨r, B₂, hneg, hcneg⟩ := emitNeg_ok hopen i
      have hread : Combines b B₂ (readLoc a) (readReg r)
          (fun p v => p + v * (s.setWidth 8).setWidth 64)
          (readLoc { a with scale := s.setWidth 8, indexReg := some r }) B₂ :=
        .read hcneg.straight.isOpen fun env objs σ p v hp hv => by
          rw [readLoc, addrOf_index hz hp, Option.some.inj hv]
      refine ⟨{ a with scale := s.setWidth 8, indexReg := some r }, B₂, ?_,
        (Combines.convertSnd hc (.mapSnd (.convertSnd hcneg hread))).congr fun p v => ?_⟩
      · rw [addIndex, if_neg (not_not_intro hz), bind_run _ _ hrun, hty,
          if_neg Bool.false_ne_true, bind_run _ _ hneg]
        rfl
      · simp only [moved, Bool.false_eq_true, if_false]
        ring
  · obtain ⟨hs, index, hidx, hlt⟩ := ha.resolve_left hz
    obtain ⟨r, B₂, hdef, hcomb⟩ := @reindex_ok _ _ _ add _ i hopen hidx
      (hlt.trans_le hc.straight.emits.numRegs)
    refine ⟨{ a with indexReg := some r }, B₂, ?_, (Combines.convertSnd hc hcomb).congr
      fun p v => ?_⟩
    · rw [addIndex, if_pos hz, hidx]
      simp only
      rw [bind_run _ _ hrun, bind_run _ _ hdef]
      rfl
    · have hback : (s.setWidth 8).setWidth 64 = s := by
        rw [← hs]
        apply BitVec.eq_of_toNat_eq
        simp only [BitVec.toNat_setWidth]
        omega
      rw [hback, hs]

/-! ## Sums and differences -/

/-- What `IR_emit_ptr_int_add` may rely on: the resolver has checked the types and converted the
integer, and an address that is scaled has an index register that was handed out before. -/
structure SumOperands (B : ProcBuilder) (base : Ty) (ptr int : ExprResult) : Prop where
  ptrType : ptr.type = .ptr base
  intPlain : int.IsPlain
  intType : int.type = .integer .u64
  index : ∀ a, ptr.kind = .memAddr a → a.scale ≠ 0 → ∃ i, a.indexReg = some i ∧ i < B.numRegs

/-- The address that the code of a sum leaves: the displacement has 32 bits, the scale 8. -/
def sumWord (add : Bool) (s : Word) (ptr int : ExprResult) (p v : Word) : Word :=
  match int.kind with
  | .imm _ => p - ptr.disp.signExtend 64 +
    ((moved add (ptr.disp.setWidth 64) s v).setWidth 32).signExtend 64
  | _ => moved add p ((s.setWidth 8).setWidth 64) v

variable {base : Ty} {left right : ExprResult}

theorem isScalar_ptr (h : er.type = .ptr base) : er.type.isScalar = true := by
  rw [h]
  rfl

/-- The index is added behind the pointer's own code. -/
theorem emitPtrIndexAdd_ok (ho : B.IsOpen b) (h : SumOperands B base ptr int)
    (hm : ptr.isMemPtr = true) (add : Bool) (s : Word) :
    ∃ a B', emitPtrIndexAdd b ptr int add s B = some (a, B') ∧
      Combines b B (readValue ptr) (readValue int)
        (fun p v => moved add p ((s.setWidth 8).setWidth 64) v) (readLoc a) B' := by
  obtain ⟨ptr', B₁, h₁, hc₁, hty, hm', hkind⟩ := loadOtherScale_ok ho ptr s
  obtain ⟨a, B₂, h₂, hc₂, -, hscale⟩ := ptrToMemExprResult_ok hc₁.straight.isOpen
    (hm'.trans hm) (isScalar_ptr (hty.trans h.ptrType))
  have hidx : a.scale = 0 ∨ a.scale.setWidth 64 = s ∧ ∃ i, a.indexReg = some i ∧ i < B₂.numRegs := by
    rcases hscale with hz | ⟨hk, rfl⟩
    · exact .inl hz
    · obtain ⟨hs, hk', rfl⟩ := hkind a hk
      by_cases hz : a.scale = 0
      · exact .inl hz
      · exact .inr ⟨hs.resolve_left hz, h.index a hk' hz⟩
  obtain ⟨a', B₃, h₃, hcomb⟩ := @addIndex_ok _ _ _ _ _ add hc₂.straight.isOpen
    h.intPlain h.intType hidx
  refine ⟨a', B₃, ?_, .convertFst hc₁ (.convertFst hc₂ hcomb)⟩
  rw [emitPtrIndexAdd, bind_run _ _ h₁, bind_run _ _ h₂]
  exact h₃

theorem emitPtrIntAdd_ok (ho : B.IsOpen b) (h : SumOperands B base ptr int)
    (hm : ptr.isMemPtr = true) (add : Bool) :
    ∃ dst B', emitPtrIntAdd b ptr int add B = some (dst, B') ∧
      Combines b B (readValue ptr) (readValue int)
        (sumWord add (BitVec.ofNat 64 base.size) ptr int) (readValue dst) B' := by
  have hindex := emitPtrIndexAdd_ok ho h hm add (BitVec.ofNat 64 base.size)
  obtain ⟨t, k⟩ := int
  cases k with
  | imm v =>
    obtain ⟨a, B', hrun, hc, hdisp, -⟩ := ptrToMemExprResult_ok ho hm (isScalar_ptr h.ptrType)
    refine ⟨⟨ptr.type, .memAddr (addDisp add (BitVec.ofNat 64 base.size) v a)⟩, B', ?_,
      .convertFst hc (.read hc.straight.isOpen fun env objs σ p w hp hw => ?_)⟩
    · simp only [emitPtrIntAdd, h.ptrType, ptrBaseSize]
      rw [bind_run _ _ hrun]
      rfl
    · obtain rfl : v = w := Option.some.inj hw
      change addrOf env objs σ.regs (addDisp add _ v a) = _
      rw [addDisp, addrOf_disp _ hp, hdisp]
      rfl
  | none => exact absurd rfl h.intPlain.2.1
  | deferredCmp c => exact absurd rfl (h.intPlain.2.2 c)
  | _ =>
    obtain ⟨a, B', hrun, hcomb⟩ := hindex
    refine ⟨⟨ptr.type, .memAddr a⟩, B', ?_, hcomb⟩
    simp only [emitPtrIntAdd, h.ptrType, ptrBaseSize]
    rw [bind_run _ _ hrun]
    rfl

/-- A pointer of another kind, an immediate among them, fails the assertion. -/
theorem emitPtrIntAdd_none (h : SumOperands B base ptr int) (hm : ptr.isMemPtr = false)
    (ho : B.IsOpen b) (add : Bool) : emitPtrIntAdd b ptr int add B = none := by
  have hindex : emitPtrIndexAdd b ptr int add (BitVec.ofNat 64 base.size) B = none := by
    obtain ⟨ptr', B₁, h₁, -, -, hm', -⟩ := loadOtherScale_ok ho ptr (BitVec.ofNat 64 base.size)
    rw [emitPtrIndexAdd, bind_run _ _ h₁]
    simp only [bind, StateT.bind, ptrToMemExprResult_none (hm'.trans hm), Option.bind]
  obtain ⟨t, k⟩ := int
  cases k with
  | imm v =>
    simp only [emitPtrIntAdd, h.ptrType, ptrBaseSize, bind, StateT.bind,
      ptrToMemExprResult_none hm, Option.bind]
  | _ =>
    simp only [emitPtrIntAdd, h.ptrType, ptrBaseSize, bind, StateT.bind, hindex, Option.bind]

theorem shiftDiff_ok {k : Nat} (ho : B.IsOpen b) (hk : k < 64) (r : Reg) :
    ∃ r' B', shiftDiff b k r B = some (r', B') ∧
      Converts b B (fun env objs σ => (readReg r env objs σ).map (·.sshiftRight k))
        (readReg r') B' := by
  unfold shiftDiff
  by_cases hpos : k > 0
  · rw [if_pos hpos]
    refine emitDef_ok ho (fun _ => rfl) fun env objs σ r' => exec_intBinary rfl rfl ?_
    have hmod : (BitVec.ofNat 64 k).toNat % 64 = k := by
      rw [BitVec.toNat_ofNat]
      omega
    simp only [IntBinOp.eval, if_true, hmod]
  · obtain rfl : k = 0 := by omega
    refine ⟨r, B, rfl, .refl ho fun env objs σ => ?_⟩
    simp only [readReg, Option.map_some, BitVec.sshiftRight_zero]

theorem emitSub_ok {x y : OpRIA} (ho : B.IsOpen b) :
    ∃ r B', emitDef b (.intBinary .sub (.integer .s64) · x y) B = some (r, B') ∧
      Converts b B (fun env objs σ => (x.read env objs σ 8).bind fun p =>
        (y.read env objs σ 8).map (p - ·)) (readReg r) B' :=
  emitDef_ok ho (fun _ => rfl) fun env objs σ r => by
    cases hp : x.read env objs σ 8 with
    | none =>
      simp only [execInstr, show (Ty.integer .s64).size = 8 from rfl, hp]
      rfl
    | some p =>
      cases hq : y.read env objs σ 8 with
      | none =>
        simp only [execInstr, show (Ty.integer .s64).size = 8 from rfl, hp, hq]
        rfl
      | some q => exact exec_intBinary hp hq rfl

theorem emitPtrDiff_ok {k : Nat} (ho : B.IsOpen b) (hl : left.IsPlain) (hr : right.IsPlain)
    (hlt : left.type = .ptr base) (hrt : right.type = .ptr base)
    (hk : clp2 (BitVec.ofNat 64 base.size) = some k) (hk64 : k < 64) :
    ∃ dst B', emitPtrDiff b left right B = some (dst, B') ∧
      Combines b B (readValue left) (readValue right) (fun p q => (p - q).sshiftRight k)
        (readValue dst) B' := by
  obtain ⟨x, B₁, hx, hcx⟩ := valueToOpRIA_ok ho hl
  obtain ⟨y, B₂, hy, hcy⟩ := valueToOpRIA_ok hcx.straight.isOpen hr
  obtain ⟨r, B₃, hsub, hcsub⟩ := emitSub_ok hcy.straight.isOpen
  obtain ⟨r', B₄, hshift, hcshift⟩ := shiftDiff_ok hcsub.straight.isOpen hk64 r
  refine ⟨⟨.integer .s64, .reg r'⟩, B₄, ?_, .convertFst hcx (.convertSnd hcy ?_)⟩
  · simp only [emitPtrDiff, hlt, ptrBaseSize, Option.bind_some, hk]
    rw [bind_run _ _ hx, bind_run _ _ hy, bind_run _ _ hsub, bind_run _ _ hshift]
    rfl
  · have hdiff : Combines b B₂ (fun env objs σ => x.read env objs σ left.type.size)
        (fun env objs σ => y.read env objs σ right.type.size) (· - ·) (readReg r) B₃ := by
      refine .convert (.read hcy.straight.isOpen fun env objs σ p q hp hq => ?_) hcsub
      rw [hlt] at hp
      rw [hrt] at hq
      simp only [show x.read env objs σ 8 = some p from hp,
        show y.read env objs σ 8 = some q from hq, Option.bind_some, Option.map_some]
    exact hdiff.map.convert hcshift

end Nibble.IR
