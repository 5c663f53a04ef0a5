import Mathlib.Data.List.Infix
import Nibble.IR.ExprResult

/-!
# What emission leaves alone

Every primitive of the builder as a function on builders (`push`, `alloc`,
`connect`, `setTarget`), and two relations between builders. `Emits B B'`: code
was added and nothing that was there changed. `Future M B B'`: a later builder,
in which the instructions of `M` may since have been patched or had their
condition inverted. Runs are stated in futures, because the jumps of a condition
are patched after the code around them has been emitted.
-/

namespace Nibble.IR

/-! ## The primitives as functions -/

namespace ProcBuilder

def blockInstrs (B : ProcBuilder) (b : BBlockId) : List InstrId :=
  match B.bblocks[b]? with
  | some bb => bb.instrs
  | none => []

/-- Where the next instruction of `b` goes. -/
def endPos (B : ProcBuilder) (b : BBlockId) : Nat := (B.blockInstrs b).length

def IsOpen (B : ProcBuilder) (b : BBlockId) : Prop := ∃ bb, B.bblocks[b]? = some bb ∧ bb.closed = false

def push (B : ProcBuilder) (b : BBlockId) (i : Instr) : ProcBuilder :=
  { B with
    instrs := B.instrs ++ [i]
    bblocks := B.bblocks.modify b (·.addInstr B.instrs.length i) }

def alloc (B : ProcBuilder) : ProcBuilder :=
  { B with bblocks := B.bblocks ++ [⟨[], [], false, false⟩] }

def connect (B : ProcBuilder) (pred succ : BBlockId) : ProcBuilder :=
  { B with bblocks := B.bblocks.modify succ fun bb => { bb with preds := bb.preds ++ [pred] } }

/-- Fill in the target of jump `j`, which is in block `src`. -/
def setTarget (B : ProcBuilder) (j : InstrId) (i : Instr) (src target : BBlockId) : ProcBuilder :=
  { B with instrs := B.instrs.set j i, patched := B.patched ++ [j] }.connect src target

variable {B : ProcBuilder} {b k p s : Nat} {i : Instr}

theorem IsOpen.lt (h : B.IsOpen b) : b < B.bblocks.length := by
  obtain ⟨bb, hb, -⟩ := h
  exact (List.getElem?_eq_some_iff.mp hb).1

@[simp] theorem push_instrs : (B.push b i).instrs = B.instrs ++ [i] := rfl
@[simp] theorem push_memObjs : (B.push b i).memObjs = B.memObjs := rfl
@[simp] theorem push_numRegs : (B.push b i).numRegs = B.numRegs := rfl
@[simp] theorem push_scJmps : (B.push b i).scJmps = B.scJmps := rfl
@[simp] theorem push_scJmpFreelist : (B.push b i).scJmpFreelist = B.scJmpFreelist := rfl
@[simp] theorem push_patched : (B.push b i).patched = B.patched := rfl
@[simp] theorem push_length : (B.push b i).bblocks.length = B.bblocks.length := by simp [push]

theorem blockInstrs_push_self (h : b < B.bblocks.length) :
    (B.push b i).blockInstrs b = B.blockInstrs b ++ [B.instrs.length] := by
  simp [blockInstrs, push, BBlock.addInstr, h]

theorem blockInstrs_push_other (h : k ≠ b) : (B.push b i).blockInstrs k = B.blockInstrs k := by
  simp [blockInstrs, push, Ne.symm h]

theorem isOpen_push_self (h : b < B.bblocks.length) (hi : i.closes = false) :
    (B.push b i).IsOpen b := by
  refine ⟨(B.bblocks[b]).addInstr B.instrs.length i, ?_, hi⟩
  simp [push, h]

theorem isOpen_push_other (h : k ≠ b) : (B.push b i).IsOpen k ↔ B.IsOpen k := by
  simp [IsOpen, push, Ne.symm h]

@[simp] theorem alloc_instrs : B.alloc.instrs = B.instrs := rfl
@[simp] theorem alloc_memObjs : B.alloc.memObjs = B.memObjs := rfl
@[simp] theorem alloc_numRegs : B.alloc.numRegs = B.numRegs := rfl
@[simp] theorem alloc_scJmps : B.alloc.scJmps = B.scJmps := rfl
@[simp] theorem alloc_scJmpFreelist : B.alloc.scJmpFreelist = B.scJmpFreelist := rfl
@[simp] theorem alloc_patched : B.alloc.patched = B.patched := rfl
@[simp] theorem alloc_length : B.alloc.bblocks.length = B.bblocks.length + 1 := by simp [alloc]

@[simp] theorem blockInstrs_alloc : B.alloc.blockInstrs k = B.blockInstrs k := by
  unfold blockInstrs alloc
  rcases Nat.lt_trichotomy k B.bblocks.length with h | h | h
  · simp [List.getElem?_append_left h]
  · subst h; simp
  · rw [List.getElem?_eq_none (by simp; omega), List.getElem?_eq_none (by omega)]

theorem blockInstrs_of_le (h : B.bblocks.length ≤ k) : B.blockInstrs k = [] := by
  simp [blockInstrs, List.getElem?_eq_none h]

theorem isOpen_alloc_new : B.alloc.IsOpen B.bblocks.length := ⟨_, by simp [alloc]; rfl, rfl⟩

theorem isOpen_alloc (h : B.IsOpen k) : B.alloc.IsOpen k := by
  obtain ⟨bb, hb, hc⟩ := h
  exact ⟨bb, by simp [alloc, List.getElem?_append_left (List.getElem?_eq_some_iff.mp hb).1, hb], hc⟩

@[simp] theorem connect_instrs : (B.connect p s).instrs = B.instrs := rfl
@[simp] theorem connect_memObjs : (B.connect p s).memObjs = B.memObjs := rfl
@[simp] theorem connect_numRegs : (B.connect p s).numRegs = B.numRegs := rfl
@[simp] theorem connect_scJmps : (B.connect p s).scJmps = B.scJmps := rfl
@[simp] theorem connect_scJmpFreelist : (B.connect p s).scJmpFreelist = B.scJmpFreelist := rfl
@[simp] theorem connect_patched : (B.connect p s).patched = B.patched := rfl
@[simp] theorem connect_length : (B.connect p s).bblocks.length = B.bblocks.length := by
  simp [connect]

@[simp] theorem blockInstrs_connect : (B.connect p s).blockInstrs k = B.blockInstrs k := by
  unfold blockInstrs connect
  by_cases h : s = k
  · subst h
    cases hb : B.bblocks[s]? <;> simp [hb]
  · simp [h]

@[simp] theorem isOpen_connect : (B.connect p s).IsOpen k ↔ B.IsOpen k := by
  unfold IsOpen connect
  by_cases h : s = k
  · subst h
    cases hb : B.bblocks[s]? <;> simp [hb]
  · simp [h]

variable {j : Nat}

@[simp] theorem setTarget_instrs : (B.setTarget j i p s).instrs = B.instrs.set j i := rfl
@[simp] theorem setTarget_memObjs : (B.setTarget j i p s).memObjs = B.memObjs := rfl
@[simp] theorem setTarget_numRegs : (B.setTarget j i p s).numRegs = B.numRegs := rfl
@[simp] theorem setTarget_scJmps : (B.setTarget j i p s).scJmps = B.scJmps := rfl
@[simp] theorem setTarget_scJmpFreelist :
    (B.setTarget j i p s).scJmpFreelist = B.scJmpFreelist := rfl
@[simp] theorem setTarget_patched : (B.setTarget j i p s).patched = B.patched ++ [j] := rfl
@[simp] theorem setTarget_length : (B.setTarget j i p s).bblocks.length = B.bblocks.length := by
  simp [setTarget]

@[simp] theorem blockInstrs_setTarget :
    (B.setTarget j i p s).blockInstrs k = B.blockInstrs k := by
  rw [setTarget, blockInstrs_connect]; rfl

@[simp] theorem isOpen_setTarget : (B.setTarget j i p s).IsOpen k ↔ B.IsOpen k := by
  rw [setTarget, isOpen_connect]; rfl

end ProcBuilder

section Primitives

variable {B : ProcBuilder} {b p s t : Nat} {i : Instr} {j : Nat} {r : Reg}

open ProcBuilder

theorem addInstr_eq (h : B.IsOpen b) : addInstr b i B = some (B.instrs.length, B.push b i) := by
  obtain ⟨bb, hb, hc⟩ := h
  simp only [addInstr, hb, hc, Bool.false_eq_true, if_false, push, Option.some.injEq,
    Prod.mk.injEq, true_and, ProcBuilder.mk.injEq, and_true]
  rw [List.modify_eq_set_getElem?, hb]
  rfl

theorem connectBBlocks_eq (h : s < B.bblocks.length) :
    connectBBlocks p s B = some ((), B.connect p s) := by
  simp only [connectBBlocks, List.getElem?_eq_getElem h, connect, Option.some.injEq,
    Prod.mk.injEq, true_and, ProcBuilder.mk.injEq, and_true]
  rw [List.modify_eq_set_getElem?, List.getElem?_eq_getElem h]
  rfl

theorem patchJmpTarget_condJmp {src f : BBlockId} {t0 : Option BBlockId}
    (hj : B.instrs[j]? = some (.condJmp src t0 f r)) (ht : t < B.bblocks.length) :
    patchJmpTarget j t B = some ((), B.setTarget j (.condJmp src (some t) f r) src t) := by
  simp only [patchJmpTarget, bind, StateT.bind, get, getThe, MonadStateOf.get, StateT.get, pure,
    Option.bind, hj, setInstr, notePatched]
  rw [connectBBlocks_eq (by simpa using ht)]
  rfl

theorem emitInstrCondJmp_none (h : B.IsOpen b) (hf : t < B.bblocks.length) :
    emitInstrCondJmp b none t r B =
      some (B.instrs.length, (B.push b (.condJmp b none t r)).connect b t) := by
  simp only [emitInstrCondJmp, bind, StateT.bind, addInstr_eq h, Option.bind, pure, statePure_run]
  rw [connectBBlocks_eq (by simpa using hf)]

end Primitives

/-! ## Emitted code and later builders -/

/-- `B'` is `B` with code emitted into block `b` and into new blocks. -/
structure Emits (b : BBlockId) (B B' : ProcBuilder) : Prop where
  instrs : B.instrs <+: B'.instrs
  memObjs : B.memObjs <+: B'.memObjs
  numRegs : B.numRegs ≤ B'.numRegs
  length : B.bblocks.length ≤ B'.bblocks.length
  cur : B.blockInstrs b <+: B'.blockInstrs b
  other : ∀ k : Nat, k < B.bblocks.length → k ≠ b → B'.blockInstrs k = B.blockInstrs k
  isOpen : ∀ k : Nat, k < B.bblocks.length → k ≠ b → B.IsOpen k → B'.IsOpen k

/-- The ways an instruction changes after it has been emitted. -/
inductive Instr.Later : Instr → Instr → Prop where
  | refl (i : Instr) : Later i i
  | flip (i : Instr) : Later i i.flipCond
  | patch (src f : BBlockId) (a : Reg) (t : BBlockId) :
      Later (.condJmp src none f a) (.condJmp src (some t) f a)

/-- `B'` is a later builder than `B` in which, of the instructions of `B`, only those of `M` have
changed. -/
structure Future (M : InstrId → Prop) (B B' : ProcBuilder) : Prop where
  instrs : ∀ i x, B.instrs[i]? = some x →
    ∃ y, B'.instrs[i]? = some y ∧ (y = x ∨ M i ∧ x.Later y)
  memObjs : B.memObjs <+: B'.memObjs
  blocks : ∀ k, B.blockInstrs k <+: B'.blockInstrs k

namespace Instr

theorem Later.trans {x y z : Instr} (h : x.Later y) (h' : y.Later z) : x.Later z := by
  cases h with
  | refl => exact h'
  | flip =>
    cases x with
    | condJmp => exact h'
    | intCmp =>
      cases h' with
      | refl => exact .flip _
      | flip => simp only [flipCond, oppositeCond_oppositeCond]; exact .refl _
    | fltCmp =>
      cases h' with
      | refl => exact .flip _
      | flip => simp only [flipCond, oppositeCond_oppositeCond]; exact .refl _
    | _ => exact h'
  | patch s f a t =>
    cases h' with
    | refl => exact .patch s f a t
    | flip => exact .patch s f a t

end Instr

namespace Emits

variable {b b' : Nat} {B B' B'' : ProcBuilder}

theorem refl (b : BBlockId) (B : ProcBuilder) : Emits b B B :=
  ⟨List.prefix_refl _, List.prefix_refl _, Nat.le_refl _, Nat.le_refl _, List.prefix_refl _,
    fun _ _ _ => rfl, fun _ _ _ h => h⟩

/-- Emission goes on in the same block or in one that the first part created. -/
theorem trans (h : Emits b B B') (h' : Emits b' B' B'') (hb : b' = b ∨ B.bblocks.length ≤ b') :
    Emits b B B'' := by
  have hne : ∀ k : Nat, k < B.bblocks.length → k ≠ b → k ≠ b' := by
    intro k hk hkb e
    rcases hb with rfl | hb
    · exact hkb e
    · omega
  refine ⟨h.instrs.trans h'.instrs, h.memObjs.trans h'.memObjs, h.numRegs.trans h'.numRegs,
    h.length.trans h'.length, ?_, fun k hk hkb => ?_, fun k hk hkb ho => ?_⟩
  · by_cases e : b' = b
    · subst e; exact h.cur.trans h'.cur
    · by_cases hlt : b < B'.bblocks.length
      · rw [h'.other b hlt (Ne.symm e)]; exact h.cur
      · rw [ProcBuilder.blockInstrs_of_le (B := B) (by have := h.length; omega)]
        exact List.nil_prefix
  · rw [h'.other k (hk.trans_le h.length) (hne k hk hkb), h.other k hk hkb]
  · exact h'.isOpen k (hk.trans_le h.length) (hne k hk hkb) (h.isOpen k hk hkb ho)

theorem blocks (h : Emits b B B') (k : Nat) : B.blockInstrs k <+: B'.blockInstrs k := by
  by_cases e : k = b
  · subst e; exact h.cur
  · by_cases hk : k < B.bblocks.length
    · rw [h.other k hk e]
    · rw [ProcBuilder.blockInstrs_of_le (B := B) (by omega)]
      exact List.nil_prefix

theorem getElem? (h : Emits b B B') {i : InstrId} {x : Instr} (hx : B.instrs[i]? = some x) :
    B'.instrs[i]? = some x := by
  obtain ⟨t, ht⟩ := h.instrs
  rw [← ht, List.getElem?_append_left (List.getElem?_eq_some_iff.mp hx).1, hx]

theorem future (h : Emits b B B') : Future (fun _ => False) B B' :=
  ⟨fun _ x hx => ⟨x, h.getElem? hx, .inl rfl⟩, h.memObjs, h.blocks⟩

theorem push {i : Instr} (hb : b < B.bblocks.length) : Emits b B (B.push b i) :=
  ⟨List.prefix_append _ _, List.prefix_refl _, Nat.le_refl _, by simp,
    by rw [ProcBuilder.blockInstrs_push_self hb]; exact List.prefix_append _ _,
    fun _ _ hk => ProcBuilder.blockInstrs_push_other hk,
    fun _ _ hk => (ProcBuilder.isOpen_push_other hk).mpr⟩

theorem alloc (b : BBlockId) (B : ProcBuilder) : Emits b B B.alloc :=
  ⟨List.prefix_refl _, List.prefix_refl _, Nat.le_refl _, by simp, by simp,
    fun _ _ _ => by simp, fun _ _ _ => ProcBuilder.isOpen_alloc⟩

theorem connect (b p s : BBlockId) (B : ProcBuilder) : Emits b B (B.connect p s) :=
  ⟨List.prefix_refl _, List.prefix_refl _, Nat.le_refl _, by simp, by simp,
    fun _ _ _ => by simp, fun _ _ _ => by simp⟩

end Emits

namespace Future

variable {M M' : InstrId → Prop} {B B' B'' : ProcBuilder}

theorem refl (B : ProcBuilder) : Future M B B :=
  ⟨fun _ x hx => ⟨x, hx, .inl rfl⟩, List.prefix_refl _, fun _ => List.prefix_refl _⟩

/-- Only the instructions of the earlier builder count. -/
theorem mono (h : Future M B B') (hM : ∀ i, i < B.instrs.length → M i → M' i) : Future M' B B' := by
  refine ⟨fun i x hx => ?_, h.memObjs, h.blocks⟩
  obtain ⟨y, hy, e | ⟨hm, hl⟩⟩ := h.instrs i x hx
  · exact ⟨y, hy, .inl e⟩
  · exact ⟨y, hy, .inr ⟨hM i (List.getElem?_eq_some_iff.mp hx).1 hm, hl⟩⟩

theorem trans (h : Future M B B') (h' : Future M B' B'') : Future M B B'' := by
  refine ⟨fun i x hx => ?_, h.memObjs.trans h'.memObjs, fun k => (h.blocks k).trans (h'.blocks k)⟩
  obtain ⟨y, hy, e⟩ := h.instrs i x hx
  obtain ⟨z, hz, e'⟩ := h'.instrs i y hy
  refine ⟨z, hz, ?_⟩
  rcases e with rfl | ⟨hm, hl⟩
  · exact e'
  · rcases e' with rfl | ⟨-, hl'⟩
    · exact .inr ⟨hm, hl⟩
    · exact .inr ⟨hm, hl.trans hl'⟩

/-- An instruction that may not change is the same later. -/
theorem fixed (h : Future M B B') {i : InstrId} {x : Instr} (hx : B.instrs[i]? = some x)
    (hi : ¬ M i) : B'.instrs[i]? = some x := by
  obtain ⟨y, hy, rfl | ⟨hm, -⟩⟩ := h.instrs i x hx
  · exact hy
  · exact absurd hm hi

theorem length (h : Future M B B') : B.instrs.length ≤ B'.instrs.length := by
  rcases Nat.eq_zero_or_pos B.instrs.length with e | hp
  · omega
  · obtain ⟨y, hy, -⟩ := h.instrs (B.instrs.length - 1) _
      (List.getElem?_eq_getElem (by omega))
    have := (List.getElem?_eq_some_iff.mp hy).1
    omega

theorem memObj (h : Future M B B') {o : MemObjId} {x : MemObj} (hx : B.memObjs[o]? = some x) :
    B'.memObjs[o]? = some x := by
  obtain ⟨t, ht⟩ := h.memObjs
  rw [← ht, List.getElem?_append_left (List.getElem?_eq_some_iff.mp hx).1, hx]

/-- The instruction emitted at a position is there later, as it has become. -/
theorem instrAt (h : Future M B B') {k : BBlockId} {pos : Nat} {id : InstrId} {y : Instr}
    (hb : (B.blockInstrs k)[pos]? = some id) (hy : B'.instrs[id]? = some y) :
    B'.instrAt k pos = some (id, y) := by
  obtain ⟨t, ht⟩ := h.blocks k
  have hpos : (B'.blockInstrs k)[pos]? = some id := by
    rw [← ht, List.getElem?_append_left (List.getElem?_eq_some_iff.mp hb).1, hb]
  unfold ProcBuilder.blockInstrs at hpos
  unfold ProcBuilder.instrAt
  cases hk : B'.bblocks[k]? with
  | none => rw [hk] at hpos; cases hpos
  | some bb =>
    rw [hk] at hpos
    simp [hpos, hy]

end Future

end Nibble.IR
