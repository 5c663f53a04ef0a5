import Nibble.IR.CondDefect

/-!
# When the code of a condition is right

`IR_process_cfg_cond` succeeds and is right for exactly those expressions in
which no operator has to remove a pending jump behind the first one. The
smallest expressions that fail have four boolean values, for instance
`(a || b || c) && d`.
-/

namespace Nibble.IR

open Nibble.Lib

variable {B B' : ProcBuilder} {F : List Nat} {e : BExpr} {fuel hdr t : Nat} {sense : Bool}

/-! ## Variables -/

/-- A boolean variable. Its emission (`IR_emit_expr_ident`) leaves the load for later. -/
def Leaf.var (s : SymId) : Leaf where
  emit b := pure (b, ⟨boolTy, .var s⟩)
  sem env st := (st, lowBytes 1 (loadN st.mem (env.symAddr s) 1))
  plain b B b' er B' h := by
    cases h
    exact ⟨⟨rfl, by simp, by simp⟩, rfl⟩
  ok b B F ha ho := by
    refine ⟨b, _, B, F, rfl, .refl ha, .refl ho fun _ h => h, fun env σ => ?_⟩
    refine ⟨σ, .refl, .refl _ _, _, fun objs σ' _ h => ?_, rfl⟩
    rw [readValue, ExprResult.value, h.store]
    rfl
  keeps b B b' er B' Q J A h hl := by
    cases h
    exact hl

/-- A condition of boolean variables. -/
def BExpr.var (s : SymId) : BExpr := .leaf (.var s)

/-- Two variables of type `s32` as the sides of a comparison. -/
def Operands.s32Vars (x y : SymId) : Operands where
  type := .integer .s32
  scalar := .inl rfl
  emit b := pure (b, ⟨.integer .s32, .var x⟩, ⟨.integer .s32, .var y⟩)
  sem env st := (st, loadN st.mem (env.symAddr x) 4, loadN st.mem (env.symAddr y) 4)
  plain b B b' x y B' h := by
    cases h
    exact ⟨⟨⟨rfl, by simp, by simp⟩, rfl⟩, ⟨rfl, by simp, by simp⟩, rfl⟩
  ok b B F ha ho := by
    refine ⟨b, _, _, B, F, rfl, .refl ha, .refl ho fun _ h => h, fun env σ => ?_⟩
    refine ⟨σ, .refl, .refl _ _, fun objs σ' _ h => ?_, fun objs σ' _ h => ?_⟩ <;>
      · rw [readValue, ExprResult.value, h.store]
        rfl
  keeps b B b' er B' Q J A h hl := by
    cases h
    exact hl

/-- A procedure that has just two blocks. -/
def twoBlocks : ProcBuilder :=
  ⟨[], [⟨[], [], false, false⟩, ⟨[], [], false, false⟩], [], 0, [], none, []⟩

theorem arena_twoBlocks : Arena twoBlocks [] := ⟨rfl, .nil, by simp, by simp⟩

theorem isOpen_twoBlocks : twoBlocks.IsOpen 0 := ⟨_, rfl, rfl⟩

/-! ## Conditions of control flow -/

/-- With enough fuel `IR_process_cfg_cond` succeeds, and its code does what the condition says. -/
def CfgCondCorrect (e : BExpr) (B : ProcBuilder) (hdr : BBlockId) (sense : Bool) (t : BBlockId) :
    Prop :=
  ∃ n, ∀ fuel, n ≤ fuel → ∃ b' B',
    processCfgCond fuel (emitBExpr fuel e) hdr sense t B = some (b', B') ∧
    CondCorrect e B hdr sense t b' B'

theorem cfgCondCorrect (hgood : e.removesFirstOnly = true) (ha : Arena B F) (ho : B.IsOpen hdr)
    (ht : t < B.bblocks.length) : CfgCondCorrect e B hdr sense t := by
  refine ⟨e.size, fun fuel hf => ?_⟩
  obtain ⟨b', B', F', hrun, -, -, -, hc⟩ := processCfgCond_ok hgood hf ha ho ht
  exact ⟨b', B', hrun, hc⟩

/-- A lost jump has been left without a target. -/
theorem LostJmp.not_patchedOnce {J : Nat} {A : Nat → Prop} (h : LostJmp B.patched J A none B')
    (hJ : B.instrs.length ≤ J) : ¬ PatchedOnce B B' := by
  intro hp
  obtain ⟨s, f, a, hx⟩ := h.jump
  obtain ⟨l, hl, hn⟩ := h.unpatched
  have hcount := hp J s none f a hJ hx
  rw [hl, List.drop_left, List.count_eq_zero_of_not_mem hn] at hcount
  cases hcount

theorem not_cfgCondCorrect (hbad : e.removesFirstOnly = false) (ha : Arena B F) (ho : B.IsOpen hdr) :
    ¬ CfgCondCorrect e B hdr sense t := by
  rintro ⟨n, h⟩
  obtain ⟨b', B', hrun, hc⟩ := h (max n e.size) (Nat.le_max_left _ _)
  obtain ⟨⟨b₁, er⟩, B₁, hemit, -⟩ := bind_eq_some hrun
  obtain ⟨J, A, hJ, hlost, hs, -⟩ :=
    emitBExpr_loses e hbad (Nat.le_max_right _ _) (.empty F B) ha ho hemit
  have hE : Triple (· = B) (emitBExpr (max n e.size) e hdr)
      fun p C => p.2.Safe J A ∧ LostJmp B.patched J A none C := by
    rintro _ p C rfl hp
    cases hemit.symm.trans hp
    exact ⟨hs, hlost⟩
  exact (processCfgCond_lost hE B _ _ rfl hrun).2.not_patchedOnce hJ hc.patched

end Nibble.IR
