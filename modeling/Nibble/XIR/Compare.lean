import Nibble.XIR.Const

/-!
# Comparisons and their consumers

The conversions of `ir_to_xir.c` that end in a comparison and an instruction
that reads the flags: those of integer and float comparisons, with the
conditional jump that follows combined or with `setcc`, and that of a
conditional jump on a register.
-/

namespace Nibble.XIR

open Nibble.IR hiding Instr
open Nibble.X64 (Size AluOp)

/-- The instructions that compare. -/
def Instr.isCompare : Instr → Bool
  | arithRR (.alu .cmp) _ _ _ | arithRM (.alu .cmp) _ _ _ | arithRI (.alu .cmp) _ _ _
  | cmpMR _ _ _ | cmpMI _ _ _ | ucomisRR _ _ _ | ucomisRM _ _ _ => true
  | _ => false

/-- The instructions that read the flags. -/
def Instr.readsFlags : Instr → Bool
  | jmpcc _ _ _ | setcc _ _ => true
  | _ => false

/-- `flt_cond_map`. -/
def fltCondMap : ConditionKind → ConditionKind
  | .uLt | .sLt => .uLt
  | .uLtEq | .sLtEq => .uLtEq
  | .uGt | .sGt => .uGt
  | .uGtEq | .sGtEq => .uGtEq
  | .eq => .eq
  | .neq => .neq

namespace Regs

variable (ρ : Regs)

/-- `XIR_convert_flt_cmp_instr` up to the comparison. -/
def fltCompare (kind : FloatKind) (a : Reg) : OpRA → List Instr
  | .addr b => ρ.addrCode b ++ [.ucomisRM kind (ρ.reg a) (ρ.addr b).2]
  | .reg b => [.ucomisRR kind (ρ.reg a) (ρ.reg b)]

/-- `XIR_convert_flt_cmp_instr`. A conditional jump on the result is combined with it. -/
def convertFltCmp (kind : FloatKind) (cond : ConditionKind) (r a : Reg) (b : OpRA)
    (next : Option IR.Instr) : List Instr :=
  match next with
  | some (.condJmp _ trueBb falseBb a') =>
    if a' = r then ρ.fltCompare kind a b ++ [.jmpcc (fltCondMap cond) trueBb falseBb]
    else ρ.fltCompare kind a b ++ [.setcc (fltCondMap cond) (ρ.reg r)]
  | _ => ρ.fltCompare kind a b ++ [.setcc (fltCondMap cond) (ρ.reg r)]

/-- `XIR_convert_cond_jmp_instr`. -/
def convertCondJmp (trueBb : Option BBlockId) (falseBb : BBlockId) (a : Reg) : List Instr :=
  [.arithRI (.alu .cmp) .b1 (ρ.reg a) 0, .jmpcc .neq trueBb falseBb]

end Regs

/-- A comparison and its consumer, next to each other at the end of the code. -/
def EndsInCompare (code : List Instr) : Prop :=
  ∃ pre i j, code = pre ++ [i, j] ∧ i.isCompare = true ∧ j.readsFlags = true

theorem endsInCompare_append {code pre : List Instr} {i j : Instr} (h : code = pre ++ [i])
    (hi : i.isCompare = true) (hj : j.readsFlags = true) : EndsInCompare (code ++ [j]) :=
  ⟨pre, i, j, by rw [h, List.append_assoc]; rfl, hi, hj⟩

namespace Regs

variable {ρ : Regs}

theorem arithOperand_cmp (size : Size) (r : XReg) (b : OpRIA) :
    ∃ pre i, ρ.arithOperand (.alu .cmp) size r b = pre ++ [i] ∧ i.isCompare = true := by
  cases b with
  | imm c =>
    simp only [arithOperand]
    split
    · exact ⟨[], _, rfl, rfl⟩
    · exact ⟨[.movRI size ρ.next c], _, rfl, rfl⟩
  | reg b => exact ⟨[], _, rfl, rfl⟩
  | addr a => exact ⟨ρ.addrCode a, _, rfl, rfl⟩

theorem cmpMemOperand_cmp (size : Size) (a : XMemAddr) (b : OpRIA) :
    ∃ pre i, ρ.cmpMemOperand size a b = pre ++ [i] ∧ i.isCompare = true := by
  cases b with
  | imm c =>
    simp only [cmpMemOperand]
    split
    · exact ⟨[], _, rfl, rfl⟩
    · exact ⟨[.movRI size ρ.next c], _, rfl, rfl⟩
  | reg b => exact ⟨[], _, rfl, rfl⟩
  | addr b =>
    refine ⟨ρ.addrCode b ++ [.movRM size ρ.next (ρ.addr b).2], .cmpMR size a ρ.next, ?_, rfl⟩
    rw [cmpMemOperand, List.append_assoc]
    rfl

theorem compare_cmp {size : Size} {a b : OpRIA} {code : List Instr}
    (h : ρ.compare size a b = some code) :
    ∃ pre i, code = pre ++ [i] ∧ i.isCompare = true := by
  unfold compare at h
  split at h <;> cases h
  · exact ⟨[.movRI size ρ.next _], _, rfl, rfl⟩
  · exact ⟨.movRI size ρ.next _ :: ρ.addrCode _, _, rfl, rfl⟩
  · exact arithOperand_cmp size _ _
  · obtain ⟨pre, i, he, hi⟩ := @cmpMemOperand_cmp ρ size (ρ.addr _).2 _
    exact ⟨ρ.addrCode _ ++ pre, i, by rw [he, List.append_assoc], hi⟩

theorem endsInCompare_intCmp {size : Size} {cond : ConditionKind} {r : Reg} {a b : OpRIA}
    {next : Option IR.Instr} {code : List Instr}
    (h : ρ.convertIntCmp size cond r a b next = some code) : EndsInCompare code := by
  obtain ⟨compare, hc, h⟩ := Option.bind_eq_some_iff.mp h
  obtain ⟨pre, i, hpre, hi⟩ := compare_cmp hc
  split at h
  · split at h <;> cases h <;> exact endsInCompare_append hpre hi rfl
  · cases h
    exact endsInCompare_append hpre hi rfl

theorem fltCompare_cmp (kind : FloatKind) (a : Reg) (b : OpRA) :
    ∃ pre i, ρ.fltCompare kind a b = pre ++ [i] ∧ i.isCompare = true := by
  cases b with
  | addr b => exact ⟨ρ.addrCode b, _, rfl, rfl⟩
  | reg b => exact ⟨[], _, rfl, rfl⟩

theorem endsInCompare_fltCmp (kind : FloatKind) (cond : ConditionKind) (r a : Reg) (b : OpRA)
    (next : Option IR.Instr) : EndsInCompare (ρ.convertFltCmp kind cond r a b next) := by
  obtain ⟨pre, i, hpre, hi⟩ := @fltCompare_cmp ρ kind a b
  unfold convertFltCmp
  split
  · split <;> exact endsInCompare_append hpre hi rfl
  · exact endsInCompare_append hpre hi rfl

theorem endsInCompare_condJmp (trueBb : Option BBlockId) (falseBb : BBlockId) (a : Reg) :
    EndsInCompare (ρ.convertCondJmp trueBb falseBb a) := ⟨[], _, _, rfl, rfl, rfl⟩

end Regs

end Nibble.XIR
