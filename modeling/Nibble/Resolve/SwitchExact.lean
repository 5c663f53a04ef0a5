import Nibble.Lib.Intervals
import Nibble.Resolve.Switch

/-!
# Which case a switch selects

The values of the cases at the type of the switch, and what the resolver and the
emission of a constant switch do with them. A repeated value is always found. A
constant picks its own case, unless there is no case to search or the 64-bit view of the
constant lies in other cases than its value.
-/

namespace Nibble.Resolve

open Nibble.Lib

/-! ## The scan and the search -/

section

variable {isSigned : Bool} {infos : Array CaseInfo}

/-- The key of the end of a case. -/
def CaseInfo.stopKey (isSigned : Bool) (c : CaseInfo) : Int := c.stop.view isSigned

/-- A case that does not end before it starts. -/
def CaseInfo.Proper (isSigned : Bool) (c : CaseInfo) : Prop := c.key isSigned ≤ c.stopKey isSigned

/-- The scan finds a case unless each one ends before the next ones begin. -/
theorem repeatedCase_eq_none_iff {prev : CaseInfo} {rest : List CaseInfo}
    (hproper : ∀ c ∈ prev :: rest, c.Proper isSigned) :
    repeatedCase isSigned prev rest = none ↔
      (prev :: rest).Pairwise fun a b => a.stopKey isSigned < b.key isSigned := by
  induction rest generalizing prev with
  | nil => simp [repeatedCase]
  | cons curr rest ih =>
    unfold repeatedCase
    rw [pairwise_cons_cons hproper]
    have hcurr : curr.Proper isSigned := hproper curr (by simp)
    by_cases hmeet : curr.start.view isSigned ≤ prev.stop.view isSigned
    · rw [if_pos ((eval_lteq _ _ _).mpr hmeet)]
      simp only [reduceCtorEq, false_iff, not_and]
      intro hlt
      exact absurd hmeet (Int.not_le.mpr hlt)
    · have hlt : prev.stopKey isSigned < curr.key isSigned := Int.not_le.mp hmeet
      rw [if_neg (mt (eval_lteq _ _ _).mp hmeet),
        if_pos ((eval_gt _ _ _).mpr (Int.lt_of_lt_of_le hlt hcurr)),
        ih fun c hc => hproper c (by simp only [List.mem_cons] at hc ⊢; tauto)]
      exact (and_iff_right hlt).symm

/-- The cases are sorted and do not meet, or one of those that meet is reported. -/
theorem sortCases_spec (infos : Array CaseInfo) (hsign : ∀ c ∈ infos.toList, c.isSigned = isSigned)
    (hproper : ∀ c ∈ infos.toList, c.Proper isSigned) :
    (infos.toList.Pairwise (Apart (CaseInfo.key isSigned) (CaseInfo.stopKey isSigned)) ∧
      ∃ sorted, sortCases isSigned infos = .ok sorted ∧ sorted.toList.Perm infos.toList ∧
        sorted.toList.Pairwise fun a b => a.stopKey isSigned < b.key isSigned) ∨
    (¬ infos.toList.Pairwise (Apart (CaseInfo.key isSigned) (CaseInfo.stopKey isSigned)) ∧
      ∃ i, sortCases isSigned infos = .error (.repeatedValue i)) := by
  unfold sortCases
  by_cases hempty : infos.size = 0
  · obtain rfl := Array.eq_empty_of_size_eq_zero hempty
    exact .inl ⟨.nil, #[], rfl, .refl _, .nil⟩
  rw [if_neg hempty]
  obtain ⟨sorted, hrun, hperm, hkeys⟩ := qsortCases_perm _ hsign
  have hapart : sorted.toList.Pairwise (Apart (CaseInfo.key isSigned) (CaseInfo.stopKey isSigned)) ↔
      infos.toList.Pairwise (Apart (CaseInfo.key isSigned) (CaseInfo.stopKey isSigned)) :=
    hperm.pairwise_iff Apart.symm
  have hproper' : ∀ c ∈ sorted.toList, c.Proper isSigned := fun c hc =>
    hproper c (hperm.mem_iff.mp hc)
  rw [← hapart, pairwise_apart_iff hkeys hproper']
  rw [hrun]
  cases hlist : sorted.toList with
  | nil =>
    have hlen := hperm.length_eq
    rw [hlist] at hlen
    exact absurd hlen.symm hempty
  | cons prev rest =>
    rw [hlist] at hproper'
    have hscan := repeatedCase_eq_none_iff hproper'
    cases hrep : repeatedCase isSigned prev rest with
    | none =>
      rw [hrep] at hscan
      refine .inl ⟨hscan.mp rfl, sorted, ?_, hperm, hlist ▸ hscan.mp rfl⟩
      simp only [hlist, hrep]
    | some curr =>
      rw [hrep] at hscan
      refine .inr ⟨mt hscan.mpr (by simp), curr.index, ?_⟩
      simp only [hlist, hrep]

/-- The search finds the case that the value is in. -/
theorem searchCases_spec (infos : Array CaseInfo) (val : Scalar) {lo hi : Int} (hlo : 0 ≤ lo) (hhi : hi < infos.size)
    (hsorted : infos.toList.Pairwise fun a b => a.stopKey isSigned < b.key isSigned)
    (hproper : ∀ c ∈ infos.toList, c.Proper isSigned) :
    ∃ r, searchCases isSigned infos val lo hi = .ok r ∧
      match r with
      | some i => ∃ c ∈ infos.toList, c.index = i ∧
          Within (CaseInfo.key isSigned) (CaseInfo.stopKey isSigned) c (val.view isSigned)
      | none => ∀ (k : Nat) (c : CaseInfo), lo ≤ k → k ≤ hi → infos.toList[k]? = some c →
          ¬ Within (CaseInfo.key isSigned) (CaseInfo.stopKey isSigned) c (val.view isSigned) := by
  fun_induction searchCases isSigned infos val lo hi with
  | case1 lo hi hle mid hnone =>
    exfalso
    have : mid = lo + (hi - lo) / 2 := rfl
    rw [Array.getElem?_eq_none_iff] at hnone
    omega
  | case2 lo hi hle mid c hc hin =>
    rw [eval_gteq, eval_lteq] at hin
    exact ⟨_, rfl, c, Array.mem_toList_iff.mpr (Array.mem_of_getElem? hc), rfl, hin⟩
  | case3 lo hi hle mid c hc hin hlt ih =>
    rw [eval_lt] at hlt
    have : mid = lo + (hi - lo) / 2 := rfl
    obtain ⟨r, hrun, hr⟩ := ih hlo (by omega)
    refine ⟨r, hrun, ?_⟩
    cases r with
    | some i => exact hr
    | none =>
      intro k d hk hk' hd
      by_cases hmid : k < mid
      · exact hr k d hk (by omega) hd
      · exact not_within_of_lt hsorted hproper (i := mid.toNat) (by omega)
          (by rw [Array.getElem?_toList]; exact hc) hd hlt
  | case4 lo hi hle mid c hc hin hlt hgt =>
    exfalso
    rw [eval_lt] at hlt
    rw [Ne, eval_gt] at hgt
    rw [eval_gteq, eval_lteq] at hin
    omega
  | case5 lo hi hle mid c hc hin hlt hgt ih =>
    rw [not_not, eval_gt] at hgt
    have : mid = lo + (hi - lo) / 2 := rfl
    obtain ⟨r, hrun, hr⟩ := ih (by omega) hhi
    refine ⟨r, hrun, ?_⟩
    cases r with
    | some i => exact hr
    | none =>
      intro k d hk hk' hd
      by_cases hmid : mid < k
      · exact hr k d (by omega) hk' hd
      · exact not_within_of_gt hsorted hproper (i := mid.toNat) (by omega)
          (by rw [Array.getElem?_toList]; exact hc) hd hgt
  | case6 lo hi hle => exact ⟨none, rfl, fun k c hk hk' => by omega⟩

end

/-! ## The values of the cases -/

/-- The value of a case expression at the type of the switch. -/
def caseValue (switchType : Ty) (expr : Ast.ExprOperand) : Int :=
  match intKind? expr.type, intKind? switchType with
  | some k, some j =>
    if expr.type = switchType then Scalar.value expr.imm k
    else castValue j (Scalar.value expr.imm k)
  | _, _ => 0

/-- The values from `first` to `last`, with the index of their case. -/
structure CaseValues where
  index : Nat
  first : Int
  last : Int
  deriving DecidableEq, Repr

/-- The values of the cases from an index on. -/
def caseValuesFrom (switchType : Ty) : Nat → List SwitchCase → List CaseValues
  | _, [] => []
  | index, scase :: rest =>
    (scase.start.map fun e => ⟨index, caseValue switchType e,
      caseValue switchType (scase.stop.getD e)⟩).toList ++ caseValuesFrom switchType (index + 1) rest

/-- The values of a case as the resolver keeps them. -/
def CaseInfo.values (isSigned : Bool) (c : CaseInfo) : CaseValues :=
  ⟨c.index, c.key isSigned, c.stopKey isSigned⟩

/-- An expression that may stand in a case. -/
structure IsCaseExpr (switchType : Ty) (expr : Ast.ExprOperand) : Prop where
  const : expr.isConst = true
  integer : expr.type.isIntegerLike = true
  enum : ∀ id base, switchType = .enum id base → expr.type = switchType

namespace StmtSwitch

variable (stmt : StmtSwitch)

/-- The values of the cases that are not the default case, as they are written. -/
def caseValues : List CaseValues := caseValuesFrom stmt.expr.type 0 stmt.cases

/-- A switch on an integer with constant cases, whose ranges are not empty. -/
structure WellTyped : Prop where
  integer : stmt.expr.type.isIntegerLike = true
  nonempty : stmt.cases ≠ []
  exprs : ∀ c ∈ stmt.cases, ∀ e, c.start = some e ∨ c.stop = some e →
    IsCaseExpr stmt.expr.type e
  ranges : ∀ c ∈ stmt.cases, ∀ s e, c.start = some s → c.stop = some e →
    caseValue stmt.expr.type s < caseValue stmt.expr.type e
  blocks : ∀ c ∈ stmt.cases, c.flags.success = true

end StmtSwitch

section

variable {R : TypeRels} {F : FloatConv} {switchType type : Ty} {expr : Ast.ExprOperand}
  {k j : IntegerKind}

theorem isSigned_eq (h : intKind? type = some k) : type.isSigned = intKindSigned k := by
  rcases eq_of_intKind h with rfl | ⟨id, rfl⟩ <;> rfl

/-- A conversion between integers leaves the value at the new type. -/
theorem convertCaseExpr_value (type : Ty) (hconst : expr.isConst = true) (hk : intKind? expr.type = some k)
    (hj : intKind? type = some j) :
    ∃ eop, convertCaseExpr R F expr type = .ok eop ∧ eop.type = type ∧ eop.isConst = true ∧
      Scalar.value eop.imm j = caseValue type expr := by
  have hrun : convertCaseExpr R F expr type = .ok (tryWrapCastExpr { expr with
      type := type, isLvalue := false
      imm := if expr.isConst then intCast expr.imm k j else expr.imm } expr) := by
    unfold convertCaseExpr
    rw [convertEop_int hk hj]
    rfl
  refine ⟨_, hrun, ?_⟩
  unfold tryWrapCastExpr caseValue
  rw [hk, hj]
  by_cases htype : expr.type = type
  · rw [if_neg (not_not.mpr htype)]
    obtain rfl : k = j := Option.some.inj (hk.symm.trans (htype ▸ hj))
    exact ⟨rfl, hconst, (if_pos htype).symm⟩
  · rw [if_pos htype]
    refine ⟨rfl, hconst, ?_⟩
    simp only [hconst, if_true, if_neg htype]
    exact Scalar.value_intCast_castValue _ _ _

theorem caseValue_inRange (hk : intKind? expr.type = some k) (hj : intKind? switchType = some j) :
    InRange j (caseValue switchType expr) := by
  unfold caseValue
  rw [hk, hj]
  by_cases htype : expr.type = switchType
  · obtain rfl : k = j := Option.some.inj (hk.symm.trans (htype ▸ hj))
    simp only [if_pos htype]
    exact Scalar.value_inRange _ _
  · simp only [if_neg htype]
    rw [← Scalar.value_intCast_castValue]
    exact Scalar.value_inRange _ _

theorem caseExprOfType_value (hj : intKind? switchType = some j) (h : IsCaseExpr switchType expr) :
    ∃ eop, caseExprOfType R F expr switchType = .ok eop ∧ eop.type = switchType ∧
      eop.isConst = true ∧ Scalar.value eop.imm j = caseValue switchType expr := by
  obtain ⟨k, hk⟩ := isIntegerLike_iff.mp h.integer
  rcases eq_of_intKind hj with rfl | ⟨id, rfl⟩
  · exact convertCaseExpr_value _ h.const hk hj
  · have htype := h.enum _ _ rfl
    obtain rfl : k = j := Option.some.inj (hk.symm.trans (htype ▸ hj))
    refine ⟨expr, if_neg (not_not.mpr htype.symm), htype, h.const, ?_⟩
    unfold caseValue
    rw [hk, hj]
    exact (if_pos htype).symm

/-- The 64-bit view of a case expression is its value at the type of the switch. -/
theorem resolveSwitchCaseExpr_view (hswitch : switchType.isIntegerLike = true)
    (h : IsCaseExpr switchType expr) :
    ∃ eop, resolveSwitchCaseExpr R F expr switchType = .ok eop ∧
      eop.type = .integer (if switchType.isSigned then .s64 else .u64) ∧
      Scalar.view eop.imm switchType.isSigned = caseValue switchType expr := by
  obtain ⟨j, hj⟩ := isIntegerLike_iff.mp hswitch
  obtain ⟨k, hk⟩ := isIntegerLike_iff.mp h.integer
  obtain ⟨eop, hrun, htype, hconst, hvalue⟩ := caseExprOfType_value (R := R) (F := F) hj h
  obtain ⟨eop', hrun', htype', -, hvalue'⟩ := convertCaseExpr_value (R := R) (F := F)
    (.integer (if switchType.isSigned then .s64 else .u64)) hconst (htype ▸ hj) rfl
  refine ⟨eop', ?_, htype', ?_⟩
  · have hconst' : (!expr.isImm || !expr.isConstexpr) = false := by
      have := h.const
      unfold Ast.ExprOperand.isConst at this
      cases hi : expr.isImm <;> cases hc : expr.isConstexpr <;> simp_all
    unfold resolveSwitchCaseExpr
    rw [hconst', hrun]
    exact hrun'
  · rw [Scalar.view_eq_value, hvalue', ← hvalue]
    have hrange := Scalar.inRange_64 (Scalar.value_inRange eop.imm j)
    unfold caseValue
    rw [htype, hj, isSigned_eq hj]
    have hbool : (if intKindSigned j then IntegerKind.s64 else .u64) ≠ .bool := by
      split <;> decide
    generalize (if intKindSigned j then IntegerKind.s64 else .u64) = m at hrange hbool ⊢
    show (if switchType = .integer m then _ else castValue m _) = _
    split
    · rfl
    · rw [castValue, if_neg hbool, wrap_eq_self hrange]

/-- What is kept of a case is its values. -/
theorem resolveSwitchCase_values (index : Nat) {scase : SwitchCase}
    (hswitch : switchType.isIntegerLike = true)
    (hexprs : ∀ e, scase.start = some e ∨ scase.stop = some e → IsCaseExpr switchType e)
    (hrange : ∀ s e, scase.start = some s → scase.stop = some e →
      caseValue switchType s < caseValue switchType e) :
    ∃ info, resolveSwitchCase R F switchType index scase = .ok info ∧
      info.map (CaseInfo.values switchType.isSigned) = scase.start.map (fun e => ⟨index,
        caseValue switchType e, caseValue switchType (scase.stop.getD e)⟩) ∧
      ∀ c, info = some c → c.isSigned = switchType.isSigned ∧ c.Proper switchType.isSigned := by
  unfold resolveSwitchCase
  cases hstart : scase.start with
  | none => exact ⟨none, rfl, rfl, fun c hc => nomatch hc⟩
  | some s =>
    obtain ⟨s', hs, hstype, hsview⟩ := resolveSwitchCaseExpr_view (R := R) (F := F) hswitch
      (hexprs s (.inl hstart))
    simp only [hs, bind, Except.bind]
    cases hstop : scase.stop with
    | none =>
      refine ⟨_, rfl, ?_, fun c hc => ?_⟩
      · simp only [Option.map_some, Option.getD_none, CaseInfo.values, CaseInfo.key,
          CaseInfo.stopKey, hsview]
      · cases hc
        exact ⟨rfl, Int.le_refl _⟩
    | some e =>
      obtain ⟨e', he, hetype, heview⟩ := resolveSwitchCaseExpr_view (R := R) (F := F) hswitch
        (hexprs e (.inr hstop))
      have hlt := hrange s e hstart hstop
      have hlteq : ¬ evalBinaryLogicalOp64bit .lteq switchType.isSigned e'.imm s'.imm = .ok true := by
        rw [eval_lteq, hsview, heview]
        exact Int.not_le.mpr hlt
      simp only [he, hstype, hetype, ne_eq, not_true_eq_false, if_false, if_neg hlteq]
      refine ⟨_, rfl, ?_, fun c hc => ?_⟩
      · simp only [Option.map_some, Option.getD_some, CaseInfo.values, CaseInfo.key,
          CaseInfo.stopKey, hsview, heview]
      · cases hc
        refine ⟨rfl, ?_⟩
        unfold CaseInfo.Proper CaseInfo.key CaseInfo.stopKey
        rw [hsview, heview]
        exact Int.le_of_lt hlt

/-- The loop over the cases keeps their values. -/
theorem resolveSwitchCases_values (hswitch : switchType.isIntegerLike = true)
    {cases : List SwitchCase}
    (hexprs : ∀ c ∈ cases, ∀ e, c.start = some e ∨ c.stop = some e → IsCaseExpr switchType e)
    (hranges : ∀ c ∈ cases, ∀ s e, c.start = some s → c.stop = some e →
      caseValue switchType s < caseValue switchType e)
    (hblocks : ∀ c ∈ cases, c.flags.success = true) (index : Nat) :
    ∃ infos a b, resolveSwitchCases R F switchType index cases = .ok (infos, a, b) ∧
      infos.map (CaseInfo.values switchType.isSigned) = caseValuesFrom switchType index cases ∧
      ∀ c ∈ infos, c.isSigned = switchType.isSigned ∧ c.Proper switchType.isSigned := by
  induction cases generalizing index with
  | nil => exact ⟨[], false, false, rfl, rfl, by simp⟩
  | cons scase rest ih =>
    obtain ⟨info, hinfo, hvalues, hproper⟩ := resolveSwitchCase_values (R := R) (F := F)
      index hswitch (hexprs scase (by simp)) (hranges scase (by simp))
    obtain ⟨infos, a, b, hrun, hrest, hall⟩ := ih (fun c hc => hexprs c (by simp [hc]))
      (fun c hc => hranges c (by simp [hc])) (fun c hc => hblocks c (by simp [hc])) (index + 1)
    refine ⟨info.toList ++ infos, a || !scase.flags.returns, b || !scase.flags.loopExits, ?_, ?_, ?_⟩
    · unfold resolveSwitchCases
      simp only [hinfo, hrun, hblocks scase (by simp), bind, Except.bind]
      rfl
    · unfold caseValuesFrom
      rw [List.map_append, hrest, ← hvalues]
      cases info <;> rfl
    · intro c hc
      rcases List.mem_append.mp hc with hc | hc
      · exact hproper c (Option.mem_toList.mp hc)
      · exact hall c hc

end

/-! ## What the claim is about -/

theorem mem_caseValuesFrom {switchType : Ty} {cases : List SwitchCase} {index : Nat}
    {r : CaseValues} : r ∈ caseValuesFrom switchType index cases ↔
      ∃ n c e, cases[n]? = some c ∧ c.start = some e ∧ r = ⟨index + n, caseValue switchType e,
        caseValue switchType (c.stop.getD e)⟩ := by
  induction cases generalizing index with
  | nil => simp [caseValuesFrom]
  | cons scase rest ih =>
    unfold caseValuesFrom
    rw [List.mem_append, ih, Option.mem_toList, Option.map_eq_some_iff]
    constructor
    · rintro (⟨e, hstart, rfl⟩ | ⟨n, c, e, hc, hstart, rfl⟩)
      · exact ⟨0, scase, e, rfl, hstart, rfl⟩
      · exact ⟨n + 1, c, e, hc, hstart, by rw [Nat.add_assoc, Nat.add_comm 1]⟩
    · rintro ⟨n, c, e, hc, hstart, rfl⟩
      cases n with
      | zero =>
        obtain rfl : scase = c := Option.some.inj hc
        exact .inl ⟨e, hstart, rfl⟩
      | succ n => exact .inr ⟨n, c, e, hc, hstart, by rw [Nat.add_assoc, Nat.add_comm 1]⟩

theorem caseValuesFrom_length (switchType : Ty) (index : Nat) (cases : List SwitchCase) :
    (caseValuesFrom switchType index cases).length ≤ cases.length := by
  induction cases generalizing index with
  | nil => exact Nat.le_refl 0
  | cons scase rest ih =>
    unfold caseValuesFrom
    have := ih (index + 1)
    cases scase.start <;> simp <;> omega

namespace StmtSwitch

variable (stmt : StmtSwitch)

/-- Two cases have a value in common. -/
def Repeats : Prop := ¬ stmt.caseValues.Pairwise (Apart CaseValues.first CaseValues.last)

/-- The case whose values contain the one given, and no other does, or the default case if there
is none. -/
def Selects (v : Int) (target : Option Nat) : Prop :=
  (∃ r ∈ stmt.caseValues, Within CaseValues.first CaseValues.last r v ∧ target = some r.index ∧
    ∀ r' ∈ stmt.caseValues, Within CaseValues.first CaseValues.last r' v → r' = r) ∨
  ((∀ r ∈ stmt.caseValues, ¬ Within CaseValues.first CaseValues.last r v) ∧
    target = stmt.defaultCaseIndex)

variable {stmt}

theorem eq_of_index {r r' : CaseValues} (hr : r ∈ stmt.caseValues) (hr' : r' ∈ stmt.caseValues)
    (h : r.index = r'.index) : r = r' := by
  obtain ⟨n, c, e, hc, hstart, rfl⟩ := mem_caseValuesFrom.mp hr
  obtain ⟨n', c', e', hc', hstart', rfl⟩ := mem_caseValuesFrom.mp hr'
  obtain rfl : n = n' := Nat.add_left_cancel h
  obtain rfl := Option.some.inj (hc.symm.trans hc')
  obtain rfl := Option.some.inj (hstart.symm.trans hstart')
  rfl

theorem index_ne_default {r : CaseValues} (hr : r ∈ stmt.caseValues) :
    some r.index ≠ stmt.defaultCaseIndex := by
  obtain ⟨n, c, e, hc, hstart, rfl⟩ := mem_caseValuesFrom.mp hr
  intro h
  have hnone := (stmt.default_iff _).mp h.symm
  rw [Nat.zero_add, hc, Option.map_some, hstart] at hnone
  cases hnone

/-- Two values that select the same lie in the same cases. -/
theorem Selects.within {v v' : Int} {target : Option Nat} (h : stmt.Selects v target)
    (h' : stmt.Selects v' target) {r : CaseValues} (hr : r ∈ stmt.caseValues)
    (hw : Within CaseValues.first CaseValues.last r v) :
    Within CaseValues.first CaseValues.last r v' := by
  rcases h with ⟨r₀, hr₀, hw₀, rfl, huniq⟩ | ⟨hnone, -⟩
  · obtain rfl := huniq r hr hw
    rcases h' with ⟨r₁, hr₁, hw₁, htarget, -⟩ | ⟨-, htarget⟩
    · obtain rfl := eq_of_index hr hr₁ (Option.some.inj htarget)
      exact hw₁
    · exact absurd htarget (index_ne_default hr)
  · exact absurd hw (hnone r hr)

theorem Selects.congr {v v' : Int} {target : Option Nat} (h : stmt.Selects v target)
    (heq : ∀ r ∈ stmt.caseValues, Within CaseValues.first CaseValues.last r v ↔
      Within CaseValues.first CaseValues.last r v') : stmt.Selects v' target := by
  rcases h with ⟨r, hr, hw, htarget, huniq⟩ | ⟨hnone, htarget⟩
  · exact .inl ⟨r, hr, (heq r hr).mp hw, htarget, fun r' hr' hw' =>
      huniq r' hr' ((heq r' hr').mpr hw')⟩
  · exact .inr ⟨fun r hr hw => hnone r hr ((heq r hr).mpr hw), htarget⟩

variable {R : TypeRels} {F : FloatConv}

/-- What the resolver keeps of a switch whose cases do not meet. -/
structure Sorted (stmt : StmtSwitch) (infos : Array CaseInfo) : Prop where
  perm : (infos.toList.map (CaseInfo.values stmt.expr.type.isSigned)).Perm stmt.caseValues
  ends : infos.toList.Pairwise fun a b =>
    a.stopKey stmt.expr.type.isSigned < b.key stmt.expr.type.isSigned
  proper : ∀ c ∈ infos.toList, c.Proper stmt.expr.type.isSigned

/-- A switch is rejected for a repeated value, or its cases are kept in order. -/
theorem resolveStmtSwitch_cases (h : stmt.WellTyped) :
    (stmt.Repeats ∧ ∃ i, resolveStmtSwitch R F stmt = .error (.repeatedValue i)) ∨
    (¬ stmt.Repeats ∧ ∃ flags infos, resolveStmtSwitch R F stmt = .ok (flags, infos) ∧
      stmt.Sorted infos) := by
  obtain ⟨infos, a, b, hrun, hvalues, hall⟩ := resolveSwitchCases_values (R := R) (F := F)
    h.integer h.exprs h.ranges h.blocks 0
  have hapart : infos.toArray.toList.Pairwise (Apart (CaseInfo.key stmt.expr.type.isSigned)
      (CaseInfo.stopKey stmt.expr.type.isSigned)) ↔
      stmt.caseValues.Pairwise (Apart CaseValues.first CaseValues.last) := by
    unfold caseValues
    rw [← hvalues, List.pairwise_map]
    rfl
  have hnonempty : stmt.cases.length ≠ 0 := mt List.length_eq_zero_iff.mp h.nonempty
  have hlarge : ¬ stmt.cases.length > 2 ^ 32 - 1 := by
    have := stmt.length_lt
    omega
  have hexhaustive : ∃ x, switchStmtIsExhaustive stmt = .ok x := by
    unfold switchStmtIsExhaustive
    obtain ⟨k, hk⟩ := isIntegerLike_iff.mp h.integer
    rcases eq_of_intKind hk with ht | ⟨id, ht⟩ <;> rw [ht] <;> split <;> exact ⟨_, rfl⟩
  obtain ⟨x, hexhaustive⟩ := hexhaustive
  unfold Repeats
  rw [not_not, ← hapart]
  rcases sortCases_spec infos.toArray (fun c hc => (hall c hc).1)
    (fun c hc => (hall c hc).2) with ⟨hno, sorted, hsort, hperm, hends⟩ | ⟨hmeet, i, hsort⟩
  · refine .inr ⟨hno, ⟨true, x && !a, x && !b⟩, sorted, ?_, ?_, hends,
      fun c hc => (hall c (hperm.mem_iff.mp hc)).2⟩
    · unfold resolveStmtSwitch
      simp only [h.integer, if_neg hnonempty, if_neg hlarge, hrun, hsort, hexhaustive, bind,
        Except.bind]
      rfl
    · unfold caseValues
      rw [← hvalues]
      exact hperm.map _
  · refine .inl ⟨hmeet, i, ?_⟩
    unfold resolveStmtSwitch
    simp only [h.integer, if_neg hnonempty, if_neg hlarge, hrun, hsort, bind, Except.bind]
    rfl

theorem Sorted.mem_iff {infos : Array CaseInfo} (h : stmt.Sorted infos) {r : CaseValues} :
    r ∈ stmt.caseValues ↔ ∃ c ∈ infos.toList, c.values stmt.expr.type.isSigned = r := by
  rw [← h.perm.mem_iff, List.mem_map]

/-- The search over the sorted cases selects by the 64-bit view of the constant. -/
theorem constSwitchTarget_selects {infos : Array CaseInfo} (h : stmt.Sorted infos)
    (hsome : stmt.caseValues ≠ []) :
    ∃ target, constSwitchTarget stmt infos = .ok target ∧
      stmt.Selects (Scalar.view stmt.expr.imm stmt.expr.type.isSigned) target := by
  have hlen : infos.size = stmt.caseValues.length := by
    rw [← h.perm.length_eq, List.length_map, Array.length_toList]
  have hpos : 0 < infos.size := hlen ▸ List.length_pos_iff.mpr hsome
  have hlt : infos.size < 2 ^ 32 := by
    have hle : stmt.caseValues.length ≤ stmt.cases.length := caseValuesFrom_length ..
    have := stmt.length_lt
    omega
  have hhi : (BitVec.ofNat 32 infos.size - 1).toNat = infos.size - 1 := by
    rw [BitVec.toNat_sub_of_le (by rw [BitVec.le_def]; simp; omega)]
    simp
    omega
  obtain ⟨r, hrun, hr⟩ := searchCases_spec infos stmt.expr.imm (Int.le_refl 0)
    (show ((infos.size - 1 : Nat) : Int) < infos.size by omega) h.ends h.proper
  refine ⟨if r.isNone then stmt.defaultCaseIndex else r, ?_, ?_⟩
  · unfold constSwitchTarget
    simp only [hhi, hrun, bind, Except.bind]
    rfl
  · cases r with
    | some i =>
      obtain ⟨c, hc, rfl, hw⟩ := hr
      refine .inl ⟨_, h.mem_iff.mpr ⟨c, hc, rfl⟩, hw, rfl, ?_⟩
      intro r' hr' hw'
      obtain ⟨c', hc', rfl⟩ := h.mem_iff.mp hr'
      rw [eq_of_within (h.ends.imp apart_of_lt) hc' hc hw' hw]
    | none =>
      refine .inr ⟨?_, rfl⟩
      intro v hv hw
      obtain ⟨c, hc, rfl⟩ := h.mem_iff.mp hv
      obtain ⟨k, hk, hget⟩ := List.getElem_of_mem hc
      rw [Array.length_toList] at hk
      exact hr k c (by omega) (by omega) (List.getElem?_eq_some_iff.mpr ⟨hk, hget⟩) hw

/-- Without cases the last index wraps around, and the search reads behind the array. -/
theorem constSwitchTarget_empty (stmt : StmtSwitch) :
    constSwitchTarget stmt #[] = .error .outOfBounds := by
  have hhi : ((BitVec.ofNat 32 (#[] : Array CaseInfo).size - 1).toNat : Int) = 2 ^ 32 - 1 := rfl
  unfold constSwitchTarget
  simp only [hhi]
  unfold searchCases
  rfl

end StmtSwitch

/-- The checks of a switch and the choice of the case of a constant are right. -/
structure SwitchChecked (R : TypeRels) (F : FloatConv) (stmt : StmtSwitch) : Prop where
  sorted : ∀ infos a b, resolveSwitchCases R F stmt.expr.type 0 stmt.cases = .ok (infos, a, b) →
    ∃ sorted, qsortCases infos.length infos.toArray 0 (infos.length - 1) = some sorted ∧
      sorted.toList.Perm infos ∧ sorted.toList.Pairwise fun a b =>
        Scalar.view a.start stmt.expr.type.isSigned ≤ Scalar.view b.start stmt.expr.type.isSigned
  rejected : (∃ e, resolveStmtSwitch R F stmt = .error e) ↔ stmt.Repeats
  selected : ∀ flags infos, resolveStmtSwitch R F stmt = .ok (flags, infos) →
    stmt.expr.isConst = true → ∃ target, constSwitchTarget stmt infos = .ok target ∧
      stmt.Selects (caseValue stmt.expr.type stmt.expr) target

/-- A switch is treated right exactly if it is rejected or not on a constant, or it has a case
besides the default case and the 64-bit view of the constant is in the same cases as its value. -/
theorem switchChecked_iff (R : TypeRels) (F : FloatConv) {stmt : StmtSwitch}
    (h : stmt.WellTyped) :
    SwitchChecked R F stmt ↔ stmt.Repeats ∨ stmt.expr.isConst = false ∨
      (stmt.caseValues ≠ [] ∧ ∀ r ∈ stmt.caseValues,
        Within CaseValues.first CaseValues.last r
            (Scalar.view stmt.expr.imm stmt.expr.type.isSigned) ↔
          Within CaseValues.first CaseValues.last r (caseValue stmt.expr.type stmt.expr)) := by
  have hsorted : ∀ infos a b,
      resolveSwitchCases R F stmt.expr.type 0 stmt.cases = .ok (infos, a, b) →
      ∃ sorted, qsortCases infos.length infos.toArray 0 (infos.length - 1) = some sorted ∧
        sorted.toList.Perm infos ∧ sorted.toList.Pairwise fun a b =>
          a.key stmt.expr.type.isSigned ≤ b.key stmt.expr.type.isSigned := by
    intro infos a b hrun
    obtain ⟨infos', a', b', hrun', -, hall⟩ := resolveSwitchCases_values (R := R) (F := F)
      h.integer h.exprs h.ranges h.blocks 0
    rw [hrun] at hrun'
    cases hrun'
    exact qsortCases_perm infos.toArray fun c hc => (hall c hc).1
  rcases StmtSwitch.resolveStmtSwitch_cases (R := R) (F := F) h with
    ⟨hrep, i, hres⟩ | ⟨hrep, flags, infos, hres, hinfos⟩
  · refine iff_of_true ⟨hsorted, iff_of_true ⟨_, hres⟩ hrep, ?_⟩ (.inl hrep)
    intro flags infos hok
    rw [hres] at hok
    cases hok
  · have hrejected : (∃ e, resolveStmtSwitch R F stmt = .error e) ↔ stmt.Repeats := by
      refine iff_of_false ?_ hrep
      rintro ⟨e, he⟩
      rw [hres] at he
      cases he
    constructor
    · intro hchecked
      refine .inr ?_
      cases hconst : stmt.expr.isConst with
      | false => exact .inl rfl
      | true =>
        obtain ⟨target, hrun, hsel⟩ := hchecked.selected flags infos hres hconst
        have hsome : stmt.caseValues ≠ [] := by
          intro hnil
          have hperm := hinfos.perm
          rw [hnil, List.perm_nil, List.map_eq_nil_iff, Array.toList_eq_nil_iff] at hperm
          rw [hperm, StmtSwitch.constSwitchTarget_empty] at hrun
          cases hrun
        obtain ⟨target', hrun', hsel'⟩ := StmtSwitch.constSwitchTarget_selects hinfos hsome
        obtain rfl := Except.ok.inj (hrun.symm.trans hrun')
        exact .inr ⟨hsome, fun r hr => ⟨hsel'.within hsel hr, hsel.within hsel' hr⟩⟩
    · intro hcond
      refine ⟨hsorted, hrejected, ?_⟩
      intro flags' infos' hok hconst
      obtain ⟨rfl, rfl⟩ := Prod.mk.inj (Except.ok.inj (hres.symm.trans hok))
      obtain ⟨hsome, hsame⟩ := (hcond.resolve_left hrep).resolve_left (by simp [hconst])
      obtain ⟨target, hrun, hsel⟩ := StmtSwitch.constSwitchTarget_selects hinfos hsome
      exact ⟨target, hrun, hsel.congr hsame⟩

/-- A switch on the constant `1` of type `s32` with a default case only. -/
def onlyDefault : StmtSwitch where
  expr := ⟨.integer .s32, true, false, true, 1⟩
  cases := [⟨none, none, ⟨true, false, false⟩⟩]
  defaultCaseIndex := some 0
  length_lt := by decide
  stop_none := by simp
  default_iff i := by cases i <;> simp

theorem not_switchChecked_onlyDefault : ¬ SwitchChecked .plain .unused onlyDefault := by
  intro h
  have hempty : resolveStmtSwitch .plain .unused onlyDefault = .ok (⟨true, false, false⟩, #[]) := rfl
  obtain ⟨target, hrun, -⟩ := h.selected _ _ hempty rfl
  rw [StmtSwitch.constSwitchTarget_empty] at hrun
  cases hrun

/-- A switch on a variable of type `s32` with the cases `-1` and `3..5`. -/
def twoCases : StmtSwitch where
  expr := ⟨.integer .s32, false, true, false, 0⟩
  cases := [⟨some ⟨.integer .s32, true, false, true, 3⟩, some ⟨.integer .s32, true, false, true, 5⟩,
      ⟨true, false, false⟩⟩,
    ⟨some ⟨.integer .s32, true, false, true, 0xffffffff⟩, none, ⟨true, false, false⟩⟩]
  defaultCaseIndex := none
  length_lt := by decide
  stop_none := by simp
  default_iff i := by rcases i with _ | _ | i <;> simp

theorem switchChecked_iff_twoCases :
    SwitchChecked .plain .unused twoCases ↔ twoCases.Repeats ∨ twoCases.expr.isConst = false ∨
      (twoCases.caseValues ≠ [] ∧ ∀ r ∈ twoCases.caseValues,
        Within CaseValues.first CaseValues.last r
            (Scalar.view twoCases.expr.imm twoCases.expr.type.isSigned) ↔
          Within CaseValues.first CaseValues.last r
            (caseValue twoCases.expr.type twoCases.expr)) :=
  switchChecked_iff .plain .unused {
    integer := rfl
    nonempty := by decide
    exprs := by
      intro c hc e he
      simp only [twoCases, List.mem_cons, List.not_mem_nil, or_false] at hc
      rcases hc with rfl | rfl <;> rcases he with he | he <;> cases he <;>
        exact ⟨rfl, rfl, fun _ _ h => nomatch h⟩
    ranges := by
      intro c hc s e hs he
      simp only [twoCases, List.mem_cons, List.not_mem_nil, or_false] at hc
      rcases hc with rfl | rfl <;> cases hs <;> cases he
      decide
    blocks := by
      intro c hc
      simp only [twoCases, List.mem_cons, List.not_mem_nil, or_false] at hc
      rcases hc with rfl | rfl <;> rfl }

end Nibble.Resolve
