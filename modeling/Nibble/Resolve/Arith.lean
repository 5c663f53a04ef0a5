import Nibble.Resolve.Cast

/-!
# Usual arithmetic conversions

`promote_int_eops` and `convert_arith_eops` of `resolver/exprs.c`. The cascade of
branches picks the larger of the promoted kinds, the unsigned one of two of the same
size.
-/

namespace Nibble.Resolve

/-- `type_integer_ranks`. -/
def typeIntegerRanks : IntegerKind → Nat
  | .bool => 0
  | .u8 | .s8 => 1
  | .u16 | .s16 => 2
  | .u32 | .s32 => 3
  | .u64 | .s64 => 4

/-- `type_unsigned_int`. -/
def typeUnsignedInt : IntegerKind → IntegerKind
  | .bool => .bool
  | .u8 | .s8 => .u8
  | .u16 | .s16 => .u16
  | .u32 | .s32 => .u32
  | .u64 | .s64 => .u64

/-- An enum type is replaced by its base. -/
def collapseEnum (eop : Ast.ExprOperand) : Ast.ExprOperand :=
  match eop.type with
  | .enum _ base => { eop with type := .integer base }
  | _ => eop

section

variable (R : TypeRels) (F : FloatConv)

/-- `cast_eop` where the result of the cast is not looked at. -/
def castTo (eop : Ast.ExprOperand) (dstType : Ty) : Except Fault Ast.ExprOperand :=
  (castEop R F eop dstType false).map (·.2)

/-- `promote_int_eops`. -/
def promoteIntEops (eop : Ast.ExprOperand) : Except Fault Ast.ExprOperand :=
  match eop.type with
  | .integer _ | .enum _ _ =>
    if eop.type.size < Ty.size (.integer .s32) then castTo R F eop (.integer .s32) else .ok eop
  | _ => .ok eop

/-- The casts of two integers of different types, of the kinds given. -/
def convertIntEops (leftKind rightKind : IntegerKind) (left right : Ast.ExprOperand) :
    Except Fault (Ast.ExprOperand × Ast.ExprOperand) :=
  let leftSigned := intKindSigned leftKind
  let rightSigned := intKindSigned rightKind
  let leftRank := typeIntegerRanks leftKind
  let rightRank := typeIntegerRanks rightKind
  let castLeft := (castTo R F left right.type).map (·, right)
  let castRight := (castTo R F right left.type).map (left, ·)
  if leftSigned = rightSigned then
    if leftRank ≤ rightRank then castLeft else castRight
  else if leftSigned && decide (rightRank ≥ leftRank) then castLeft
  else if rightSigned && decide (leftRank ≥ rightRank) then castRight
  else if leftSigned && decide (left.type.size > right.type.size) then castRight
  else if rightSigned && decide (right.type.size > left.type.size) then castLeft
  else do
    let type := Ty.integer (typeUnsignedInt (if leftSigned then leftKind else rightKind))
    let _ ← castTo R F left type
    let _ ← castTo R F right type
    -- "We shouldn't reach this code path!!! Usual arithmetic conversions code"
    .error .assertion

/-- The usual arithmetic conversions of two integers. -/
def convertIntegerLikeEops (left right : Ast.ExprOperand) :
    Except Fault (Ast.ExprOperand × Ast.ExprOperand) :=
  if !(left.type.isIntegerLike && right.type.isIntegerLike) then .error .assertion
  else do
    let left ← promoteIntEops R F left
    let right ← promoteIntEops R F right
    let left := collapseEnum left
    let right := collapseEnum right
    if left.type ≠ right.type then
      match left.type, right.type with
      | .integer leftKind, .integer rightKind => convertIntEops R F leftKind rightKind left right
      | _, _ => .error .assertion
    else .ok (left, right)

/-- `convert_arith_eops`: the type, and the two operands. -/
def convertArithEops (left right : Ast.ExprOperand) :
    Except Fault (Ty × Ast.ExprOperand × Ast.ExprOperand) := do
  let (left, right) ←
    if left.type = .float .f64 then (castTo R F right (.float .f64)).map (left, ·)
    else if right.type = .float .f64 then (castTo R F left (.float .f64)).map (·, right)
    else if left.type = .float .f32 then (castTo R F right (.float .f32)).map (left, ·)
    else if right.type = .float .f32 then (castTo R F left (.float .f32)).map (·, right)
    else convertIntegerLikeEops R F left right
  if left.type = right.type then .ok (left.type, left, right) else .error .assertion

/-! ## Promotion -/

/-- The kind to which a kind is promoted. -/
def promoted (k : IntegerKind) : IntegerKind := if intKindSize k < 4 then .s32 else k

/-- The kind that two promoted kinds have in common. -/
def commonKind (l r : IntegerKind) : IntegerKind :=
  if intKindSize l < intKindSize r then r
  else if intKindSize r < intKindSize l then l
  else if intKindSigned l then r
  else l

theorem commonKind_eq (l r : IntegerKind) : commonKind l r = l ∨ commonKind l r = r := by
  unfold commonKind
  split
  · exact .inr rfl
  · split
    · exact .inl rfl
    · split
      · exact .inr rfl
      · exact .inl rfl

theorem promoted_ne_bool (k : IntegerKind) : promoted k ≠ .bool := by
  cases k <;> decide

theorem commonKind_comm {l r : IntegerKind} :
    commonKind (promoted l) (promoted r) = commonKind (promoted r) (promoted l) := by
  cases l <;> cases r <;> rfl

/-- The number that a constant of an integer type stands for. -/
def constValue (eop : Ast.ExprOperand) : Option Int :=
  if eop.isConst then (intKind? eop.type).map (Scalar.value eop.imm) else none

theorem promoted_inRange {k : IntegerKind} {n : Int} (h : InRange k n) : InRange (promoted k) n := by
  have hsub : lowest (promoted k) ≤ lowest k ∧ highest k ≤ highest (promoted k) := by
    cases k <;> decide
  exact ⟨hsub.1.trans h.1, h.2.trans hsub.2⟩

/-- An integer operand of one kind becomes one of another. -/
structure Converts (eop : Ast.ExprOperand) (k : IntegerKind) (eop' : Ast.ExprOperand)
    (j : IntegerKind) : Prop where
  type : eop'.type = .integer j
  isConst : eop'.isConst = eop.isConst
  value : Scalar.value eop'.imm j = wrap j (Scalar.value eop.imm k) ∨ eop.isConst = false

variable {R F} {eop eop' eop'' left right : Ast.ExprOperand} {k j i : IntegerKind}

theorem Converts.refl (h : eop.type = .integer k) : Converts eop k eop k where
  type := h
  isConst := rfl
  value := .inl (wrap_eq_self (Scalar.value_inRange eop.imm k)).symm

theorem Converts.trans (h : Converts eop k eop' (promoted k))
    (h' : Converts eop' (promoted k) eop'' i) : Converts eop k eop'' i where
  type := h'.type
  isConst := h'.isConst.trans h.isConst
  value := by
    rcases h.value with hv | hv
    · rcases h'.value with hv' | hv'
      · rw [hv, wrap_eq_self (promoted_inRange (Scalar.value_inRange eop.imm k))] at hv'
        exact .inl hv'
      · exact .inr (h.isConst ▸ hv')
    · exact .inr hv

/-- An integer operand cast from a kind to another. -/
def castInt (eop : Ast.ExprOperand) (k j : IntegerKind) : Ast.ExprOperand :=
  { eop with
    type := .integer j
    isLvalue := false
    imm := if eop.isConst then intCast eop.imm k j else eop.imm }

theorem castTo_int (hk : intKind? eop.type = some k) :
    castTo R F eop (.integer j) = .ok (castInt eop k j) := by
  unfold castTo
  rw [castEop_int hk rfl]
  rfl

theorem castInt_converts (hj : j ≠ .bool) : Converts eop k (castInt eop k j) j where
  type := rfl
  isConst := rfl
  value := by
    unfold castInt
    cases hconst : eop.isConst with
    | false => exact .inr rfl
    | true => exact .inl (Scalar.value_intCast eop.imm k hj)

/-- An integer operand that is not smaller than `s32`. -/
def promoteInt (eop : Ast.ExprOperand) (k : IntegerKind) : Ast.ExprOperand :=
  if intKindSize k < 4 then castInt eop k .s32 else eop

theorem promoteIntEops_int (hk : intKind? eop.type = some k) :
    promoteIntEops R F eop = .ok (promoteInt eop k) := by
  have hcast := castTo_int (R := R) (F := F) hk (j := .s32)
  unfold promoteIntEops promoteInt
  rcases eq_of_intKind hk with h | ⟨id, h⟩ <;> rw [h] <;> simp only [Ty.size, hcast]
  · exact (apply_ite Except.ok _ _ _).symm
  · exact (apply_ite Except.ok _ _ _).symm

/-- Promotion and the removal of an enum keep the value. -/
theorem promoteInt_converts (hk : intKind? eop.type = some k) :
    Converts eop k (collapseEnum (promoteInt eop k)) (promoted k) := by
  unfold promoteInt promoted
  split
  · exact castInt_converts (by decide)
  · unfold collapseEnum
    rcases eq_of_intKind hk with h | ⟨id, h⟩
    · rw [h]
      exact .refl h
    · rw [h]
      exact ⟨rfl, rfl, .inl (wrap_eq_self (Scalar.value_inRange eop.imm k)).symm⟩

/-! ## The common type -/

/-- The cascade ends in one of its casts. -/
theorem convertIntEops_eq {l r : IntegerKind} (hl : left.type = .integer (promoted l))
    (hr : right.type = .integer (promoted r)) (hne : promoted l ≠ promoted r) :
    convertIntEops R F (promoted l) (promoted r) left right =
      if commonKind (promoted l) (promoted r) = promoted r then
        (castTo R F left right.type).map (·, right)
      else (castTo R F right left.type).map (left, ·) := by
  unfold convertIntEops
  rw [hl, hr]
  cases l <;> cases r <;> first | exact absurd rfl hne | rfl

/-- An integer operand at the common kind `c`. -/
def toCommon (eop : Ast.ExprOperand) (k c : IntegerKind) : Ast.ExprOperand :=
  if promoted k = c then collapseEnum (promoteInt eop k)
  else castInt (collapseEnum (promoteInt eop k)) (promoted k) c

theorem toCommon_converts (hk : intKind? eop.type = some k) (hj : j ≠ .bool) :
    Converts eop k (toCommon eop k j) j := by
  have hpromote := promoteInt_converts hk
  unfold toCommon
  split
  · rename_i heq
    exact heq ▸ hpromote
  · exact hpromote.trans (castInt_converts hj)

theorem convertIntegerLikeEops_int {l r : IntegerKind} (hl : intKind? left.type = some l)
    (hr : intKind? right.type = some r) :
    convertIntegerLikeEops R F left right =
      .ok (toCommon left l (commonKind (promoted l) (promoted r)),
        toCommon right r (commonKind (promoted l) (promoted r))) := by
  have hlike : (left.type.isIntegerLike && right.type.isIntegerLike) = true := by
    rw [isIntegerLike_iff.mpr ⟨l, hl⟩, isIntegerLike_iff.mpr ⟨r, hr⟩]
    rfl
  have hpl := (promoteInt_converts hl).type
  have hpr := (promoteInt_converts hr).type
  have hkl : intKind? (collapseEnum (promoteInt left l)).type = some (promoted l) := by
    rw [hpl]
    rfl
  have hkr : intKind? (collapseEnum (promoteInt right r)).type = some (promoted r) := by
    rw [hpr]
    rfl
  unfold convertIntegerLikeEops
  rw [hlike, promoteIntEops_int hl, promoteIntEops_int hr]
  simp only [Bool.not_true, Bool.false_eq_true, if_false, bind, Except.bind, hpl, hpr, ne_eq,
    Ty.integer.injEq]
  unfold toCommon
  by_cases heq : promoted l = promoted r
  · have hc : commonKind (promoted l) (promoted r) = promoted r := by
      rcases commonKind_eq (promoted l) (promoted r) with h | h
      · exact h.trans heq
      · exact h
    rw [if_neg (not_not.mpr heq), hc, if_pos heq, if_pos rfl]
  · rw [if_pos heq, convertIntEops_eq hpl hpr heq]
    split
    · rename_i hc
      rw [hpr, castTo_int hkl, hc, if_neg heq, if_pos rfl]
      rfl
    · rename_i hc
      rw [hpl, castTo_int hkr, (commonKind_eq _ _).resolve_right hc, if_pos rfl,
        if_neg (Ne.symm heq)]
      rfl

theorem commonKind_ne_bool (l r : IntegerKind) : commonKind (promoted l) (promoted r) ≠ .bool := by
  rcases commonKind_eq (promoted l) (promoted r) with h | h
  · exact ne_of_eq_of_ne h (promoted_ne_bool l)
  · exact ne_of_eq_of_ne h (promoted_ne_bool r)

/-- The value that a conversion leaves: negative numbers lose their sign where the other operand
is unsigned and not smaller. -/
def converted (resultSize : Nat) (own partner : IntegerKind) (n : Int) : Int :=
  if n < 0 ∧ intKindSigned (promoted partner) = false ∧
      intKindSize (promoted own) ≤ intKindSize (promoted partner) then
    n % 2 ^ (8 * resultSize)
  else n

/-- The common kind is the unsigned partner, or it has all numbers of the promoted kind. -/
theorem commonKind_cases (own partner : IntegerKind) :
    (intKindSigned (promoted partner) = false ∧
        intKindSize (promoted own) ≤ intKindSize (promoted partner) ∧
        commonKind (promoted own) (promoted partner) = promoted partner) ∨
      lowest (commonKind (promoted own) (promoted partner)) ≤ lowest (promoted own) := by
  cases own <;> cases partner <;> decide

theorem commonKind_bounds (own partner : IntegerKind) :
    lowest (commonKind (promoted own) (promoted partner)) ≤ 0 ∧
      highest (promoted own) ≤ highest (commonKind (promoted own) (promoted partner)) := by
  cases own <;> cases partner <;> decide

theorem commonKind_unsigned {own partner : IntegerKind}
    (hsign : intKindSigned (promoted partner) = false)
    (hsize : intKindSize (promoted own) ≤ intKindSize (promoted partner)) :
    intKindSigned (commonKind (promoted own) (promoted partner)) = false := by
  revert hsign hsize
  cases own <;> cases partner <;> decide

theorem wrap_commonKind {own partner : IntegerKind} {n : Int} (h : InRange own n) :
    wrap (commonKind (promoted own) (promoted partner)) n =
      converted (intKindSize (commonKind (promoted own) (promoted partner))) own partner n := by
  have hown := promoted_inRange h
  have hbounds := commonKind_bounds own partner
  unfold converted
  split
  · rename_i hneg
    unfold wrap bitsOf
    rw [commonKind_unsigned hneg.2.1 hneg.2.2, if_neg (by decide), Int.natCast_pow]
    rfl
  · rename_i hkeep
    refine wrap_eq_self ⟨?_, hown.2.trans hbounds.2⟩
    by_cases hn : n < 0
    · rcases commonKind_cases own partner with ⟨hsign, hsize, -⟩ | hlow
      · exact absurd ⟨hn, hsign, hsize⟩ hkeep
      · exact hlow.trans hown.1
    · exact hbounds.1.trans (not_lt.mp hn)

/-! ## Floats -/

/-- The kind that two operands have in common if one of them is a float. -/
def commonFloat (l r : Ty) : Option FloatKind :=
  if l = .float .f64 ∨ r = .float .f64 then some .f64
  else if l = .float .f32 ∨ r = .float .f32 then some .f32
  else none

theorem commonFloat_comm (l r : Ty) : commonFloat l r = commonFloat r l := by
  simp only [commonFloat, or_comm]

theorem isIntegerLike_of_commonFloat {l r : Ty} (hl : l.isArithmetic = true)
    (h : commonFloat l r = none) : l.isIntegerLike = true := by
  cases l with
  | float k => cases k <;> simp [commonFloat] at h; split at h <;> cases h
  | integer k => rfl
  | enum id k => rfl
  | _ => cases hl

/-- Both flags of a constant are the same. -/
structure SameFlags (eop eop' : Ast.ExprOperand) : Prop where
  isConstexpr : eop'.isConstexpr = eop.isConstexpr
  isImm : eop'.isImm = eop.isImm

theorem SameFlags.isConst (h : SameFlags eop eop') : eop'.isConst = eop.isConst := by
  unfold Ast.ExprOperand.isConst
  rw [h.isConstexpr, h.isImm]

theorem SameFlags.refl : SameFlags eop eop := ⟨rfl, rfl⟩

theorem SameFlags.trans (h : SameFlags eop eop') (h' : SameFlags eop' eop'') :
    SameFlags eop eop'' :=
  ⟨h'.isConstexpr.trans h.isConstexpr, h'.isImm.trans h.isImm⟩

theorem promoteInt_flags (eop : Ast.ExprOperand) (k : IntegerKind) :
    SameFlags eop (promoteInt eop k) := by
  unfold promoteInt
  split
  · exact ⟨rfl, rfl⟩
  · exact .refl

theorem collapseEnum_flags (eop : Ast.ExprOperand) : SameFlags eop (collapseEnum eop) := by
  unfold collapseEnum
  split
  · exact ⟨rfl, rfl⟩
  · exact .refl

theorem toCommon_flags (eop : Ast.ExprOperand) (k c : IntegerKind) :
    SameFlags eop (toCommon eop k c) := by
  have hpromote := (promoteInt_flags eop k).trans (collapseEnum_flags (promoteInt eop k))
  unfold toCommon
  split
  · exact hpromote
  · exact hpromote.trans ⟨rfl, rfl⟩

theorem castTo_arith (dst : Ty) (hsrc : eop.type.isArithmetic = true)
    (hdst : dst.isArithmetic = true) :
    ∃ eop', castTo R F eop dst = .ok eop' ∧ eop'.type = dst ∧ SameFlags eop eop' := by
  obtain ⟨imm, hcast⟩ := castEop_arith (R := R) (F := F) hsrc hdst false
  unfold castTo
  rw [hcast]
  exact ⟨_, rfl, rfl, rfl, rfl⟩

theorem convertArithEops_float {k : FloatKind} (hl : left.type.isArithmetic = true)
    (hr : right.type.isArithmetic = true) (h : commonFloat left.type right.type = some k) :
    ∃ l r, convertArithEops R F left right = .ok (.float k, l, r) ∧
      (l.type = .float k ∧ SameFlags left l) ∧ r.type = .float k ∧ SameFlags right r := by
  obtain ⟨l, hcastl, hlt⟩ := castTo_arith (R := R) (F := F) (.float k) hl rfl
  obtain ⟨r, hcastr, hrt⟩ := castTo_arith (R := R) (F := F) (.float k) hr rfl
  unfold commonFloat at h
  unfold convertArithEops
  split at h
  · rename_i h64
    cases h
    by_cases hleft : left.type = .float .f64
    · rw [if_pos hleft, hcastr]
      exact ⟨left, r, by simp [bind, Except.bind, Except.map, hleft, hrt.1], ⟨hleft, .refl⟩, hrt⟩
    · have hright := h64.resolve_left hleft
      rw [if_neg hleft, if_pos hright, hcastl]
      exact ⟨l, right, by simp [bind, Except.bind, Except.map, hright, hlt.1], hlt, hright, .refl⟩
  · rename_i h64
    rw [not_or] at h64
    split at h
    · rename_i h32
      cases h
      rw [if_neg h64.1, if_neg h64.2]
      by_cases hleft : left.type = .float .f32
      · rw [if_pos hleft, hcastr]
        exact ⟨left, r, by simp [bind, Except.bind, Except.map, hleft, hrt.1], ⟨hleft, .refl⟩, hrt⟩
      · have hright := h32.resolve_left hleft
        rw [if_neg hleft, if_pos hright, hcastl]
        exact ⟨l, right, by simp [bind, Except.bind, Except.map, hright, hlt.1], hlt, hright, .refl⟩
    · cases h

theorem convertArithEops_int {l r : IntegerKind} (hl : intKind? left.type = some l)
    (hr : intKind? right.type = some r) :
    convertArithEops R F left right =
      .ok (.integer (commonKind (promoted l) (promoted r)),
        toCommon left l (commonKind (promoted l) (promoted r)),
        toCommon right r (commonKind (promoted l) (promoted r))) := by
  have hlf : ∀ k, left.type ≠ .float k := by
    rcases eq_of_intKind hl with h | ⟨id, h⟩ <;> rw [h] <;> simp
  have hrf : ∀ k, right.type ≠ .float k := by
    rcases eq_of_intKind hr with h | ⟨id, h⟩ <;> rw [h] <;> simp
  have hl' := (toCommon_converts hl (commonKind_ne_bool l r)).type
  have hr' := (toCommon_converts hr (commonKind_ne_bool l r)).type
  unfold convertArithEops
  rw [if_neg (hlf _), if_neg (hrf _), if_neg (hlf _), if_neg (hrf _),
    convertIntegerLikeEops_int hl hr]
  simp [bind, Except.bind, hl', hr']

/-- The conversions succeed, and keep what is constant. -/
theorem convertArithEops_flags (hl : left.type.isArithmetic = true)
    (hr : right.type.isArithmetic = true) :
    ∃ t left' right', convertArithEops R F left right = .ok (t, left', right') ∧
      (left'.type = t ∧ SameFlags left left') ∧ (right'.type = t ∧ SameFlags right right') ∧
      t.isArithmetic = true := by
  cases hcommon : commonFloat left.type right.type with
  | some k =>
    obtain ⟨l, r, hconv, hlt, hrt⟩ := convertArithEops_float (R := R) (F := F) hl hr hcommon
    exact ⟨_, l, r, hconv, hlt, hrt, rfl⟩
  | none =>
    obtain ⟨l, hkl⟩ := isIntegerLike_iff.mp (isIntegerLike_of_commonFloat hl hcommon)
    obtain ⟨r, hkr⟩ := isIntegerLike_iff.mp
      (isIntegerLike_of_commonFloat hr (commonFloat_comm _ _ ▸ hcommon))
    exact ⟨_, _, _, convertArithEops_int hkl hkr,
      ⟨(toCommon_converts hkl (commonKind_ne_bool l r)).type, toCommon_flags ..⟩,
      ⟨(toCommon_converts hkr (commonKind_ne_bool l r)).type, toCommon_flags ..⟩, rfl⟩

theorem Converts.constValue {partner : IntegerKind} (hk : intKind? eop.type = some k)
    (h : Converts eop k eop' (commonKind (promoted k) (promoted partner))) :
    constValue eop' = (constValue eop).map (converted eop'.type.size k partner) := by
  unfold Resolve.constValue
  rw [h.isConst, h.type, hk]
  rcases h.value with hv | hv
  · rw [wrap_commonKind (Scalar.value_inRange eop.imm k)] at hv
    cases eop.isConst with
    | false => rfl
    | true => exact congrArg some hv
  · rw [hv]
    rfl

/-- The usual arithmetic conversions find one type for any two arithmetic operands, in either
order, and keep their values. -/
theorem convertArithEops_usual (R : TypeRels) (F : FloatConv) {left right : Ast.ExprOperand}
    (hl : left.type.isArithmetic = true) (hr : right.type.isArithmetic = true) :
    ∃ t left' right', convertArithEops R F left right = .ok (t, left', right') ∧
      left'.type = t ∧ right'.type = t ∧ (∀ id base, t ≠ .enum id base) ∧
      (∃ left'' right'', convertArithEops R F right left = .ok (t, right'', left'')) ∧
      ∀ l r, intKind? left.type = some l → intKind? right.type = some r →
        constValue left' = (constValue left).map (converted t.size l r) ∧
        constValue right' = (constValue right).map (converted t.size r l) := by
  cases hcommon : commonFloat left.type right.type with
  | some k =>
    obtain ⟨l, r, hconv, hlt, hrt⟩ := convertArithEops_float (R := R) (F := F) hl hr hcommon
    obtain ⟨r', l', hconv', -, -⟩ := convertArithEops_float (R := R) (F := F) hr hl
      (commonFloat_comm _ _ ▸ hcommon)
    refine ⟨_, l, r, hconv, hlt.1, hrt.1, by simp, ⟨l', r', hconv'⟩, ?_⟩
    intro kl kr hkl hkr
    rcases eq_of_intKind hkl with h | ⟨id, h⟩ <;> rcases eq_of_intKind hkr with h' | ⟨id', h'⟩ <;>
      simp [commonFloat, h, h'] at hcommon
  | none =>
    obtain ⟨l, hkl⟩ := isIntegerLike_iff.mp (isIntegerLike_of_commonFloat hl hcommon)
    obtain ⟨r, hkr⟩ := isIntegerLike_iff.mp
      (isIntegerLike_of_commonFloat hr (commonFloat_comm _ _ ▸ hcommon))
    have hl' := toCommon_converts hkl (commonKind_ne_bool l r)
    have hr' := toCommon_converts hkr (commonKind_ne_bool l r)
    have hconv' := convertArithEops_int (R := R) (F := F) hkr hkl
    rw [commonKind_comm] at hconv'
    refine ⟨_, _, _, convertArithEops_int hkl hkr, hl'.type, hr'.type, by simp,
      ⟨_, _, hconv'⟩, ?_⟩
    intro l' r' hkl' hkr'
    obtain rfl := Option.some.inj (hkl.symm.trans hkl')
    obtain rfl := Option.some.inj (hkr.symm.trans hkr')
    have hleft := hl'.constValue hkl
    rw [commonKind_comm] at hr'
    have hright := hr'.constValue hkr
    rw [hl'.type] at hleft
    rw [hr'.type, ← commonKind_comm] at hright
    exact ⟨hleft, hright⟩

/-- The constant `-1` of type `s8` beside a `u64`. -/
theorem convertArithEops_usual_negative :
    ∃ t left' right', convertArithEops .plain .unused ⟨.integer .s8, true, false, true, 255⟩
        ⟨.enum 0 .u64, true, false, true, 5⟩ = .ok (t, left', right') ∧
      left'.type = t ∧ right'.type = t ∧ (∀ id base, t ≠ .enum id base) ∧
      (∃ left'' right'', convertArithEops .plain .unused ⟨.enum 0 .u64, true, false, true, 5⟩
        ⟨.integer .s8, true, false, true, 255⟩ = .ok (t, right'', left'')) ∧
      ∀ l r, intKind? (.integer .s8) = some l → intKind? (.enum 0 .u64) = some r →
        constValue left' = (some (-1)).map (converted t.size l r) ∧
        constValue right' = (some 5).map (converted t.size r l) :=
  convertArithEops_usual .plain .unused rfl rfl

end

end Nibble.Resolve
