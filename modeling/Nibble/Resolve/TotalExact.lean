import Nibble.Resolve.FoldCases

/-!
# When constant evaluation is total

The evaluation of a constant expression ends in a result or in a reported error unless
one of its steps meets a constant that it has no case for: a procedure address that is
converted, a pointer that is negated, two constant expressions of which one has no
immediate, or the smallest `s64` divided by minus one. Emission divides the operands of
a constant `/%` without any guard.
-/

namespace Nibble.Resolve

open Nibble.Lib Nibble.Lib.Fallible
open Nibble.Front (TokenKind)

variable {M : Machine} {op : TokenKind} {left right src dst : Eop} {type : Ty} {forbid : Bool}

/-! ## Safe steps -/

def isProc : Ty → Bool
  | .proc _ => true
  | _ => false

/-- A constant is no procedure, and is not converted to one. -/
def CastSafe (src : Eop) (type : Ty) : Prop :=
  src.isConst = true → isProc src.type = false ∧ isProc type = false

/-- A condition that `bool` is made of. -/
def TruthSafe (M : Machine) (cond : Eop) : Prop :=
  (canConvertEop M.rels cond (.integer .bool) false).success = true → CastSafe cond (.integer .bool)

/-- Of two constant expressions, both are immediates. -/
def BothImm (left right : Eop) : Prop :=
  left.isConstexpr = true → right.isConstexpr = true → left.isImm = true ∧ right.isImm = true

/-- The operands that an operator folds. -/
def folded (op : TokenKind) (left right : Ty) : Bool :=
  match op with
  | .plus | .minus | .asterisk | .div | .eq | .noteq | .gt | .gteq | .lt | .lteq =>
    left.isArithmetic && right.isArithmetic
  | .mod | .and | .or | .caret => left.isIntegerLike && right.isIntegerLike
  | .lshift | .rshift =>
    match left, right with
    | .integer _, .integer _ => true
    | _, _ => false
  | _ => false

/-- The quotient of two constants is one more than the largest `s64`. -/
def Overflows (left right : Eop) : Prop :=
  left.isConst = true ∧ right.isConst = true ∧
    ∃ l r, intKind? left.type = some l ∧ intKind? right.type = some r ∧
      commonKind (promoted l) (promoted r) = .s64 ∧
      wrap .s64 (Scalar.value left.imm l) = lowest .s64 ∧
      wrap .s64 (Scalar.value right.imm r) = -1

/-- The difference of two constant pointers has a logarithm of the size of what they point to. -/
def DifferenceSafe (M : Machine) (left right : Eop) : Prop :=
  ∀ leftBase rightBase, left.type = .ptr leftBase → right.type = .ptr rightBase →
    M.completes leftBase = true → M.completes rightBase = true →
    (Ast.diffBases leftBase rightBase).1 = (Ast.diffBases leftBase rightBase).2 →
    left.isConst = true → right.isConst = true →
    (BitVec.ofNat 64 leftBase.size).toNat ≤ 2 ^ 63

structure BinarySafe (M : Machine) (op : TokenKind) (left right : Eop) : Prop where
  immediates : folded op left.type right.type = true → BothImm left right
  quotient : op = .div ∨ op = .mod → ¬ Overflows left right
  difference : op = .minus → DifferenceSafe M left right
  truth : op = .logicAnd ∨ op = .logicOr → TruthSafe M left ∧
    ((canConvertEop M.rels left (.integer .bool) false).success = true → TruthSafe M right)

/-- A step that is no fault. -/
def Step.Safe (M : Machine) : Step → Prop
  | .const (some type) init => init.isConstexpr = true → init.type.isScalar = true →
    (canConvertEop M.rels init type true).success = true → CastSafe init type
  | .unary .not src => src.isConst = true → src.type.isScalar = true → src.type.isArithmetic = true
  | .binary op left right => BinarySafe M op left right
  | .condition cond => TruthSafe M cond
  | .cast type src => (canCastEop M.rels src type false).success = true → CastSafe src type
  | _ => True

/-! ## Conversions -/

theorem castImm_ok {imm : Scalar} (hsrc : src.type.isScalar = true)
    (h : (canCastEop M.rels src type forbid).success = true) :
    (∃ imm', castImm M.conv src.type type imm = .ok imm') ↔
      isProc src.type = false ∧ isProc type = false := by
  revert h
  unfold canCastEop canConvertEop
  cases type <;> cases ht : src.type <;> rw [ht] at hsrc <;>
    simp_all [Ty.isScalar, Ty.isArithmetic, Ty.isPtrLike, Ty.isBool, castImm, castIntKind, isProc,
      bind, Except.bind, pure, Except.pure]

theorem castEop_total (hsrc : Settled src) :
    (∃ x, castEop M.rels M.conv src type forbid = .ok x) ↔
      ((canCastEop M.rels src type forbid).success = true → CastSafe src type) := by
  unfold castEop
  dsimp only
  cases hsucc : (canCastEop M.rels src type forbid).success with
  | false => exact iff_of_true ⟨_, rfl⟩ (fun h => nomatch h)
  | true =>
    rw [Bool.not_true, if_neg Bool.false_ne_true, forall_prop_of_true rfl]
    unfold CastSafe
    cases hconst : src.isConst with
    | false => exact iff_of_true ⟨_, rfl⟩ (fun h => nomatch h)
    | true =>
      rw [if_pos rfl, forall_prop_of_true rfl, ← castImm_ok (hsrc.scalar hconst) hsucc]
      constructor
      · rintro ⟨x, hx⟩
        obtain ⟨imm, himm, -⟩ := bind_eq_ok.mp hx
        exact ⟨imm, himm⟩
      · rintro ⟨imm, himm⟩
        exact ⟨_, bind_eq_ok.mpr ⟨imm, himm, rfl⟩⟩

theorem convertOrReport_total (hsrc : Settled src) :
    (convertOrReport M src type forbid).Total ↔
      ((canConvertEop M.rels src type forbid).success = true → CastSafe src type) := by
  unfold convertOrReport
  rw [total_bind, total_lift]
  have hrest : ∀ x : CastResult × Eop,
      (if x.1.success then pure x.2 else failure : Eval Eop).Total := by
    intro x
    split
    · exact total_pure
    · exact total_failure
  rw [and_iff_left fun x _ => hrest x]
  unfold convertEop
  dsimp only
  cases hsucc : (canConvertEop M.rels src type forbid).success with
  | false => exact iff_of_true ⟨_, rfl⟩ (fun h => nomatch h)
  | true =>
    have hcast := @castEop_total M _ type forbid hsrc
    rw [canCastEop_of_canConvert hsucc, hsucc] at hcast
    rw [Bool.not_true, if_neg Bool.false_ne_true, ← hcast]
    constructor
    · rintro ⟨x, hx⟩
      obtain ⟨y, hy, -⟩ := bind_eq_ok.mp hx
      exact ⟨y, hy⟩
    · rintro ⟨y, hy⟩
      exact ⟨_, bind_eq_ok.mpr ⟨y, hy, rfl⟩⟩

/-- A conversion that is possible and safe has a result. -/
theorem convertOrReport_success (hsrc : Settled src)
    (hsucc : (canConvertEop M.rels src type forbid).success = true) (hsafe : CastSafe src type) :
    ∃ eop, (convertOrReport M src type forbid).Gives eop := by
  have hcast := @castEop_total M _ type forbid hsrc
  obtain ⟨x, hx⟩ := hcast.mpr fun _ => hsafe
  have hconv : convertEop M.rels M.conv src type forbid =
      .ok (canConvertEop M.rels src type forbid, { x.2 with isLvalue := false }) := by
    unfold convertEop
    dsimp only
    rw [hsucc, Bool.not_true, if_neg Bool.false_ne_true, hx]
    rfl
  refine ⟨{ x.2 with isLvalue := false }, gives_bind.mpr ⟨_, gives_lift.mpr hconv, ?_⟩⟩
  dsimp only
  rw [if_pos hsucc]
  exact gives_pure.mpr rfl

theorem tryWrapCast_total {eop expr : Eop} (hexpr : Settled expr) (hflags : SameFlags expr eop) :
    ∃ expr', tryWrapCast eop expr = .ok expr' := by
  unfold tryWrapCast
  split
  · split
    · rename_i hconst
      have hconstexpr : eop.isConstexpr = true := by
        rw [hflags.isConstexpr]
        exact (Bool.and_eq_true _ _ ▸ hconst :).1
      rw [hexpr.scalar hconst, hconstexpr]
      exact ⟨_, rfl⟩
    · exact ⟨_, rfl⟩
  · exact ⟨_, rfl⟩

theorem resolveExprCast_total (hsrc : Settled src) :
    (resolveExprCast M type src).Total ↔
      ((canCastEop M.rels src type false).success = true → CastSafe src type) := by
  unfold resolveExprCast
  rw [total_bind, total_lift, castEop_total hsrc, and_iff_left]
  rintro ⟨r, eop⟩ hcast
  obtain ⟨hr, hconverted⟩ := castEop_ok (gives_lift.mp hcast)
  dsimp only
  split
  · exact total_failure
  · rename_i hsucc
    rw [Bool.not_eq_true, Bool.not_eq_false'] at hsucc
    have hc := hconverted hsucc
    rw [if_pos (by rw [hc.hasType, hc.isLvalue]; simp)]
    exact total_pure

/-! ## Operators of numbers -/

theorem map_total {ε α β : Type} {x : Except ε α} {f : α → β} :
    (∃ b, x.map f = .ok b) ↔ ∃ a, x = .ok a := by
  constructor
  · rintro ⟨b, hb⟩
    obtain ⟨a, ha, -⟩ := map_eq_ok.mp hb
    exact ⟨a, ha⟩
  · rintro ⟨a, ha⟩
    exact ⟨f a, map_eq_ok.mpr ⟨a, ha, rfl⟩⟩

/-- The operators that `eval_binary_op` has a case for. -/
def isArithOp : TokenKind → Bool
  | .plus | .minus | .asterisk | .div | .mod | .lshift | .rshift | .and | .or | .caret => true
  | _ => false

def isLogicalOp : TokenKind → Bool
  | .logicAnd | .logicOr | .eq | .noteq | .gt | .gteq | .lt | .lteq => true
  | _ => false

theorem divS64_total {f : BitVec 64 → BitVec 64 → BitVec 64} {x y : BitVec 64} :
    (∃ r, divS64 f x y = .ok r) ↔ ¬ (x = BitVec.intMin 64 ∧ y = -1) := by
  unfold divS64
  split
  · rename_i hzero
    refine iff_of_true ⟨0, rfl⟩ ?_
    rintro ⟨-, hy⟩
    rw [hzero] at hy
    cases hy
  · split
    · rename_i htrap
      exact iff_of_false (fun ⟨r, hr⟩ => nomatch hr) (not_not.mpr htrap)
    · rename_i htrap
      exact iff_of_true ⟨_, rfl⟩ htrap

theorem evalBinaryOp64bit_total {U : Undefined} {isSigned : Bool} {x y : Scalar}
    (hop : isArithOp op = true) : (∃ r, evalBinaryOp64bit U op isSigned x y = .ok r) ↔
      (op = .div ∨ op = .mod → ¬ (isSigned = true ∧ x = BitVec.intMin 64 ∧ y = -1)) := by
  have hdiv : (∃ r, divS64 BitVec.sdiv x y = .ok r) ↔ _ := divS64_total
  have hmod : (∃ r, divS64 BitVec.srem x y = .ok r) ↔ _ := divS64_total
  cases isSigned <;> cases op <;>
    simp_all [isArithOp, evalBinaryOp64bit, evalBinaryOpS64, evalBinaryOpU64]

theorem evalBinaryLogicalOp64bit_total {isSigned : Bool} {x y : Scalar}
    (hop : isLogicalOp op = true) : ∃ b, evalBinaryLogicalOp64bit op isSigned x y = .ok b := by
  cases isSigned <;> cases op <;> first | exact ⟨_, rfl⟩ | cases hop

/-- Only the members of `s64` make a quotient that overflows 64 bits. -/
theorem reads_overflow_iff {x y : Scalar} {k : IntegerKind} :
    (intKindSigned k = true ∧ x.read k = BitVec.intMin 64 ∧ y.read k = -1) ↔
      k = .s64 ∧ x.value k = lowest .s64 ∧ y.value k = -1 := by
  by_cases hs : intKindSigned k = true
  · have hx := Scalar.value_eq x k
    have hy := Scalar.value_eq y k
    rw [if_pos hs] at hx hy
    have hmin : (BitVec.intMin 64).toInt = lowest .s64 := by decide
    have hone : (-1 : BitVec 64).toInt = -1 := by decide
    rw [hx, hy, ← hmin, ← hone, BitVec.toInt_inj, BitVec.toInt_inj]
    have hkind : x.read k = BitVec.intMin 64 → k = .s64 := by
      intro hread
      have hlow := (Scalar.value_inRange x k).1
      rw [hx, hread] at hlow
      revert hlow
      cases k <;> first | exact fun _ => rfl | exact fun h => absurd h (by decide)
    constructor
    · rintro ⟨-, hread, hread'⟩
      exact ⟨hkind hread, hread, hread'⟩
    · rintro ⟨-, hread, hread'⟩
      exact ⟨hs, hread, hread'⟩
  · refine iff_of_false (fun h => hs h.1) ?_
    rintro ⟨rfl, -⟩
    exact hs rfl

theorem isArithmetic_cases {t : Ty} (h : t.isArithmetic = true) :
    (∃ k, intKind? t = some k) ∨ ∃ k, t = .float k := by
  cases t with
  | integer k | enum id k => exact .inl ⟨k, rfl⟩
  | float k => exact .inr ⟨k, rfl⟩
  | _ => cases h

theorem evalBinaryOp_int_total {k : IntegerKind} {l r : Scalar} (hk : intKind? type = some k)
    (hop : isArithOp op = true) : (∃ dst, evalBinaryOp M op type l r = .ok dst) ↔
      (op = .div ∨ op = .mod → ¬ (k = .s64 ∧ l.value k = lowest .s64 ∧ r.value k = -1)) := by
  rw [evalBinaryOp_int hk, map_total, evalBinaryOp64bit_total hop, reads_overflow_iff]

theorem evalBinaryOp_float_total {k : FloatKind} {l r : Scalar}
    (hop : op = .plus ∨ op = .minus ∨ op = .asterisk ∨ op = .div) :
    ∃ dst, evalBinaryOp M op (.float k) l r = .ok dst := by
  rcases hop with rfl | rfl | rfl | rfl <;> exact ⟨_, rfl⟩

theorem evalBinaryLogical_total {l r : Scalar} (htype : type.isArithmetic = true)
    (hop : isLogicalOp op = true) : ∃ dst, evalBinaryLogical M op type l r = .ok dst := by
  unfold evalBinaryLogical
  obtain ⟨k, hk⟩ | ⟨k, rfl⟩ := isArithmetic_cases htype
  · rw [if_pos (isIntegerLike_iff.mpr ⟨k, hk⟩), castTo_wide hk, castTo_wide hk]
    obtain ⟨b, hb⟩ := @evalBinaryLogicalOp64bit_total _ type.isSigned (l.read k) (r.read k) hop
    exact ⟨boolConst b, bind_eq_ok.mpr ⟨_, rfl, bind_eq_ok.mpr ⟨_, rfl,
      bind_eq_ok.mpr ⟨b, hb, rfl⟩⟩⟩⟩
  · cases op <;> first | exact ⟨_, rfl⟩ | cases hop

theorem evalUnaryOp_total {val : Scalar} (htype : type.isArithmetic = true)
    (hop : op = .plus ∨ op = .minus ∨ op = .neg ∧ type.isIntegerLike = true) :
    ∃ dst, evalUnaryOp M op type val = .ok dst := by
  obtain ⟨k, hk⟩ | ⟨k, rfl⟩ := isArithmetic_cases htype
  · rw [evalUnaryOp_int hk, map_total]
    rcases hop with rfl | rfl | ⟨rfl, -⟩ <;> exact ⟨_, rfl⟩
  · rcases hop with rfl | rfl | ⟨-, hlike⟩
    · exact ⟨_, rfl⟩
    · exact ⟨_, rfl⟩
    · cases hlike

theorem evalUnaryNot_total {val : Scalar} :
    (∃ dst, evalUnaryNot M type val = .ok dst) ↔ type.isArithmetic = true := by
  cases hk : intKind? type with
  | some k =>
    refine iff_of_true ?_ (isArithmetic_of_intKind hk)
    unfold evalUnaryNot
    rw [if_pos (isIntegerLike_iff.mpr ⟨k, hk⟩), castTo_wide hk]
    exact ⟨_, rfl⟩
  | none =>
    unfold evalUnaryNot
    cases type with
    | integer k | enum id k => cases hk
    | float k => exact iff_of_true ⟨_, rfl⟩ rfl
    | _ => exact iff_of_false (fun ⟨dst, h⟩ => nomatch h) nofun

/-! ## Binary operators -/

theorem isConst_iff {eop : Eop} :
    eop.isConst = true ↔ eop.isConstexpr = true ∧ eop.isImm = true :=
  Eq.to_iff (Bool.and_eq_true _ _)

/-- Operands are folded without a fault if both are immediates that the operator is evaluated at. -/
theorem foldConstexprs_total {eval : Ty → Scalar → Scalar → Except Fault Eop} {unknown : Ty → Ty}
    {left' right' : Eop}
    (hconv : convertArithEops M.rels M.conv left right = .ok (type, left', right'))
    (hl : SameFlags left left') (hr : SameFlags right right') :
    (∃ x, foldConstexprs M eval unknown left right = .ok x) ↔ BothImm left right ∧
      (left.isConst = true → right.isConst = true →
        ∃ dst, eval type left'.imm right'.imm = .ok dst) := by
  unfold foldConstexprs BothImm
  rw [hconv, isConst_iff, isConst_iff]
  simp only [bind, Except.bind, hl.isConstexpr, hr.isConstexpr, hl.isImm, hr.isImm]
  by_cases hexpr : left.isConstexpr = true ∧ right.isConstexpr = true
  · rw [if_pos (by rw [hexpr.1, hexpr.2]; rfl), hexpr.1, hexpr.2]
    by_cases himm : left.isImm = true ∧ right.isImm = true
    · rw [if_pos (by rw [himm.1, himm.2]; rfl), himm.1, himm.2]
      simp only [and_self, forall_const, true_and]
      constructor
      · rintro ⟨x, hx⟩
        obtain ⟨dst, hdst, -⟩ := bind_eq_ok.mp hx
        exact ⟨dst, hdst⟩
      · rintro ⟨dst, hdst⟩
        exact ⟨_, bind_eq_ok.mpr ⟨dst, hdst, rfl⟩⟩
    · rw [if_neg (by rwa [Bool.and_eq_true])]
      exact iff_of_false (fun ⟨x, hx⟩ => nomatch hx) fun h => himm (h.1 rfl rfl)
  · rw [if_neg (by rwa [Bool.and_eq_true])]
    refine iff_of_true ⟨_, rfl⟩ ⟨fun h h' => absurd ⟨h, h'⟩ hexpr, fun h h' => ?_⟩
    exact absurd ⟨h.1, h'.1⟩ hexpr

theorem resolveBinaryLogicalEop_total (hl : left.type.isArithmetic = true)
    (hr : right.type.isArithmetic = true) (hop : isLogicalOp op = true) :
    (∃ x, resolveBinaryLogicalEop M op left right = .ok x) ↔ BothImm left right := by
  obtain ⟨type, l, r, hconv, hl', hr', harith⟩ :=
    convertArithEops_flags (R := M.rels) (F := M.conv) hl hr
  unfold resolveBinaryLogicalEop
  rw [foldConstexprs_total hconv hl'.2 hr'.2]
  exact and_iff_left fun _ _ => evalBinaryLogical_total harith hop

theorem folded_cases (h : folded op left.type right.type = true) (hop : isArithOp op = true)
    (hshift : isShift op = false) :
    (left.type.isArithmetic = true ∧ right.type.isArithmetic = true) ∧
      (left.type.isIntegerLike = true ∧ right.type.isIntegerLike = true ∨
        op = .plus ∨ op = .minus ∨ op = .asterisk ∨ op = .div) := by
  have hlike (h : (left.type.isIntegerLike && right.type.isIntegerLike) = true) :
      (left.type.isArithmetic = true ∧ right.type.isArithmetic = true) ∧
        left.type.isIntegerLike = true ∧ right.type.isIntegerLike = true := by
    have h := Bool.and_eq_true_iff.mp h
    exact ⟨h.imp isArithmetic_of_integerLike isArithmetic_of_integerLike, h⟩
  cases op <;> first
    | exact absurd hop (by decide)
    | exact absurd hshift (by decide)
    | exact ⟨(hlike h).1, .inl (hlike h).2⟩
    | exact ⟨Bool.and_eq_true_iff.mp h, .inr (by decide)⟩

theorem resolveBinaryEop_total (hop : isArithOp op = true) (hshift : isShift op = false)
    (hfold : folded op left.type right.type = true) :
    (∃ x, resolveBinaryEop M op left right = .ok x) ↔
      BothImm left right ∧ (op = .div ∨ op = .mod → ¬ Overflows left right) := by
  obtain ⟨harith, hlike⟩ := folded_cases hfold hop hshift
  obtain ⟨type, l', r', hconv, hl', hr', htype⟩ :=
    convertArithEops_flags (R := M.rels) (F := M.conv) harith.1 harith.2
  unfold resolveBinaryEop
  rw [foldConstexprs_total hconv hl'.2 hr'.2]
  refine and_congr_right fun _ => ?_
  by_cases hints : left.type.isIntegerLike = true ∧ right.type.isIntegerLike = true
  · obtain ⟨l, hkl⟩ := isIntegerLike_iff.mp hints.1
    obtain ⟨r, hkr⟩ := isIntegerLike_iff.mp hints.2
    have hne := commonKind_ne_bool l r
    rw [convertArithEops_int hkl hkr] at hconv
    obtain ⟨rfl, rfl, rfl⟩ : type = _ ∧ l' = _ ∧ r' = _ := by
      injection hconv with hconv
      injection hconv with htype hpair
      injection hpair with hleft hright
      exact ⟨htype.symm, hleft.symm, hright.symm⟩
    have hk : intKind? (.integer (commonKind (promoted l) (promoted r))) =
      some (commonKind (promoted l) (promoted r)) := rfl
    rw [evalBinaryOp_int_total hk hop]
    unfold Overflows
    constructor
    · rintro h hdiv ⟨hlc, hrc, l', r', hl', hr', hs64, hmin, hone⟩
      cases hkl.symm.trans hl'
      cases hkr.symm.trans hr'
      refine h hlc hrc hdiv ⟨hs64, ?_, ?_⟩
      · rw [toCommon_value hkl hne hlc, hs64, hmin]
      · rw [toCommon_value hkr hne hrc, hs64, hone]
    · rintro h hlc hrc hdiv ⟨hs64, hmin, hone⟩
      rw [toCommon_value hkl hne hlc, hs64] at hmin
      rw [toCommon_value hkr hne hrc, hs64] at hone
      exact h hdiv ⟨hlc, hrc, l, r, hkl, hkr, hs64, hmin, hone⟩
  · obtain ⟨k, hcommon⟩ : ∃ k, commonFloat left.type right.type = some k := by
      refine Option.ne_none_iff_exists'.mp fun hnone => hints ?_
      exact ⟨isIntegerLike_of_commonFloat harith.1 hnone,
        isIntegerLike_of_commonFloat harith.2 (commonFloat_comm _ _ ▸ hnone)⟩
    obtain ⟨l'', r'', hconv', -, -⟩ :=
      convertArithEops_float (R := M.rels) (F := M.conv) harith.1 harith.2 hcommon
    cases hconv.symm.trans hconv'
    refine iff_of_true (fun _ _ => evalBinaryOp_float_total (hlike.resolve_left hints)) fun _ h => ?_
    obtain ⟨-, -, l, r, hkl, hkr, -⟩ := h
    exact hints ⟨isIntegerLike_iff.mpr ⟨l, hkl⟩, isIntegerLike_iff.mpr ⟨r, hkr⟩⟩

theorem resolvePtrInt_total {base : Ty} {ptr intEop : Eop} :
    (resolvePtrInt M base ptr intEop).Total := by
  unfold resolvePtrInt
  split
  · intro e he
    cases he
  · exact total_failure

theorem resolvePtrPtr_total {leftBase rightBase : Ty} (hl : left.type = .ptr leftBase)
    (hr : right.type = .ptr rightBase) :
    (resolvePtrPtr M leftBase rightBase left right).Total ↔ DifferenceSafe M left right := by
  have hsafe : DifferenceSafe M left right ↔
      (M.completes leftBase = true → M.completes rightBase = true →
        (Ast.diffBases leftBase rightBase).1 = (Ast.diffBases leftBase rightBase).2 →
        left.isConst = true → right.isConst = true →
        (BitVec.ofNat 64 leftBase.size).toNat ≤ 2 ^ 63) := by
    constructor
    · intro h
      exact h leftBase rightBase hl hr
    · intro h l r hl' hr'
      cases hl.symm.trans hl'
      cases hr.symm.trans hr'
      exact h
  rw [hsafe]
  unfold resolvePtrPtr
  split
  · rename_i hcompletes
    refine iff_of_true total_failure fun h h' => ?_
    rw [h, h'] at hcompletes
    cases hcompletes
  · rename_i hcompletes
    rw [Bool.not_eq_true, Bool.not_eq_false', Bool.and_eq_true] at hcompletes
    rw [hcompletes.1, hcompletes.2, forall_prop_of_true rfl, forall_prop_of_true rfl]
    dsimp only
    split
    · rename_i hbases
      exact iff_of_true total_failure fun h => absurd h hbases
    · rename_i hbases
      rw [not_not] at hbases
      rw [forall_prop_of_true hbases]
      split
      · rename_i hconst
        rw [Bool.and_eq_true] at hconst
        rw [forall_prop_of_true hconst.1, forall_prop_of_true hconst.2, Ast.clp2_eq]
        by_cases hsize : (BitVec.ofNat 64 leftBase.size).toNat ≤ 2 ^ 63
        · rw [if_pos hsize]
          exact iff_of_true total_pure hsize
        · rw [if_neg hsize]
          refine iff_of_false (fun h => h Fault.endless rfl) hsize
      · rename_i hconst
        refine iff_of_true total_pure fun h h' => ?_
        rw [h, h'] at hconst
        exact absurd rfl hconst

theorem resolveComparison_total (hop : isLogicalOp op = true) :
    (resolveComparison M op left right).Total ↔
      ((left.type.isArithmetic && right.type.isArithmetic) = true → BothImm left right) := by
  unfold resolveComparison
  split
  · rename_i harith
    rw [total_lift, forall_prop_of_true harith]
    rw [Bool.and_eq_true] at harith
    exact resolveBinaryLogicalEop_total harith.1 harith.2 hop
  · rename_i harith
    refine iff_of_true ?_ fun h => absurd h harith
    split
    · split
      · exact total_failure
      · dsimp only
        split
        · rw [total_bind, total_lift]
          obtain ⟨b, hb⟩ := @evalBinaryLogicalOp64bit_total _ false left.imm right.imm hop
          exact ⟨⟨b, hb⟩, fun _ _ => total_pure⟩
        · exact total_pure
    · exact total_failure

theorem resolveLogical_total (hop : isLogicalOp op = true) (hl : Settled left)
    (hr : Settled right) : (resolveLogical M op left right).Total ↔ TruthSafe M left ∧
      ((canConvertEop M.rels left (.integer .bool) false).success = true →
        TruthSafe M right) := by
  unfold resolveLogical
  rw [total_bind, convertOrReport_total hl]
  refine and_congr_right fun hsafe => ?_
  have hgives : (∃ l, (convertOrReport M left (.integer .bool) false).Gives l) ↔
      (canConvertEop M.rels left (.integer .bool) false).success = true := by
    constructor
    · rintro ⟨l, hl⟩
      exact (convertOrReport_gives hl).1
    · intro hsucc
      exact convertOrReport_success hl hsucc (hsafe hsucc)
  rw [← hgives, forall_exists_index]
  refine forall_congr' fun l => imp_congr_right fun _ => ?_
  rw [total_bind, convertOrReport_total hr]
  refine and_iff_left fun r _ => ?_
  split
  · rw [total_bind, total_lift]
    obtain ⟨b, hb⟩ := @evalBinaryLogicalOp64bit_total _ false (Scalar.read l.imm .bool) (Scalar.read r.imm .bool) hop
    exact ⟨⟨b, hb⟩, fun _ _ => total_pure⟩
  · split
    · exact total_pure
    · exact total_pure

theorem resolveShift_total (hop : isShift op = true) :
    (resolveShift M op left right).Total ↔
      (folded op left.type right.type = true → BothImm left right) := by
  have hfolded : folded op left.type right.type = true ↔
      ∃ k j, left.type = .integer k ∧ right.type = .integer j := by
    cases op <;> first
      | exact absurd hop (by decide)
      | (cases left.type <;> cases right.type <;> simp [folded])
  rw [hfolded]
  unfold resolveShift
  split
  · rename_i k j hl hr
    rw [forall_prop_of_true ⟨k, j, hl, hr⟩]
    unfold BothImm
    split
    · rename_i hexpr
      rw [Bool.and_eq_true] at hexpr
      rw [forall_prop_of_true hexpr.1, forall_prop_of_true hexpr.2]
      split
      · rename_i himm
        rw [total_bind, total_lift, hl]
        have harith : isArithOp op = true ∧ ¬ (op = .div ∨ op = .mod) := by
          cases op <;> first | exact absurd hop (by decide) | decide
        refine iff_of_true ⟨?_, fun _ _ => total_pure⟩ (Bool.and_eq_true_iff.mp himm)
        exact (evalBinaryOp_int_total rfl harith.1).mpr fun h => absurd h harith.2
      · rename_i himm
        refine iff_of_false (fun h => h Fault.assertion rfl) fun h => himm ?_
        rw [h.1, h.2]
        rfl
    · rename_i hexpr
      refine iff_of_true total_pure fun h h' => absurd ?_ hexpr
      rw [h, h']
      rfl
  · rename_i hnot
    refine iff_of_true total_failure ?_
    rintro ⟨k, j, hl, hr⟩
    exact absurd hr (hnot k j hl)

theorem resolveDivmod_total : (resolveDivmod M left right).Total := by
  unfold resolveDivmod
  split
  · exact total_failure
  · rename_i hlike
    rw [Bool.not_eq_true, Bool.not_eq_false', Bool.and_eq_true] at hlike
    obtain ⟨type, l, r, hconv, -, -, -⟩ := convertArithEops_flags (R := M.rels) (F := M.conv)
      (isArithmetic_of_integerLike hlike.1) (isArithmetic_of_integerLike hlike.2)
    rw [total_bind, total_lift]
    exact ⟨⟨_, hconv⟩, fun _ _ => total_pure⟩

theorem checked_total {check : Bool} {x : Except Fault Operands} :
    (if !check then failure else liftM x : Eval Operands).Total ↔
      (check = true → ∃ r, x = .ok r) := by
  cases check with
  | false => exact iff_of_true total_failure nofun
  | true => exact total_lift.trans ⟨fun h _ => h, fun h => h rfl⟩

theorem sum_total {check : Bool} {x : Except Fault Operands} {other : Eval Operands} :
    (if check then liftM x else other : Eval Operands).Total ↔
      (check = true → ∃ r, x = .ok r) ∧ (check = false → other.Total) := by
  cases check with
  | false => exact ⟨fun h => ⟨nofun, fun _ => h⟩, fun h => h.2 rfl⟩
  | true => exact total_lift.trans ⟨fun h => ⟨fun _ => h, nofun⟩, fun h => h.1 rfl⟩

theorem BinarySafe.arith_iff (hop : isArithOp op = true) (hshift : isShift op = false) :
    BinarySafe M op left right ↔
      (folded op left.type right.type = true → ∃ r, resolveBinaryEop M op left right = .ok r) ∧
        (op = .minus → DifferenceSafe M left right) := by
  have htotal := @resolveBinaryEop_total M _ left right hop hshift
  constructor
  · intro h
    exact ⟨fun hfold => (htotal hfold).mpr ⟨h.immediates hfold, h.quotient⟩, h.difference⟩
  · rintro ⟨h, hdifference⟩
    refine ⟨fun hfold => ((htotal hfold).mp (h hfold)).1, fun hdiv hover => ?_, hdifference, ?_⟩
    · -- operands whose quotient overflows are folded
      obtain ⟨-, -, l, r, hkl, hkr, -⟩ := id hover
      have hfold : folded op left.type right.type = true := by
        rcases hdiv with rfl | rfl
        · exact Bool.and_eq_true_iff.mpr ⟨isArithmetic_of_intKind hkl, isArithmetic_of_intKind hkr⟩
        · exact Bool.and_eq_true_iff.mpr
            ⟨isIntegerLike_iff.mpr ⟨l, hkl⟩, isIntegerLike_iff.mpr ⟨r, hkr⟩⟩
      exact ((htotal hfold).mp (h hfold)).2 hdiv hover
    · rintro (rfl | rfl) <;> cases hop

/-- A binary operator has no fault exactly if its operands are safe. -/
theorem resolveBinary_total (hl : Settled left) (hr : Settled right) :
    (resolveBinary M op left right).Total ↔ BinarySafe M op left right := by
  unfold resolveBinary
  split
  case h_1 =>
    rw [sum_total, BinarySafe.arith_iff rfl rfl]
    refine and_congr Iff.rfl (iff_of_true (fun _ => ?_) nofun)
    split
    · split
      · exact resolvePtrInt_total
      · exact total_failure
    · split
      · exact total_bind.mpr ⟨resolvePtrInt_total, fun _ _ => total_pure⟩
      · exact total_failure
    · exact total_failure
  case h_2 =>
    rw [sum_total, BinarySafe.arith_iff rfl rfl, forall_prop_of_true rfl]
    refine and_congr Iff.rfl ?_
    split
    · rename_i hl hr
      rw [hl, hr]
      exact (forall_prop_of_true rfl).trans (resolvePtrPtr_total hl hr)
    · rename_i hl hnot
      have hsafe : DifferenceSafe M left right :=
        fun _ rightBase _ hr => (hnot rightBase hr).elim
      refine iff_of_true (fun _ => ?_) hsafe
      split
      · exact resolvePtrInt_total
      · exact total_failure
    · rename_i hnot hl
      exact iff_of_true (fun _ => total_failure)
        fun leftBase rightBase hl' hr => (hl leftBase rightBase hl' hr).elim
  case h_3 | h_4 | h_5 | h_6 | h_7 | h_8 =>
    rw [checked_total, BinarySafe.arith_iff rfl rfl]
    exact (and_iff_left nofun).symm
  case h_9 =>
    refine iff_of_true resolveDivmod_total ⟨?_, ?_, ?_, ?_⟩ <;> simp [folded]
  case h_10 | h_11 =>
    rw [resolveShift_total rfl]
    exact ⟨fun h => ⟨h, by simp, by simp, by simp⟩, fun h => h.immediates⟩
  case h_12 | h_13 | h_14 | h_15 | h_16 | h_17 =>
    rw [resolveComparison_total rfl]
    exact ⟨fun h => ⟨h, by simp, by simp, by simp⟩, fun h => h.immediates⟩
  case h_18 | h_19 =>
    rw [resolveLogical_total rfl hl hr]
    exact ⟨fun h => ⟨by simp [folded], by simp, by simp, fun _ => h⟩, fun h => h.truth (by simp)⟩
  case h_20 =>
    refine iff_of_true total_failure ⟨fun hfold => ?_, ?_, ?_, ?_⟩
    · unfold folded at hfold
      split at hfold <;> contradiction
    · rintro (rfl | rfl) <;> contradiction
    · rintro rfl
      contradiction
    · rintro (rfl | rfl) <;> contradiction

theorem resolvePtrInt_flags {base : Ty} {ptr intEop ptr' intEop' : Eop}
    (h : (resolvePtrInt M base ptr intEop).Gives (dst, ptr', intEop')) :
    SameFlags ptr ptr' ∧ SameFlags intEop intEop' := by
  unfold resolvePtrInt at h
  split at h
  · have hsome : Ast.resolvePtrIntArith ptr intEop = some (dst, ptr', intEop') := Except.ok.inj h
    unfold Ast.resolvePtrIntArith at hsome
    split at hsome
    · split at hsome
      · cases hsome
      · cases hsome
        exact ⟨⟨rfl, rfl⟩, rfl, rfl⟩
    · cases hsome
  · cases h

section

variable {left' right' : Eop}

theorem resolvePtrPtr_flags {leftBase rightBase : Ty}
    (h : (resolvePtrPtr M leftBase rightBase left right).Gives (dst, left', right')) :
    SameFlags left left' ∧ SameFlags right right' := by
  unfold resolvePtrPtr at h
  split at h
  · cases h
  · simp only at h
    split at h
    · cases h
    · split at h
      · split at h
        · cases h
        · cases h
          exact ⟨⟨rfl, rfl⟩, rfl, rfl⟩
      · cases h
        exact ⟨⟨rfl, rfl⟩, rfl, rfl⟩

theorem foldConstexprs_flags {eval : Ty → Scalar → Scalar → Except Fault Eop} {unknown : Ty → Ty}
    (hl : left.type.isArithmetic = true) (hr : right.type.isArithmetic = true)
    (h : foldConstexprs M eval unknown left right = .ok (dst, left', right')) :
    SameFlags left left' ∧ SameFlags right right' := by
  obtain ⟨type, hconv, -⟩ := foldConstexprs_ok hl hr h
  obtain ⟨t, l, r, hconv', hl', hr', -⟩ :=
    convertArithEops_flags (R := M.rels) (F := M.conv) hl hr
  cases hconv.symm.trans hconv'
  exact ⟨hl'.2, hr'.2⟩

theorem checked_flags {check : Ty → Bool} (hcheck : ∀ t, check t = true → t.isArithmetic = true)
    (h : Gives (if !(check left.type && check right.type) then failure
      else liftM (resolveBinaryEop M op left right) : Eval Operands) (dst, left', right')) :
    SameFlags left left' ∧ SameFlags right right' := by
  split at h
  · cases h
  · rename_i hcond
    rw [Bool.not_eq_true, Bool.not_eq_false', Bool.and_eq_true] at hcond
    exact foldConstexprs_flags (hcheck _ hcond.1) (hcheck _ hcond.2) (gives_lift.mp h)

theorem sum_flags {other : Eval Operands}
    (h : Gives (if left.type.isArithmetic && right.type.isArithmetic then
      liftM (resolveBinaryEop M op left right) else other) (dst, left', right'))
    (hother : other.Gives (dst, left', right') → SameFlags left left' ∧ SameFlags right right') :
    SameFlags left left' ∧ SameFlags right right' := by
  split at h
  · rename_i harith
    rw [Bool.and_eq_true] at harith
    exact foldConstexprs_flags harith.1 harith.2 (gives_lift.mp h)
  · exact hother h

theorem resolveComparison_flags
    (h : (resolveComparison M op left right).Gives (dst, left', right')) :
    SameFlags left left' ∧ SameFlags right right' := by
  unfold resolveComparison at h
  split at h
  · rename_i harith
    rw [Bool.and_eq_true] at harith
    exact foldConstexprs_flags harith.1 harith.2 (gives_lift.mp h)
  · split at h
    · split at h
      · cases h
      · split at h
        · obtain ⟨b, -, h⟩ := gives_bind.mp h
          cases h
          exact ⟨⟨rfl, rfl⟩, rfl, rfl⟩
        · cases h
          exact ⟨⟨rfl, rfl⟩, rfl, rfl⟩
    · cases h

theorem resolveLogical_flags (h : (resolveLogical M op left right).Gives (dst, left', right')) :
    SameFlags left left' ∧ SameFlags right right' := by
  obtain ⟨l, hl, h⟩ := gives_bind.mp h
  obtain ⟨r, hr, h⟩ := gives_bind.mp h
  have hflags : SameFlags left l ∧ SameFlags right r :=
    ⟨(convertOrReport_gives hl).2.flags, (convertOrReport_gives hr).2.flags⟩
  split at h
  · obtain ⟨b, -, h⟩ := gives_bind.mp h
    cases h
    exact hflags
  · split at h
    · cases h
      exact hflags
    · cases h
      exact hflags

theorem resolveShift_flags (h : (resolveShift M op left right).Gives (dst, left', right')) :
    SameFlags left left' ∧ SameFlags right right' := by
  unfold resolveShift at h
  split at h
  · split at h
    · split at h
      · obtain ⟨dst', -, h⟩ := gives_bind.mp h
        cases h
        exact ⟨.refl, .refl⟩
      · cases h
    · cases h
      exact ⟨.refl, .refl⟩
  · cases h

theorem resolveDivmod_gives (h : (resolveDivmod M left right).Gives (dst, left', right')) :
    (left.type.isIntegerLike = true ∧ right.type.isIntegerLike = true) ∧
      ∃ type, convertArithEops M.rels M.conv left right = .ok (type, left', right') := by
  unfold resolveDivmod at h
  split at h
  · cases h
  · rename_i hlike
    rw [Bool.not_eq_true, Bool.not_eq_false', Bool.and_eq_true] at hlike
    obtain ⟨⟨type, l, r⟩, hconv, h⟩ := gives_bind.mp h
    cases h
    exact ⟨hlike, type, gives_lift.mp hconv⟩

/-- The conversions of a binary operator keep what is constant. -/
theorem resolveBinary_flags (h : (resolveBinary M op left right).Gives (dst, left', right')) :
    SameFlags left left' ∧ SameFlags right right' := by
  unfold resolveBinary at h
  split at h
  case h_1 =>
    refine sum_flags h fun h => ?_
    split at h
    · split at h
      · exact resolvePtrInt_flags h
      · cases h
    · split at h
      · obtain ⟨⟨dst', r, l⟩, hx, h⟩ := gives_bind.mp h
        cases h
        exact (resolvePtrInt_flags hx).symm
      · cases h
    · cases h
  case h_2 =>
    refine sum_flags h fun h => ?_
    split at h
    · exact resolvePtrPtr_flags h
    · split at h
      · exact resolvePtrInt_flags h
      · cases h
    · cases h
  case h_3 | h_4 => exact checked_flags (fun _ h => h) h
  case h_5 | h_6 | h_7 | h_8 => exact checked_flags (fun _ => isArithmetic_of_integerLike) h
  case h_9 =>
    obtain ⟨hlike, type, hconv⟩ := resolveDivmod_gives h
    obtain ⟨t, l, r, hconv', hl', hr', -⟩ := convertArithEops_flags (R := M.rels) (F := M.conv)
      (isArithmetic_of_integerLike hlike.1) (isArithmetic_of_integerLike hlike.2)
    cases hconv.symm.trans hconv'
    exact ⟨hl'.2, hr'.2⟩
  case h_10 | h_11 => exact resolveShift_flags h
  case h_12 | h_13 | h_14 | h_15 | h_16 | h_17 => exact resolveComparison_flags h
  case h_18 | h_19 => exact resolveLogical_flags h
  case h_20 => cases h

end

theorem resolveExprBinary_total (hl : Settled left) (hr : Settled right) :
    (resolveExprBinary M op left right).Total ↔ BinarySafe M op left right := by
  unfold resolveExprBinary
  rw [total_bind, resolveBinary_total hl hr]
  refine and_iff_left ?_
  rintro ⟨dst, left', right'⟩ h
  obtain ⟨hl', hr'⟩ := resolveBinary_flags h
  dsimp only
  rw [total_bind, total_lift]
  refine ⟨tryWrapCast_total hl hl', fun l _ => ?_⟩
  rw [total_bind, total_lift]
  exact ⟨tryWrapCast_total hr hr', fun r _ => total_pure⟩

/-! ## Other expressions -/

theorem decay_flags (src : Eop) : SameFlags src (decay src) := by
  unfold decay
  split
  · exact ⟨rfl, rfl⟩
  · exact ⟨rfl, rfl⟩
  · exact .refl

theorem resolveUnaryEop_total (harith : src.type.isArithmetic = true)
    (hop : op = .plus ∨ op = .minus ∨ op = .neg ∧ src.type.isIntegerLike = true) :
    ∃ dst src', resolveUnaryEop M op src = .ok (dst, src') ∧ SameFlags src src' := by
  obtain ⟨src', hpromote, hflags, harith'⟩ := promoteIntEops_flags (M := M) harith
  have hop' : op = .plus ∨ op = .minus ∨ op = .neg ∧ src'.type.isIntegerLike = true := by
    refine hop.imp_right fun h => h.imp_right fun h => ⟨h.1, ?_⟩
    obtain ⟨k, hk⟩ := isIntegerLike_iff.mp h.2
    rw [promoteIntEops_int hk] at hpromote
    cases hpromote
    unfold promoteInt
    split
    · rfl
    · exact h.2
  obtain ⟨dst, hdst⟩ := @evalUnaryOp_total M _ _ src'.imm harith' hop'
  unfold resolveUnaryEop
  rw [hpromote]
  cases hconst : src'.isConst with
  | false => exact ⟨_, _, bind_eq_ok.mpr ⟨src', rfl, by rw [hconst]; rfl⟩, hflags⟩
  | true =>
    refine ⟨dst, src', bind_eq_ok.mpr ⟨src', rfl, ?_⟩, hflags⟩
    rw [hconst, if_pos rfl]
    exact bind_eq_ok.mpr ⟨dst, hdst, rfl⟩

/-- What a step of `resolve_expr_unary` with `tryWrapCast` needs. -/
theorem total_unary {x : Eval (Eop × Eop)} (hsrc : Settled src)
    (hflags : ∀ dst src', x.Gives (dst, src') → SameFlags src src') :
    (x >>= fun r => liftM (tryWrapCast r.2 src) >>= fun _ => pure r.1 : Eval Eop).Total ↔
      x.Total := by
  rw [total_bind, and_iff_left]
  rintro ⟨dst, src'⟩ h
  rw [total_bind, total_lift]
  exact ⟨tryWrapCast_total hsrc (hflags dst src' h), fun _ _ => total_pure⟩

theorem resolveUnary_flags {src' : Eop} (h : (resolveUnary M op src).Gives (dst, src')) :
    SameFlags src src' := by
  have heop (hop : op = .plus ∨ op = .minus ∨ op = .neg ∧ src.type.isIntegerLike = true)
      (harith : src.type.isArithmetic = true)
      (h : (liftM (resolveUnaryEop M op src) : Eval (Eop × Eop)).Gives (dst, src')) :
      SameFlags src src' := by
    obtain ⟨d, s, hok, hflags⟩ := resolveUnaryEop_total (M := M) harith hop
    cases hok.symm.trans (gives_lift.mp h)
    exact hflags
  unfold resolveUnary at h
  split at h
  case h_1 | h_2 =>
    split at h
    · rename_i harith
      exact heop (by simp) harith h
    · cases h
  case h_3 =>
    split at h
    · rename_i hlike
      exact heop (.inr (.inr ⟨rfl, hlike⟩)) (isArithmetic_of_integerLike hlike) h
    · cases h
  case h_4 =>
    split at h
    · cases h
    · split at h
      · obtain ⟨y, -, h⟩ := gives_bind.mp h
        cases h
        exact .refl
      · cases h
        exact .refl
  case h_5 =>
    split at h
    · cases h
      exact decay_flags src
    · cases h
  case h_6 => cases h

/-- Only the negation of a pointer or procedure that is a constant is a fault. -/
theorem resolveUnary_total : (resolveUnary M op src).Total ↔ Step.Safe M (.unary op src) := by
  have heop (hop : op = .plus ∨ op = .minus ∨ op = .neg ∧ src.type.isIntegerLike = true)
      (harith : src.type.isArithmetic = true) :
      (liftM (resolveUnaryEop M op src) : Eval (Eop × Eop)).Total := by
    obtain ⟨d, s, hok, -⟩ := resolveUnaryEop_total (M := M) harith hop
    exact total_lift.mpr ⟨_, hok⟩
  unfold resolveUnary
  split
  case h_1 | h_2 =>
    refine iff_of_true ?_ trivial
    split
    · rename_i harith
      exact heop (by simp) harith
    · exact total_failure
  case h_3 =>
    refine iff_of_true ?_ trivial
    split
    · rename_i hlike
      exact heop (.inr (.inr ⟨rfl, hlike⟩)) (isArithmetic_of_integerLike hlike)
    · exact total_failure
  case h_4 =>
    show _ ↔ (src.isConst = true → src.type.isScalar = true → src.type.isArithmetic = true)
    split
    · rename_i hscalar
      rw [Bool.not_eq_true'] at hscalar
      refine iff_of_true total_failure fun _ h => ?_
      rw [hscalar] at h
      cases h
    · rename_i hscalar
      rw [Bool.not_eq_true, Bool.not_eq_false'] at hscalar
      rw [hscalar]
      split
      · rename_i hconst
        rw [hconst, total_bind, total_lift, evalUnaryNot_total]
        exact ⟨fun h _ _ => h.1, fun h => ⟨h rfl rfl, fun _ _ => total_pure⟩⟩
      · rename_i hconst
        exact iff_of_true total_pure fun h => absurd h hconst
  case h_5 =>
    refine iff_of_true ?_ trivial
    split
    · exact total_pure
    · exact total_failure
  case h_6 =>
    refine iff_of_true total_failure ?_
    unfold Step.Safe
    split <;> simp_all

theorem convertBranches_total {thenExpr elseExpr : Eop} :
    (convertBranches M thenExpr elseExpr).Total := by
  unfold convertBranches
  split
  · rename_i harith
    rw [Bool.and_eq_true] at harith
    obtain ⟨type, t, e, hconv, -⟩ :=
      convertArithEops_flags (R := M.rels) (F := M.conv) harith.1 harith.2
    exact total_lift.mpr ⟨_, hconv⟩
  · split
    · split
      · exact total_failure
      · exact total_pure
    · split
      · exact total_pure
      · exact total_failure

theorem resolveExprTernary_total {cond condOp thenExpr elseExpr : Eop}
    (hcond : Settled cond) (hflags : SameFlags cond condOp) (hthen : Settled thenExpr)
    (helse : Settled elseExpr) :
    (resolveExprTernary M cond condOp thenExpr elseExpr).Total := by
  unfold resolveExprTernary
  refine total_bind.mpr ⟨convertBranches_total, ?_⟩
  rintro ⟨type, thenOp, elseOp⟩ h
  obtain ⟨-, ht, he⟩ := convertBranches_gives h
  refine total_bind.mpr ⟨total_lift.mpr (tryWrapCast_total hcond hflags), fun _ _ => ?_⟩
  refine total_bind.mpr ⟨total_lift.mpr (tryWrapCast_total hthen ht), fun _ _ => ?_⟩
  refine total_bind.mpr ⟨total_lift.mpr (tryWrapCast_total helse he), fun _ _ => ?_⟩
  split
  · exact total_pure
  · exact total_pure

theorem resolveDeclConst_total {type : Ty} (hsrc : Settled src) :
    (resolveDeclConst M (some type) src).Total ↔ Step.Safe M (.const (some type) src) := by
  unfold resolveDeclConst
  show _ ↔ (src.isConstexpr = true → src.type.isScalar = true →
    (canConvertEop M.rels src type true).success = true → CastSafe src type)
  cases hexpr : src.isConstexpr with
  | false => exact iff_of_true total_failure nofun
  | true =>
    cases hscalar : src.type.isScalar with
    | false => exact iff_of_true total_failure fun _ h => nomatch h
    | true =>
      rw [forall_prop_of_true rfl, forall_prop_of_true rfl, ← convertOrReport_total hsrc]
      refine total_bind.trans (and_iff_left fun eop h => ?_)
      have hflags := (convertOrReport_gives h).2.flags
      exact total_bind.mpr ⟨total_lift.mpr (tryWrapCast_total hsrc hflags), fun _ _ => total_pure⟩

/-- The value of an enum item is an integer, and so is what it is converted to. -/
theorem resolveEnumValue_total {id : Nat} {base : IntegerKind} (hsrc : Settled src) :
    (resolveEnumValue M id base src).Total := by
  unfold resolveEnumValue
  split
  · exact total_failure
  · split
    · exact total_failure
    · rename_i hlike
      rw [Bool.not_eq_true, Bool.not_eq_false'] at hlike
      split
      · exact total_failure
      · have hsafe : CastSafe src (.enum id base) := by
          intro _
          obtain ⟨k, hk⟩ := isIntegerLike_iff.mp hlike
          rcases eq_of_intKind hk with h | ⟨id', h⟩ <;> exact ⟨by rw [h]; rfl, rfl⟩
        refine total_bind.mpr ⟨(convertOrReport_total hsrc).mpr fun _ => hsafe, fun eop h => ?_⟩
        have hflags := (convertOrReport_gives h).2.flags
        exact total_bind.mpr
          ⟨total_lift.mpr (tryWrapCast_total hsrc hflags), fun _ _ => total_pure⟩

theorem resolveEnumNext_total : (resolveEnumNext M src).Total := by
  unfold resolveEnumNext
  split
  · rename_i id base htype
    split
    · exact total_failure
    · have hk : intKind? src.type = some base := by
        rw [htype]
        rfl
      exact total_lift.mpr ((evalBinaryOp_int_total hk rfl).mpr fun h => by cases h <;> contradiction)
  · exact total_failure

theorem resolveLiteral_total {lit : Literal} : (resolveLiteral lit).Total := by
  unfold resolveLiteral
  split
  · split
    · exact total_pure
    · split
      · exact total_failure
      · exact total_pure
  all_goals exact total_pure

/-- A step has no fault exactly if it is safe. -/
theorem Step.total_iff {s : Step} (hin : s.Inputs Settled) : (s.exec M).Total ↔ s.Safe M := by
  cases s with
  | literal lit => exact iff_of_true resolveLiteral_total trivial
  | const typespec init =>
    cases typespec with
    | some type => exact resolveDeclConst_total hin
    | none =>
      refine iff_of_true ?_ trivial
      show (resolveDeclConst M none init).Total
      unfold resolveDeclConst
      split
      · exact total_failure
      · split
        · exact total_failure
        · exact total_pure
  | enumValue id base value => exact iff_of_true (resolveEnumValue_total hin) trivial
  | enumNext prev => exact iff_of_true resolveEnumNext_total trivial
  | unary op src =>
    refine (total_unary hin fun dst src' h => ?_).trans resolveUnary_total
    exact resolveUnary_flags h
  | addressOf isGlobal src =>
    refine iff_of_true ?_ trivial
    show (resolveAddressOf isGlobal src).Total
    unfold resolveAddressOf
    split
    · exact total_pure
    · exact total_failure
  | binary op left right =>
    refine (total_bind.trans (and_iff_left fun _ _ => total_pure)).trans ?_
    exact resolveExprBinary_total hin.1 hin.2
  | condition cond => exact convertOrReport_total hin
  | ternary cond condOp thenExpr elseExpr =>
    refine iff_of_true (total_bind.mpr ⟨?_, fun _ _ => total_pure⟩) trivial
    exact resolveExprTernary_total hin.1.1 hin.1.2 hin.2.1 hin.2.2
  | cast type src => exact resolveExprCast_total hin
  | bitCast type src =>
    refine iff_of_true ?_ trivial
    show (resolveExprBitCast type src).Total
    unfold resolveExprBitCast
    split
    · exact total_failure
    · split
      · exact total_failure
      · exact total_pure

theorem Step.output_settled {s : Step} (hin : s.Inputs Settled) (h : (s.exec M).Gives dst) :
    s.Output Settled dst := by
  cases s with
  | condition cond => exact (convertOrReport_gives h).2.flags
  | _ => exact Step.exec_settled hin h

theorem resolveExpr_total {expr : Expr} :
    (resolveExpr M expr).Total ↔ expr.AllSteps M (Step.Safe M) := by
  rw [total_resolveExpr]
  exact (Expr.steps_fed M Settled expr).reached_iff (fun s hin => Step.total_iff hin)
    fun s o hin _ ho => Step.output_settled hin ho

theorem resolveExpr_settled {expr : Expr} (h : (resolveExpr M expr).Gives dst) : Settled dst := by
  rw [resolveExpr_eq_run] at h
  exact (Expr.steps_fed M Settled expr).run_gives (fun s o hin ho => Step.output_settled hin ho) h

/-! ## Emission -/

/-- The division of two immediates: `_s64` or `_u64`, without a guard. -/
def emitDivmod (left right : Eop) : Except Fault (Option (Scalar × Scalar)) :=
  if left.isConst && right.isConst then
    if left.type.isSigned then
      if right.imm = 0 ∨ left.imm = BitVec.intMin 64 ∧ right.imm = -1 then .error .trap
      else .ok (some (left.imm.sdiv right.imm, left.imm.srem right.imm))
    else if right.imm = 0 then .error .trap
    else .ok (some (left.imm / right.imm, left.imm % right.imm))
  else .ok none

/-- `IR_emit_stmt_if`, where the condition is a constant: which branch is emitted. -/
def emitStmtIf (cond : Eop) : Except Fault (Option Bool) :=
  if cond.isConst then
    if cond.type.isScalar then .ok (some (cond.imm ≠ 0)) else .error .assertion
  else .ok none

/-- `IR_emit_expr_ternary`, unless the conditional is a constant itself. -/
def emitExprTernary (expr cond : Eop) : Except Fault (Option Bool) :=
  if expr.isConst then .ok none
  else if cond.isConstexpr then
    if cond.isImm then .ok (some (Scalar.read cond.imm .bool ≠ 0)) else .error .assertion
  else .ok none

/-- Where constant expressions are evaluated. -/
inductive Site where
  | expr (e : Expr)
  | condition (cond : Expr)
  | divmod (left right : Expr)
  | ternary (cond thenExpr elseExpr : Expr)

/-- The evaluation at a site, with the emission of what is left of it. -/
def Site.eval (M : Machine) : Site → Eval Unit
  | .expr e => do
    let _ ← resolveExpr M e
  | .condition cond => do
    let cond ← resolveExpr M cond
    let condOp ← convertOrReport M cond (.integer .bool) false
    let cond' ← liftM (tryWrapCast condOp cond)
    let _ ← liftM (emitStmtIf cond')
  | .divmod left right => do
    let left ← resolveExpr M left
    let right ← resolveExpr M right
    let (_, left', right') ← resolveExprBinary M .divmod left right
    let _ ← liftM (emitDivmod left' right')
  | .ternary cond thenExpr elseExpr => do
    let cond ← resolveExpr M cond
    let condOp ← convertOrReport M cond (.integer .bool) false
    let thenExpr ← resolveExpr M thenExpr
    let elseExpr ← resolveExpr M elseExpr
    let (dst, cond') ← resolveExprTernary M cond condOp thenExpr elseExpr
    let _ ← liftM (emitExprTernary dst cond')

/-- The operands of a constant `/%` can be divided at 64 bits, after their conversion. -/
def DivmodSafe (left right : Eop) : Prop :=
  left.isConst = true → right.isConst = true →
    ∀ l r, intKind? left.type = some l → intKind? right.type = some r →
      let c := commonKind (promoted l) (promoted r)
      (toCommon right r c).imm ≠ 0 ∧
        ¬ (intKindSigned c = true ∧ (toCommon left l c).imm = BitVec.intMin 64 ∧
          (toCommon right r c).imm = -1)

/-- A condition that is a constant expression is an immediate, or the conditional a constant. -/
def TernarySafe (cond thenExpr elseExpr : Eop) : Prop :=
  cond.isConstexpr = true → cond.isImm = true ∨ thenExpr.isConst = true ∧ elseExpr.isConst = true

def Site.Safe (M : Machine) : Site → Prop
  | .expr e => e.AllSteps M (Step.Safe M)
  | .condition cond => cond.AllSteps M (Step.Safe M) ∧
    ∀ condEop, (resolveExpr M cond).Gives condEop → TruthSafe M condEop
  | .divmod left right => left.AllSteps M (Step.Safe M) ∧
    ∀ leftEop, (resolveExpr M left).Gives leftEop → right.AllSteps M (Step.Safe M) ∧
      ∀ rightEop, (resolveExpr M right).Gives rightEop → DivmodSafe leftEop rightEop
  | .ternary cond thenExpr elseExpr => cond.AllSteps M (Step.Safe M) ∧
    ∀ condEop, (resolveExpr M cond).Gives condEop → TruthSafe M condEop ∧
      ∀ condOp, (convertOrReport M condEop (.integer .bool) false).Gives condOp →
        thenExpr.AllSteps M (Step.Safe M) ∧
          ∀ thenEop, (resolveExpr M thenExpr).Gives thenEop → elseExpr.AllSteps M (Step.Safe M) ∧
            ∀ elseEop, (resolveExpr M elseExpr).Gives elseEop →
              (∃ r, (resolveExprTernary M condEop condOp thenEop elseEop).Gives r) →
              TernarySafe condEop thenEop elseEop

section

variable {eop expr expr' : Eop}

theorem tryWrapCast_eq (h : tryWrapCast eop expr = .ok expr') :
    expr'.type = eop.type ∧ SameFlags eop expr' := by
  unfold tryWrapCast at h
  split at h
  · split at h
    · split at h
      · cases h
        exact ⟨rfl, .refl⟩
      · cases h
    · cases h
      exact ⟨rfl, rfl, rfl⟩
  · cases h
    exact ⟨rfl, rfl, rfl⟩

theorem condition_total {cond : Eop} (hcond : Settled cond) :
    (convertOrReport M cond (.integer .bool) false >>= fun condOp =>
      liftM (tryWrapCast condOp cond) >>= fun cond' =>
        liftM (emitStmtIf cond') >>= fun _ => pure () : Eval Unit).Total ↔ TruthSafe M cond := by
  rw [total_bind, convertOrReport_total hcond]
  refine and_iff_left fun condOp h => ?_
  obtain ⟨-, hconverted⟩ := convertOrReport_gives h
  refine total_bind.mpr ⟨total_lift.mpr (tryWrapCast_total hcond hconverted.flags), fun cond' h => ?_⟩
  obtain ⟨htype, -⟩ := tryWrapCast_eq (gives_lift.mp h)
  refine total_bind.mpr ⟨total_lift.mpr ?_, fun _ _ => total_pure⟩
  unfold emitStmtIf
  rw [htype, hconverted.hasType]
  cases cond'.isConst <;> exact ⟨_, rfl⟩

theorem emitDivmod_total :
    (∃ r, emitDivmod left right = .ok r) ↔ (left.isConst = true → right.isConst = true →
      right.imm ≠ 0 ∧ ¬ (left.type.isSigned = true ∧ left.imm = BitVec.intMin 64 ∧
        right.imm = -1)) := by
  unfold emitDivmod
  cases left.isConst with
  | false => exact iff_of_true ⟨_, rfl⟩ nofun
  | true =>
    cases right.isConst with
    | false => exact iff_of_true ⟨_, rfl⟩ fun _ h => nomatch h
    | true =>
      rw [forall_prop_of_true rfl, forall_prop_of_true rfl, Bool.and_self, if_pos rfl]
      cases left.type.isSigned with
      | false =>
        rw [if_neg Bool.false_ne_true]
        split
        · rename_i hzero
          exact iff_of_false (fun ⟨r, hr⟩ => nomatch hr) fun h => h.1 hzero
        · rename_i hzero
          exact iff_of_true ⟨_, rfl⟩ ⟨hzero, fun h => nomatch h.1⟩
      | true =>
        rw [if_pos rfl]
        split
        · rename_i htrap
          refine iff_of_false (fun ⟨r, hr⟩ => nomatch hr) fun h => ?_
          exact htrap.elim h.1 fun hover => h.2 ⟨rfl, hover⟩
        · rename_i htrap
          rw [not_or] at htrap
          exact iff_of_true ⟨_, rfl⟩ ⟨htrap.1, fun h => htrap.2 h.2⟩

theorem promoted_commonKind (l r : IntegerKind) :
    promoted (commonKind (promoted l) (promoted r)) = commonKind (promoted l) (promoted r) := by
  cases l <;> cases r <;> rfl

/-- An operand of a division keeps the bits that its conversion leaves. -/
theorem tryWrapCast_common {k c : IntegerKind} (hk : intKind? expr.type = some k)
    (hconst : expr.isConst = true) (hc : promoted c = c)
    (h : tryWrapCast (toCommon expr k c) expr = .ok expr') :
    expr'.imm = (toCommon expr k c).imm := by
  have hne : c ≠ .bool := hc ▸ promoted_ne_bool c
  have himm := tryWrapCast_imm h
  rw [(toCommon_converts hk hne).type] at himm
  by_cases htype : expr.type = .integer c
  · rw [if_pos htype] at himm
    have hkc : k = c := by
      rw [htype] at hk
      exact (Option.some.inj hk).symm
    subst hkc
    have hsize : ¬ intKindSize k < 4 := by
      intro hlt
      unfold promoted at hc
      rw [if_pos hlt] at hc
      subst hc
      exact absurd hlt (by decide)
    have hself : toCommon expr k k = expr := by
      unfold toCommon promoteInt collapseEnum
      rw [if_pos hc, if_neg hsize, htype]
    rw [himm, hself]
  · rwa [if_neg htype, if_pos hconst] at himm

/-- The operands of `/%` on integers: as they are converted. -/
theorem resolveExprBinary_divmod {l r c : IntegerKind} (hl : Settled left) (hr : Settled right)
    (hkl : intKind? left.type = some l) (hkr : intKind? right.type = some r)
    (hc : c = commonKind (promoted l) (promoted r)) :
    ∃ dst left' right', (resolveExprBinary M .divmod left right).Gives (dst, left', right') ∧
      tryWrapCast (toCommon left l c) left = .ok left' ∧
      tryWrapCast (toCommon right r c) right = .ok right' := by
  subst hc
  have hlike : (left.type.isIntegerLike && right.type.isIntegerLike) = true := by
    rw [isIntegerLike_iff.mpr ⟨l, hkl⟩, isIntegerLike_iff.mpr ⟨r, hkr⟩]
    rfl
  obtain ⟨left', hleft⟩ := tryWrapCast_total hl
    (toCommon_flags left l (commonKind (promoted l) (promoted r)))
  obtain ⟨right', hright⟩ := tryWrapCast_total hr
    (toCommon_flags right r (commonKind (promoted l) (promoted r)))
  obtain ⟨dst, hdivmod⟩ : ∃ dst, (resolveDivmod M left right).Gives
      (dst, toCommon left l (commonKind (promoted l) (promoted r)),
        toCommon right r (commonKind (promoted l) (promoted r))) := by
    unfold resolveDivmod
    rw [hlike, Bool.not_true, if_neg Bool.false_ne_true]
    exact ⟨_, gives_bind.mpr ⟨_, gives_lift.mpr (convertArithEops_int hkl hkr), gives_pure.mpr rfl⟩⟩
  refine ⟨dst, left', right', gives_bind.mpr ⟨_, hdivmod, ?_⟩, hleft, hright⟩
  exact gives_bind.mpr ⟨left', gives_lift.mpr hleft,
    gives_bind.mpr ⟨right', gives_lift.mpr hright, gives_pure.mpr rfl⟩⟩

theorem divmod_total (hl : Settled left) (hr : Settled right) :
    (resolveExprBinary M .divmod left right >>= fun x =>
      liftM (emitDivmod x.2.1 x.2.2) >>= fun _ => pure () : Eval Unit).Total ↔
      DivmodSafe left right := by
  have hsafe : BinarySafe M .divmod left right := by
    refine ⟨?_, ?_, ?_, ?_⟩ <;> simp [folded]
  rw [total_bind, and_iff_right ((resolveExprBinary_total hl hr).mpr hsafe)]
  by_cases hints : left.type.isIntegerLike = true ∧ right.type.isIntegerLike = true
  · obtain ⟨l, hkl⟩ := isIntegerLike_iff.mp hints.1
    obtain ⟨r, hkr⟩ := isIntegerLike_iff.mp hints.2
    obtain ⟨dst, left', right', hgives, hleft, hright⟩ :=
      resolveExprBinary_divmod (M := M) hl hr hkl hkr rfl
    have hone : (∀ x, (resolveExprBinary M .divmod left right).Gives x →
        (liftM (emitDivmod x.2.1 x.2.2) >>= fun _ => pure () : Eval Unit).Total) ↔
        ∃ r, emitDivmod left' right' = .ok r := by
      rw [← total_lift]
      constructor
      · intro h
        exact (total_bind.mp (h _ hgives)).1
      · intro h x hx
        rw [hx.unique hgives]
        exact total_bind.mpr ⟨h, fun _ _ => total_pure⟩
    have hpc := promoted_commonKind l r
    obtain ⟨hlt, hlf⟩ := tryWrapCast_eq hleft
    obtain ⟨-, hrf⟩ := tryWrapCast_eq hright
    have hlc := ((toCommon_flags left l (commonKind (promoted l) (promoted r))).trans hlf).isConst
    have hrc := ((toCommon_flags right r (commonKind (promoted l) (promoted r))).trans hrf).isConst
    rw [hone, emitDivmod_total, hlc, hrc, hlt,
      (toCommon_converts hkl (commonKind_ne_bool l r)).type]
    refine forall_congr' fun hleftc => forall_congr' fun hrightc => ?_
    rw [tryWrapCast_common hkl hleftc hpc hleft, tryWrapCast_common hkr hrightc hpc hright]
    constructor
    · intro h l' r' hl' hr'
      cases hkl.symm.trans hl'
      cases hkr.symm.trans hr'
      exact h
    · intro h
      exact h l r hkl hkr
  · refine iff_of_true (fun x hx => ?_) fun _ _ l r hkl hkr => ?_
    · obtain ⟨⟨d, l, r⟩, hdivmod, -⟩ := gives_bind.mp hx
      exact absurd (resolveDivmod_gives hdivmod).1 hints
    · exact absurd ⟨isIntegerLike_iff.mpr ⟨l, hkl⟩, isIntegerLike_iff.mpr ⟨r, hkr⟩⟩ hints

theorem resolveExprTernary_cond {cond condOp thenExpr elseExpr cond' : Eop}
    (h : (resolveExprTernary M cond condOp thenExpr elseExpr).Gives (dst, cond')) :
    SameFlags condOp cond' := by
  obtain ⟨x, -, h⟩ := gives_bind.mp h
  obtain ⟨c, hc, h⟩ := gives_bind.mp h
  obtain ⟨t, -, h⟩ := gives_bind.mp h
  obtain ⟨e, -, h⟩ := gives_bind.mp h
  have hflags := (tryWrapCast_eq (gives_lift.mp hc)).2
  dsimp only at h
  split at h
  · cases h
    exact hflags
  · cases h
    exact hflags

theorem ternary_total {cond condOp thenExpr elseExpr : Eop} (hcond : Settled cond)
    (hflags : SameFlags cond condOp) (hthen : Settled thenExpr) (helse : Settled elseExpr) :
    (resolveExprTernary M cond condOp thenExpr elseExpr >>= fun x =>
      liftM (emitExprTernary x.1 x.2) >>= fun _ => pure () : Eval Unit).Total ↔
      ((∃ r, (resolveExprTernary M cond condOp thenExpr elseExpr).Gives r) →
        TernarySafe cond thenExpr elseExpr) := by
  rw [total_bind, and_iff_right (resolveExprTernary_total hcond hflags hthen helse),
    forall_exists_index]
  refine forall_congr' fun ⟨dst, cond'⟩ => imp_congr_right fun hx => ?_
  rw [total_bind, and_iff_left fun _ _ => total_pure, total_lift]
  have hcond' := hflags.trans (resolveExprTernary_cond hx)
  unfold emitExprTernary
  dsimp only
  rw [hcond'.isConstexpr, hcond'.isImm]
  unfold TernarySafe
  obtain ⟨type, thenOp, elseOp, -, ⟨-, htc, hec, rfl⟩ | ⟨hnot, isConstexpr, rfl⟩⟩ :=
    resolveExprTernary_gives hx
  · exact iff_of_true ⟨none, if_pos rfl⟩ fun _ => .inr ⟨htc, hec⟩
  · rw [if_neg (by unfold Ast.ExprOperand.isConst; simp)]
    cases hexpr : cond.isConstexpr with
    | false => exact iff_of_true ⟨none, rfl⟩ nofun
    | true =>
      rw [hflags.isConstexpr, hexpr] at hnot
      rw [if_pos rfl, forall_prop_of_true rfl]
      cases himm : cond.isImm with
      | true => exact iff_of_true ⟨_, rfl⟩ (.inl rfl)
      | false =>
        refine iff_of_false (fun ⟨r, hr⟩ => nomatch hr) ?_
        rintro (h | h)
        · cases h
        · exact hnot ⟨rfl, h⟩

end

/-- The evaluation at a site has no fault exactly if the site is safe. -/
theorem site_total_iff (M : Machine) (site : Site) : (site.eval M).Total ↔ site.Safe M := by
  cases site with
  | expr e => exact (total_bind.trans (and_iff_left fun _ _ => total_pure)).trans resolveExpr_total
  | condition cond =>
    refine total_bind.trans (and_congr resolveExpr_total ?_)
    exact forall_congr' fun c => imp_congr_right fun hc => condition_total (resolveExpr_settled hc)
  | divmod left right =>
    refine total_bind.trans (and_congr resolveExpr_total ?_)
    refine forall_congr' fun l => imp_congr_right fun hl => ?_
    refine total_bind.trans (and_congr resolveExpr_total ?_)
    exact forall_congr' fun r => imp_congr_right fun hr =>
      divmod_total (resolveExpr_settled hl) (resolveExpr_settled hr)
  | ternary cond thenExpr elseExpr =>
    refine total_bind.trans (and_congr resolveExpr_total ?_)
    refine forall_congr' fun c => imp_congr_right fun hc => ?_
    have hcond := resolveExpr_settled hc
    refine total_bind.trans (and_congr (convertOrReport_total hcond) ?_)
    refine forall_congr' fun o => imp_congr_right fun ho => ?_
    refine total_bind.trans (and_congr resolveExpr_total ?_)
    refine forall_congr' fun t => imp_congr_right fun ht => ?_
    refine total_bind.trans (and_congr resolveExpr_total ?_)
    refine forall_congr' fun e => imp_congr_right fun he => ?_
    exact ternary_total hcond (convertOrReport_gives ho).2.flags (resolveExpr_settled ht)
      (resolveExpr_settled he)

/-- `(-9223372036854775807 - 1) / -1` and `1 /% 0` trap, and `!null` fails an assertion. -/
theorem evaluation_faults :
    let lit n := Expr.literal (.int n .dec .none)
    ((Site.expr (.binary .div (.binary .minus (.unary .minus (lit 9223372036854775807)) (lit 1))
        (.unary .minus (lit 1)))).eval .plain).outcome = .error .trap ∧
      ((Site.divmod (lit 1) (lit 0)).eval .plain).outcome = .error .trap ∧
      ((Site.expr (.unary .not (.literal .nullLit))).eval .plain).outcome = .error .assertion :=
  ⟨rfl, rfl, rfl⟩

end Nibble.Resolve
