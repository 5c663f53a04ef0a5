import Nibble.Resolve.FoldCases

/-!
# Normalised constants

Consumers of a constant read its 64-bit view or the member of its type. The two agree
exactly as long as each step of the evaluation gives a number that fits the type of
its result: a cast writes the member and leaves the bits above it.
-/

namespace Nibble.Resolve

open Nibble.Lib Nibble.Lib.Fallible
open Nibble.Front (TokenKind)

variable {M : Machine} {op : TokenKind} {left right src dst : Eop}

/-! ## When a result fits -/

/-- The bits that a float is converted to. -/
def convertedFloat (F : FloatConv) (imm : Scalar) (src : FloatKind) (dst : IntegerKind) : Scalar :=
  match dst with
  | .bool => if F.isZero src imm then 0 else 1
  | dst => F.toInt src imm dst

/-- A constant that is cast fits: its number has the same 64 bits at the type, and the bits of a
float above the member repeat the sign of what it is converted to. -/
def CastFits (M : Machine) (src : Eop) (type : Ty) : Prop :=
  src.isConst = true → ∀ d, viewKind? type = some d →
    (∀ k, viewKind? src.type = some k → FitsIn d (Scalar.value src.imm k)) ∧
      ∀ k, src.type = .float k →
        Scalar.Above src.imm d (Scalar.sign (convertedFloat M.conv src.imm k d) d)

/-- A constant whose bits are taken for another type fits. -/
def BitCastFits (src : Eop) (type : Ty) : Prop :=
  src.isConst = true → ∀ d, viewKind? type = some d →
    (∀ k, viewKind? src.type = some k → FitsIn d (Scalar.value src.imm k)) ∧
      ∀ k, src.type = .float k → Scalar.Above src.imm d (Scalar.sign src.imm d)

/-- The number of a binary operator fits the type of the operands after their conversion, and that
of a shift the type of the left operand. -/
def BinaryFits (M : Machine) (op : TokenKind) (left right : Eop) : Prop :=
  if isShift op then
    ∀ k, left.type = .integer k → FitsIn k (binaryNumber M.undef (intKindSigned k) op
      (Scalar.value left.imm k) (Scalar.value right.imm k))
  else
    ∀ l r, intKind? left.type = some l → intKind? right.type = some r →
      let c := commonKind (promoted l) (promoted r)
      FitsIn c (binaryNumber M.undef (intKindSigned c) op
        (wrap c (Scalar.value left.imm l)) (wrap c (Scalar.value right.imm r)))

/-- The branch of a conditional that is taken fits the type that the branches have in common. -/
def TernaryFits (condOp thenExpr elseExpr : Eop) : Prop :=
  ∀ l r, intKind? thenExpr.type = some l → intKind? elseExpr.type = some r →
    FitsIn (commonKind (promoted l) (promoted r))
      (if !condOp.isImm || decide (Scalar.read condOp.imm .bool ≠ 0) then
        Scalar.value thenExpr.imm l
      else Scalar.value elseExpr.imm r)

/-- What a step computes from constants fits the type of its result. -/
def Step.Fits (M : Machine) : Step → Prop
  | .literal (.int value .char _) => FitsIn .s8 value.toInt
  | .literal _ | .const none _ | .enumValue .. | .addressOf .. | .condition _ => True
  | .const (some type) init => init.type ≠ type → CastFits M init type
  | .enumNext prev =>
    ∀ id base, prev.type = .enum id base → FitsIn base (Scalar.value prev.imm base + 1)
  | .unary op src =>
    isUnaryNumeric op = true ∧ src.isConst = true → ∀ k, intKind? src.type = some k →
      FitsIn (promoted k) (unaryNumber op (Scalar.value src.imm k))
  | .binary op left right => Folds op left right → BinaryFits M op left right
  | .ternary _ condOp thenExpr elseExpr =>
    condOp.isConstexpr = true ∧ thenExpr.isConst = true ∧ elseExpr.isConst = true →
      TernaryFits condOp thenExpr elseExpr
  | .cast type src => CastFits M src type
  | .bitCast type src => BitCastFits src type

/-- If a step has a result, it fits. -/
def Step.Keeps (M : Machine) (s : Step) : Prop := ∀ eop, (s.exec M).Gives eop → s.Fits M

/-- What a step leaves is normalised. -/
def Step.LeavesNormal (M : Machine) (s : Step) : Prop :=
  ∀ eop, (s.exec M).Gives eop → s.Output Normalised eop

/-! ## Constants -/

theorem normalised_const {type : Ty} {imm : Scalar} : Normalised (opFromConst type imm) ↔
    ∀ k, viewKind? type = some k → Scalar.Normal imm k :=
  ⟨fun h k hk => h rfl k hk, fun h _ k hk => h k hk⟩

theorem normal_zero (k : IntegerKind) : Scalar.Normal 0 k := by
  cases k <;> decide

/-- An operand that is settled and normalised. -/
def Sound (eop : Eop) : Prop := Settled eop ∧ Normalised eop

theorem Sound.normal (h : Sound src) {k : IntegerKind} (hk : viewKind? src.type = some k) :
    Scalar.Normal src.imm k := by
  cases hconst : src.isConst with
  | true => exact h.2 hconst k hk
  | false =>
    rw [h.1.cleared hconst]
    exact normal_zero k

theorem viewKind_cases {t : Ty} {k : IntegerKind} (h : viewKind? t = some k) :
    t = .integer k ∨ (∃ id, t = .enum id k) ∨ ∃ base, t = .ptr base ∧ k = .u64 := by
  unfold viewKind? at h
  split at h
  · exact .inl (congrArg Ty.integer (Option.some.inj h))
  · exact .inr (.inl ⟨_, congrArg (Ty.enum _) (Option.some.inj h)⟩)
  · exact .inr (.inr ⟨_, rfl, (Option.some.inj h).symm⟩)
  · cases h

theorem castIntKind_eq {t : Ty} {k : IntegerKind} (h : castIntKind t = .ok k) :
    viewKind? t = some k := by
  unfold castIntKind at h
  split at h <;> cases h <;> rfl

theorem floatIntCast_eq (F : FloatConv) (imm : Scalar) (src : FloatKind) (dst : IntegerKind) :
    floatIntCast F imm src dst = imm.write dst (convertedFloat F imm src dst) := by
  cases dst <;> rfl

/-- A cast to a type with a 64-bit view starts from a float or from such a type. -/
theorem castImm_cases {F : FloatConv} {t u : Ty} {d : IntegerKind} {imm imm' : Scalar}
    (hd : viewKind? u = some d) (h : castImm F t u imm = .ok imm') :
    (∃ k, t = .float k ∧ imm' = imm.write d (convertedFloat F imm k d)) ∨
      ∃ k, viewKind? t = some k ∧ imm' = intCast imm k d := by
  have hint : ∀ t u : Ty, viewKind? u = some d →
      (do
        let src ← castIntKind t
        let dst ← castIntKind u
        return intCast imm src dst : Except Fault Scalar) = .ok imm' →
      ∃ k, viewKind? t = some k ∧ imm' = intCast imm k d := by
    intro t u hd h
    obtain ⟨k, hk, h⟩ := bind_eq_ok.mp h
    obtain ⟨j, hj, h⟩ := bind_eq_ok.mp h
    obtain rfl := Option.some.inj (hd.symm.trans (castIntKind_eq hj))
    exact ⟨k, castIntKind_eq hk, (Except.ok.inj h).symm⟩
  have hfloat : ∀ k j, .ok (floatIntCast F imm k j) = (.ok imm' : Except Fault Scalar) → d = j →
      imm' = imm.write d (convertedFloat F imm k d) := by
    rintro k j h rfl
    rw [← floatIntCast_eq]
    exact (Except.ok.inj h).symm
  unfold castImm at h
  split at h
  · cases hd
  · rename_i k j
    exact .inl ⟨k, rfl, hfloat k j h (Option.some.inj hd).symm⟩
  · rename_i k _ j
    exact .inl ⟨k, rfl, hfloat k j h (Option.some.inj hd).symm⟩
  · cases hd
  · cases hd
  · exact .inr (hint _ _ hd h)

/-- A conversion leaves a normalised operand exactly if what is converted fits. -/
theorem Converted.normalised_iff {type : Ty} (h : Converted M src type dst) (hin : Sound src) :
    Normalised dst ↔ CastFits M src type := by
  unfold Normalised CastFits
  rw [h.flags.isConst, h.hasType]
  refine forall_congr' fun hconst => forall_congr' fun d => forall_congr' fun hd => ?_
  obtain ⟨k, htype, himm⟩ | ⟨k, hk, himm⟩ := castImm_cases hd (h.const hconst)
  · rw [himm, Scalar.normal_write, htype]
    constructor
    · intro habove
      exact ⟨nofun, fun j hj => by cases hj; exact habove⟩
    · intro hfits
      exact hfits.2 k rfl
  · rw [himm, (hin.2 hconst k hk).intCast_iff]
    constructor
    · intro hfits
      refine ⟨fun j hj => ?_, fun j hj => ?_⟩
      · rw [hk] at hj
        cases hj
        exact hfits
      · rw [hj] at hk
        cases hk
    · intro hfits
      exact hfits.1 k hk

theorem bitsOf_of_size {t u : Ty} {d : IntegerKind} (ht : t.isScalar = true)
    (hview : viewKind? t = none) (hfloat : ∀ k, t ≠ .float k) (hd : viewKind? u = some d)
    (hsize : t.size = u.size) : bitsOf d = 64 := by
  have hptr : t.size = ptrSize := by
    cases t with
    | proc id => rfl
    | float k => exact absurd rfl (hfloat k)
    | integer k | enum id k | ptr base => cases hview
    | _ => cases ht
  rw [hptr] at hsize
  obtain rfl | ⟨id, rfl⟩ | ⟨base, rfl, rfl⟩ := viewKind_cases hd
  · exact congrArg (8 * ·) hsize.symm
  · exact congrArg (8 * ·) hsize.symm
  · rfl

/-- Bits that are taken for another type are normalised exactly if they fit. -/
theorem bitCast_normalised_iff {type : Ty} (hsize : src.type.size = type.size) (hin : Sound src) :
    Normalised { src with type := type } ↔ BitCastFits src type := by
  refine forall_congr' fun hconst => forall_congr' fun d => forall_congr' fun hd => ?_
  have hconst : src.isConst = true := hconst
  show Scalar.Normal src.imm d ↔ _
  cases hk : viewKind? src.type with
  | some k =>
    rw [(hin.2 hconst k hk).iff_fitsIn]
    constructor
    · intro hfits
      refine ⟨fun j hj => ?_, fun j hj => ?_⟩
      · cases hj
        exact hfits
      · rw [hj] at hk
        cases hk
    · intro hfits
      exact hfits.1 k rfl
  | none =>
    by_cases hfloat : ∃ k, src.type = .float k
    · obtain ⟨k, htype⟩ := hfloat
      rw [Scalar.normal_iff_above]
      constructor
      · intro habove
        exact ⟨nofun, fun _ _ => habove⟩
      · intro hfits
        exact hfits.2 k htype
    · rw [not_exists] at hfloat
      have hbits := bitsOf_of_size (hin.1.scalar hconst) hk hfloat hd hsize
      exact iff_of_true (Scalar.normal_of_bits hbits src.imm)
        ⟨nofun, fun k htype => absurd htype (hfloat k)⟩

/-! ## Literals, declarations and enum items -/

theorem getIntLitType_mem {value : BitVec 64} {k : IntegerKind} : ∀ {ks : List IntegerKind},
    getIntLitType value ks = some k → k ∈ ks ∧ value.toNat ≤ intKindMax k
  | [], h => nomatch h
  | [j], h => by
    unfold getIntLitType at h
    split at h
    · cases h
    · rename_i hle
      cases h
      exact ⟨List.mem_singleton_self _, Nat.not_lt.mp hle⟩
  | j :: j' :: ks, h => by
    unfold getIntLitType at h
    split at h
    · obtain ⟨hmem, hle⟩ := getIntLitType_mem h
      exact ⟨List.mem_cons_of_mem _ hmem, hle⟩
    · rename_i hle
      cases h
      exact ⟨List.mem_cons_self, Nat.not_lt.mp hle⟩

theorem litTypes_mem {rep : Front.TokenIntRep} {suffix : Front.TokenIntSuffix} {k : IntegerKind}
    (h : k ∈ litTypes rep suffix) : k = .s32 ∨ k = .s64 ∨ k = .u32 ∨ k = .u64 := by
  revert h
  cases rep <;> cases suffix <;> cases k <;> decide

/-- A literal is in the range of its type. -/
theorem normal_literal {value : Scalar} {k : IntegerKind}
    (hk : k = .s32 ∨ k = .s64 ∨ k = .u32 ∨ k = .u64) (hle : value.toNat ≤ intKindMax k) :
    value.Normal k := by
  rw [Scalar.normal_iff, wideKind, ← Scalar.view_eq_value]
  rcases hk with rfl | rfl | rfl | rfl <;>
    simp only [intKindMax, InRange, lowest, highest, Scalar.view, intKindSigned, bitsOf,
      intKindSize, if_true, if_false, Bool.false_eq_true] at hle ⊢
  · rw [BitVec.toInt_eq_toNat_cond]
    split <;> omega
  · rw [BitVec.toInt_eq_toNat_cond]
    split <;> omega
  · omega
  · omega

theorem resolveLiteral_normalised {lit : Literal} (h : (resolveLiteral lit).Gives dst) :
    Normalised dst ↔ Step.Fits M (.literal lit) := by
  cases lit with
  | int value rep suffix =>
    rw [resolveLiteral] at h
    split at h
    · rename_i hrep
      cases h
      subst hrep
      rw [normalised_const]
      have hvalue : Scalar.Normal value .s8 ↔ FitsIn .s8 value.toInt := by
        conv_lhs => rw [← BitVec.ofInt_toInt (x := value)]
        exact Scalar.normal_ofInt
      exact ⟨fun hn => hvalue.mp (hn .s8 rfl), fun hf k hk => by cases hk; exact hvalue.mpr hf⟩
    · rename_i hrep
      have hfits : Step.Fits M (.literal (.int value rep suffix)) := by
        cases rep <;> first | exact absurd rfl hrep | trivial
      refine iff_of_true ?_ hfits
      split at h
      · cases h
      · rename_i k hk
        cases h
        obtain ⟨hmem, hle⟩ := getIntLitType_mem hk
        refine normalised_const.mpr fun j hj => ?_
        cases hj
        exact normal_literal (litTypes_mem hmem) hle
  | float kind value =>
    cases h
    exact iff_of_true (normalised_const.mpr fun k hk => by cases hk) trivial
  | boolLit val =>
    cases h
    exact iff_of_true (Plain.truth val).normalised trivial
  | nullLit =>
    cases h
    exact iff_of_true (Plain.address .void 0).normalised trivial
  | usize value =>
    cases h
    refine iff_of_true (normalised_const.mpr fun k hk => ?_) trivial
    cases hk
    exact Scalar.normal_of_bits rfl value
  | enumFirst id base =>
    cases h
    exact iff_of_true (normalised_const.mpr fun k _ => normal_zero k) trivial
  | operand type isConstexpr isLvalue =>
    cases h
    exact iff_of_true (Plain.unknown ..).normalised trivial

theorem resolveDeclConst_normalised {typespec : Option Ty} (hin : Sound src)
    (h : (resolveDeclConst M typespec src).Gives dst) :
    Normalised dst ↔ Step.Fits M (.const typespec src) := by
  obtain ⟨rfl, -, rfl⟩ | ⟨type, eop, imm, rfl, -, hconverted, rfl, himm⟩ := resolveDeclConst_gives h
  · exact iff_of_true (normalised_const.mpr fun k hk => hin.normal hk) trivial
  · by_cases htype : src.type = type
    · rw [if_pos htype] at himm
      subst himm
      exact iff_of_true (normalised_const.mpr fun k hk => hin.normal (htype ▸ hk))
        fun hne => absurd htype hne
    · rw [if_neg htype] at himm
      cases hconst : src.isConst with
      | true =>
        rw [if_pos hconst] at himm
        have hiff := hconverted.normalised_iff hin
        unfold Normalised at hiff
        rw [hconverted.flags.isConst, hconverted.hasType] at hiff
        rw [normalised_const, himm]
        constructor
        · intro hn _
          exact hiff.mp fun _ => hn
        · intro hf
          exact hiff.mpr (hf htype) hconst
      | false =>
        rw [hconst] at himm
        subst himm
        refine iff_of_true (normalised_const.mpr fun k _ => normal_zero k) fun _ hc => ?_
        rw [hconst] at hc
        cases hc

theorem inRange_of_valueInIntRange {value : Scalar} {k : IntegerKind}
    (h : valueInIntRange value k = true) : InRange k (value.view (intKindSigned k)) := by
  have hbounds : lowest k = intKindMin k ∧ (intKindMax k : Int) ≤ highest k := by
    cases k <;> decide
  unfold valueInIntRange at h
  rw [Bool.and_eq_true, decide_eq_true_eq, decide_eq_true_eq] at h
  exact ⟨hbounds.1 ▸ h.1, h.2.trans hbounds.2⟩

/-- The value of an enum item is checked at 64 bits before it is cast. -/
theorem resolveEnumValue_normalised {id : Nat} {base : IntegerKind} (hin : Sound src)
    (h : (resolveEnumValue M id base src).Gives dst) : Normalised dst := by
  obtain ⟨hlike, hrange, eop, hconverted, rfl⟩ := resolveEnumValue_gives h
  obtain ⟨k, hk⟩ := isIntegerLike_iff.mp hlike
  have hnormal := hin.normal (viewKind_of_intKind hk)
  have hbase : Scalar.Normal src.imm base := by
    rw [Scalar.normal_iff, wideKind, ← Scalar.view_eq_value]
    exact inRange_of_valueInIntRange hrange
  refine normalised_const.mpr fun j hj => ?_
  cases hj
  cases hconst : src.isConst with
  | true =>
    have himm := hconverted.const hconst
    rw [@castImm_int M.conv _ _ k base hk rfl] at himm
    rw [← Except.ok.inj himm]
    exact hnormal.intCast_iff.mpr (hnormal.iff_fitsIn.mp hbase)
  | false =>
    rw [hconverted.other hconst, hin.1.cleared hconst]
    exact normal_zero _

theorem resolveEnumNext_normalised (h : (resolveEnumNext M src).Gives dst) :
    Normalised dst ↔ Step.Fits M (.enumNext src) := by
  obtain ⟨id, base, htype, heval⟩ := resolveEnumNext_gives h
  obtain ⟨imm, rfl⟩ := evalBinaryOp_const heval
  have hone : Scalar.value 1 base = 1 := by cases base <;> decide
  have hk : intKind? src.type = some base := by
    rw [htype]
    rfl
  have hnormal := evalBinaryOp_normal hk rfl heval
  rw [hone] at hnormal
  rw [normalised_const, htype]
  constructor
  · intro hn id' base' htype'
    cases htype.symm.trans htype'
    exact hnormal.mp (hn base rfl)
  · intro hf k hk'
    cases hk'
    exact hnormal.mpr (hf id base htype)

/-! ## Operators -/

/-- Promotion keeps the number, and the bits of a normalised constant. -/
theorem promoteInt_spec {k : IntegerKind} (hk : intKind? src.type = some k)
    (hconst : src.isConst = true) : intKind? (promoteInt src k).type = some (promoted k) ∧
      Scalar.value (promoteInt src k).imm (promoted k) = Scalar.value src.imm k := by
  have hrange := Scalar.value_inRange src.imm k
  unfold promoteInt promoted
  split
  · rename_i hsize
    refine ⟨rfl, ?_⟩
    unfold castInt
    rw [if_pos hconst, Scalar.value_intCast _ _ (by decide), wrap_eq_self]
    have hpromoted := promoted_inRange hrange
    rwa [promoted, if_pos hsize] at hpromoted
  · exact ⟨hk, rfl⟩

theorem opFromConst_normal {type : Ty} {imm : Scalar} {k : IntegerKind} (hk : intKind? type = some k) :
    Normalised (opFromConst type imm) ↔ Scalar.Normal imm k := by
  rw [normalised_const]
  constructor
  · intro h
    exact h k (viewKind_of_intKind hk)
  · intro h j hj
    obtain rfl := Option.some.inj ((viewKind_of_intKind hk).symm.trans hj)
    exact h

/-- An arithmetic type that is no integer has no 64-bit view. -/
theorem viewKind_of_arithmetic {t : Ty} (h : t.isArithmetic = true) (hk : intKind? t = none) :
    viewKind? t = none := by
  cases t with
  | integer k | enum id k => cases hk
  | ptr base => cases h
  | _ => rfl

theorem UnaryCase.normalised_iff (h : UnaryCase M op src dst) :
    Normalised dst ↔ Step.Fits M (.unary op src) := by
  cases h with
  | arith src' hop hsrc hpromote heval =>
    obtain ⟨imm, rfl⟩ := evalUnaryOp_const heval
    have hne : op ≠ .not := by
      rintro rfl
      cases hop
    cases hk : intKind? src.type with
    | some k =>
      rw [promoteIntEops_int hk] at hpromote
      cases hpromote
      obtain ⟨hpk, hvalue⟩ := promoteInt_spec hk hsrc.1
      have hnormal := evalUnaryOp_normal hpk hne heval
      rw [hvalue] at hnormal
      rw [opFromConst_normal hpk, show Scalar.Normal imm (promoted k) ↔ _ from hnormal]
      constructor
      · intro hf _ j hj
        cases hk.symm.trans hj
        exact hf
      · intro hf
        exact hf ⟨hop, hsrc.1⟩ k hk
    | none =>
      have hfits : Step.Fits M (.unary op src) := fun _ k hk' => nomatch hk.symm.trans hk'
      refine iff_of_true (normalised_const.mpr fun k hk' => ?_) hfits
      -- a float is not promoted
      unfold promoteIntEops at hpromote
      cases ht : src.type with
      | float j =>
        rw [ht] at hpromote
        cases hpromote
        rw [ht] at hk'
        cases hk'
      | integer j | enum id j =>
        rw [ht] at hk
        cases hk
      | _ =>
        have harith := hsrc.2
        rw [ht] at harith
        cases harith
  | plain hplain hfold =>
    exact iff_of_true hplain.normalised fun hf => absurd hf hfold

/-- Arithmetic operands of which one is no integer are converted to a float. -/
theorem viewKind_of_common {type : Ty} {left' right' : Eop}
    (hl : left.type.isArithmetic = true) (hr : right.type.isArithmetic = true)
    (hconv : convertArithEops M.rels M.conv left right = .ok (type, left', right'))
    (hnone : intKind? left.type = none ∨ intKind? right.type = none) : viewKind? type = none := by
  cases hcommon : commonFloat left.type right.type with
  | some k =>
    obtain ⟨l, r, hconv', -, -⟩ := convertArithEops_float (R := M.rels) (F := M.conv) hl hr hcommon
    cases hconv.symm.trans hconv'
    rfl
  | none =>
    obtain ⟨l, hkl⟩ := isIntegerLike_iff.mp (isIntegerLike_of_commonFloat hl hcommon)
    obtain ⟨r, hkr⟩ := isIntegerLike_iff.mp
      (isIntegerLike_of_commonFloat hr (commonFloat_comm _ _ ▸ hcommon))
    rcases hnone with h | h
    · cases hkl.symm.trans h
    · cases hkr.symm.trans h

theorem folded_normalised {type : Ty} {l r : Scalar} {k : IntegerKind}
    (hk : intKind? type = some k) (hnum : isNumeric op = true)
    (heval : evalBinaryOp M op type l r = .ok dst) : Normalised dst ↔
      FitsIn k (binaryNumber M.undef (intKindSigned k) op (l.value k) (r.value k)) := by
  have hnormal := evalBinaryOp_normal hk hnum heval
  obtain ⟨imm, rfl⟩ := evalBinaryOp_const heval
  exact (opFromConst_normal hk).trans hnormal

/-- Two integer constants are folded at their common kind. -/
theorem arith_normalised {l r c : IntegerKind} (hkl : intKind? left.type = some l)
    (hkr : intKind? right.type = some r) (hc : c = commonKind (promoted l) (promoted r))
    (hl : left.isConst = true) (hr : right.isConst = true) (hop : isShift op = false)
    (heval : evalBinaryOp M op (.integer c) (toCommon left l c).imm (toCommon right r c).imm =
      .ok dst) :
    Normalised dst ↔ Step.Fits M (.binary op left right) := by
  have hne : c ≠ .bool := hc ▸ commonKind_ne_bool l r
  cases hnum : isNumeric op with
  | false =>
    have hbits := evalBinaryOp_bitwise rfl hnum heval
    obtain ⟨imm, rfl⟩ := evalBinaryOp_const heval
    exact iff_of_true ((opFromConst_normal rfl).mpr hbits)
      fun hf => absurd hf (not_folds_of_not_numeric hnum)
  | true =>
    have hfolded := folded_normalised rfl hnum heval
    rw [toCommon_value hkl hne hl, toCommon_value hkr hne hr] at hfolded
    have hfold : Folds op left right :=
      ⟨hnum, ⟨hl, isIntegerLike_iff.mpr ⟨l, hkl⟩⟩, hr, isIntegerLike_iff.mpr ⟨r, hkr⟩⟩
    rw [hfolded]
    show _ ↔ (Folds op left right → BinaryFits M op left right)
    unfold BinaryFits
    rw [hop, if_neg Bool.false_ne_true]
    subst hc
    constructor
    · intro hf _ l' r' hl' hr'
      cases hkl.symm.trans hl'
      cases hkr.symm.trans hr'
      exact hf
    · intro hf
      exact hf hfold l r hkl hkr

theorem BinaryCase.normalised_iff (h : BinaryCase M op left right dst) :
    Normalised dst ↔ Step.Fits M (.binary op left right) := by
  cases h with
  | arith type left' right' hop hl hr hconv heval =>
    by_cases hnone : intKind? left.type = none ∨ intKind? right.type = none
    · have hview := viewKind_of_common hl.2 hr.2 hconv hnone
      obtain ⟨imm, rfl⟩ := evalBinaryOp_const heval
      refine iff_of_true (normalised_const.mpr fun k hk => nomatch hview.symm.trans hk) fun hf => ?_
      rcases hnone with h | h
      · exact absurd hf.left.2 (mt isIntegerLike_iff.mp (by simp [h]))
      · exact absurd hf.right.2 (mt isIntegerLike_iff.mp (by simp [h]))
    · rw [not_or, ← ne_eq, ← ne_eq, Option.ne_none_iff_exists', Option.ne_none_iff_exists'] at hnone
      obtain ⟨⟨l, hkl⟩, r, hkr⟩ := hnone
      rw [convertArithEops_int hkl hkr] at hconv
      obtain ⟨rfl, rfl, rfl⟩ : type = _ ∧ left' = _ ∧ right' = _ := by
        injection hconv with hconv
        injection hconv with htype hpair
        injection hpair with hleft hright
        exact ⟨htype.symm, hleft.symm, hright.symm⟩
      exact arith_normalised hkl hkr rfl hl.1 hr.1 hop heval
  | shift k hop hl hr heval =>
    have hk : intKind? left.type = some k := by
      rw [hl.2]
      rfl
    have hnum : isNumeric op = true := by
      cases op <;> first | rfl | cases hop
    have hfold : Folds op left right := ⟨hnum, ⟨hl.1, isIntegerLike_iff.mpr ⟨k, hk⟩⟩, hr⟩
    rw [folded_normalised hk hnum heval]
    show _ ↔ (Folds op left right → BinaryFits M op left right)
    unfold BinaryFits
    rw [hop, if_pos rfl]
    constructor
    · intro hf _ j hj
      cases hl.2.symm.trans hj
      exact hf
    · intro hf
      exact hf hfold k hl.2
  | plain hplain hfold =>
    exact iff_of_true hplain.normalised fun hf => absurd hf hfold

/-! ## Conditionals and steps -/

theorem fitsIn_of_inRange {k : IntegerKind} {n : Int} (h : InRange k n) : FitsIn k n := by
  unfold FitsIn wideKind
  rwa [wrap_eq_self (Scalar.inRange_64 h)]

/-- A normalised constant keeps its bits on the way to the common kind. -/
theorem toCommon_imm {eop : Eop} {k c : IntegerKind} (hk : intKind? eop.type = some k)
    (hin : Sound eop) (hconst : eop.isConst = true) (hc : c ≠ .bool) :
    (toCommon eop k c).imm = eop.imm := by
  have hnormal : Scalar.Normal eop.imm k := hin.2 hconst k (viewKind_of_intKind hk)
  have hpromote : (collapseEnum (promoteInt eop k)).imm = eop.imm := by
    have hcollapse (e : Eop) : (collapseEnum e).imm = e.imm := by
      unfold collapseEnum
      split <;> rfl
    rw [hcollapse]
    unfold promoteInt castInt
    rw [if_pos hconst]
    have hs32 : intCast eop.imm k .s32 = eop.imm := hnormal.intCast_eq (by decide)
    split
    · exact hs32
    · rfl
  unfold toCommon
  split
  · exact hpromote
  · rename_i hne
    have hflags := (promoteInt_converts hk).isConst.trans hconst
    unfold castInt
    dsimp only
    rw [if_pos hflags, hpromote]
    have hpromoted : Scalar.Normal eop.imm (promoted k) := by
      unfold promoted
      split
      · rename_i hsize
        have hs32 := promoted_inRange (Scalar.value_inRange eop.imm k)
        rw [promoted, if_pos hsize] at hs32
        rw [hnormal.iff_fitsIn]
        exact fitsIn_of_inRange hs32
      · exact hnormal
    exact hpromoted.intCast_eq hc

theorem resolveExprTernary_normalised {cond condOp thenExpr elseExpr cond' : Eop}
    (hthen : Sound thenExpr) (helse : Sound elseExpr)
    (h : (resolveExprTernary M cond condOp thenExpr elseExpr).Gives (dst, cond')) :
    Normalised dst ↔ Step.Fits M (.ternary cond condOp thenExpr elseExpr) := by
  obtain ⟨type, thenOp, elseOp, hcase, ⟨hcc, htc, hec, rfl⟩ | ⟨hnot, isConstexpr, rfl⟩⟩ :=
    resolveExprTernary_gives h
  · show _ ↔ (_ → TernaryFits condOp thenExpr elseExpr)
    cases hcase with
    | arith ht he hconv =>
      by_cases hnone : intKind? thenExpr.type = none ∨ intKind? elseExpr.type = none
      · have hview := viewKind_of_common ht he hconv hnone
        refine iff_of_true (normalised_const.mpr fun k hk => nomatch hview.symm.trans hk) ?_
        intro _ l r hl hr
        rcases hnone with h | h
        · cases h.symm.trans hl
        · cases h.symm.trans hr
      · rw [not_or, ← ne_eq, ← ne_eq, Option.ne_none_iff_exists',
          Option.ne_none_iff_exists'] at hnone
        obtain ⟨⟨l, hkl⟩, r, hkr⟩ := hnone
        rw [convertArithEops_int hkl hkr] at hconv
        obtain ⟨rfl, rfl, rfl⟩ : type = _ ∧ thenOp = _ ∧ elseOp = _ := by
          injection hconv with hconv
          injection hconv with htype hpair
          injection hpair with hleft hright
          exact ⟨htype.symm, hleft.symm, hright.symm⟩
        have hne := commonKind_ne_bool l r
        have hnl : Scalar.Normal thenExpr.imm l := hthen.2 htc l (viewKind_of_intKind hkl)
        have hnr : Scalar.Normal elseExpr.imm r := helse.2 hec r (viewKind_of_intKind hkr)
        rw [opFromConst_normal (k := commonKind (promoted l) (promoted r)) rfl, toCommon_imm hkl hthen htc hne,
          toCommon_imm hkr helse hec hne]
        have hbranch : TernaryFits condOp thenExpr elseExpr ↔
            FitsIn (commonKind (promoted l) (promoted r))
              (if !condOp.isImm || decide (Scalar.read condOp.imm .bool ≠ 0) then
                Scalar.value thenExpr.imm l
              else Scalar.value elseExpr.imm r) := by
          constructor
          · intro hf
            exact hf l r hkl hkr
          · intro hf l' r' hl' hr'
            cases hkl.symm.trans hl'
            cases hkr.symm.trans hr'
            exact hf
        rw [forall_prop_of_true ⟨hcc, htc, hec⟩, hbranch]
        split
        · exact hnl.iff_fitsIn
        · exact hnr.iff_fitsIn
    | other hnot hkind hscalar =>
      refine iff_of_true (normalised_const.mpr fun k hk => Scalar.normal_of_bits (hkind k hk) _) ?_
      intro _ l r hl hr
      exact absurd ⟨isIntegerLike_iff.mpr ⟨l, hl⟩, isIntegerLike_iff.mpr ⟨r, hr⟩⟩ hnot
  · exact iff_of_true (Plain.unknown type isConstexpr false).normalised fun hf => absurd hf hnot

/-- A step leaves a normalised operand exactly if what it computes fits. -/
theorem Step.normalised_iff {s : Step} (hin : s.Inputs Sound) (h : (s.exec M).Gives dst) :
    s.Output Normalised dst ↔ s.Fits M := by
  cases s with
  | literal lit => exact resolveLiteral_normalised h
  | const typespec init => exact resolveDeclConst_normalised hin h
  | enumValue id base value => exact iff_of_true (resolveEnumValue_normalised hin h) trivial
  | enumNext prev => exact resolveEnumNext_normalised h
  | unary op src => exact (resolveExprUnary_case h).normalised_iff
  | addressOf isGlobal src =>
    have h : (resolveAddressOf isGlobal src).Gives dst := h
    unfold resolveAddressOf at h
    split at h
    · cases h
      exact iff_of_true (Plain.unknown ..).normalised trivial
    · cases h
  | binary op left right =>
    obtain ⟨⟨dst', l, r⟩, hx, hdst⟩ := gives_bind.mp h
    cases hdst
    exact (resolveExprBinary_case hx).normalised_iff
  | condition cond => exact iff_of_true (convertOrReport_gives h).2.flags trivial
  | ternary cond condOp thenExpr elseExpr =>
    obtain ⟨⟨dst', c⟩, hx, hdst⟩ := gives_bind.mp h
    cases hdst
    exact resolveExprTernary_normalised hin.2.1 hin.2.2 hx
  | cast type src => exact (resolveExprCast_gives h).2.normalised_iff hin
  | bitCast type src =>
    obtain ⟨rfl, hsize, -⟩ := resolveExprBitCast_gives h
    exact bitCast_normalised_iff hsize hin

/-- Every step of an evaluation leaves a normalised operand exactly if each computes a number that
fits. The result of the expression is normalised then. -/
theorem steps_normalised_iff (M : Machine) (expr : Expr) :
    (expr.AllSteps M (Step.LeavesNormal M) ↔ expr.AllSteps M (Step.Keeps M)) ∧
      (expr.AllSteps M (Step.Keeps M) →
        ∀ eop, (resolveExpr M expr).Gives eop → Normalised eop) := by
  have hfed := Expr.steps_fed M Sound expr
  have hsound (s : Step) (o : Eop) (hin : s.Inputs Sound) (ho : (s.exec M).Gives o)
      (hnormal : s.Output Normalised o) : s.Output Sound o := by
    have hsettled := Step.exec_settled (Step.Inputs.mono (fun _ h => h.1) hin) ho
    cases s <;> first | exact hnormal | exact ⟨hsettled, hnormal⟩
  have hnormal (s : Step) (hin : s.Inputs Sound) : s.LeavesNormal M ↔ s.Keeps M :=
    forall_congr' fun o => imp_congr_right fun ho => Step.normalised_iff hin ho
  have hiff : expr.AllSteps M (Step.LeavesNormal M) ↔ expr.AllSteps M (Step.Keeps M) :=
    hfed.reached_iff hnormal fun s o hin hleaves ho => hsound s o hin ho (hleaves o ho)
  refine ⟨hiff, fun hkeeps eop heop => ?_⟩
  have hleaves : expr.AllSteps M fun s => ∀ o, (s.exec M).Gives o → s.Output Sound o := by
    refine (hfed.reached_iff (fun s hin => ?_) fun s o _ hs ho => hs o ho).mpr (hiff.mpr hkeeps)
    constructor
    · intro hs o ho
      exact Step.Output.mono (fun _ h => h.2) (hs o ho)
    · intro hs o ho
      exact hsound s o hin ho (hs o ho)
  rw [resolveExpr_eq_run] at heop
  exact (hfed.result hleaves heop).2

/-- `256 :> u8` is zero as a `u8`, and 256 in the 64-bit view. -/
theorem cast_leaves_upper_bits :
    ∃ eop, (resolveExpr .plain (.cast (.integer .u8) (.literal (.int 256 .dec .none)))).Gives eop ∧
      eop.type = .integer .u8 ∧ Scalar.value eop.imm .u8 = 0 ∧ eop.imm.toNat = 256 ∧
      ¬ Normalised eop := by
  refine ⟨⟨.integer .u8, true, false, true, 256⟩, rfl, rfl, by decide, rfl, fun h => ?_⟩
  exact absurd (h rfl .u8 rfl) (by decide)

end Nibble.Resolve
