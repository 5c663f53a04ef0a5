import Nibble.Resolve.Fold

/-!
# Constant expressions

The expressions that `resolve_expr` gives a constant, the constants and enum items
that name one, and the order in which their parts are evaluated. A step is the work
on one node once its parts are resolved.
-/

namespace Nibble.Resolve

open Nibble.Lib (Fallible Script)
open Nibble.Front (TokenKind TokenIntRep TokenIntSuffix)

/-- `int_kind_max`. -/
def intKindMax : IntegerKind → Nat
  | .bool => 0x1
  | .u8 => 0xFF
  | .s8 => 0x7F
  | .u16 => 0xFFFF
  | .s16 => 0x7FFF
  | .u32 => 0xFFFFFFFF
  | .s32 => 0x7FFFFFFF
  | .u64 => 0xFFFFFFFFFFFFFFFF
  | .s64 => 0x7FFFFFFFFFFFFFFF

/-- `int_kind_min`, as the number that its bits stand for. -/
def intKindMin : IntegerKind → Int
  | .s8 => -0x80
  | .s16 => -0x8000
  | .s32 => -0x80000000
  | .s64 => -0x8000000000000000
  | _ => 0

/-- `value_is_int_max`. -/
def valueIsIntMax (value : Scalar) (k : IntegerKind) : Bool :=
  decide (value.view (intKindSigned k) = intKindMax k)

/-- `value_in_int_range`. -/
def valueInIntRange (value : Scalar) (k : IntegerKind) : Bool :=
  decide (intKindMin k ≤ value.view (intKindSigned k)) &&
    decide (value.view (intKindSigned k) ≤ intKindMax k)

/-- `get_int_lit_type`. -/
def getIntLitType (value : BitVec 64) : List IntegerKind → Option IntegerKind
  | [] => none
  | [k] => if value.toNat > intKindMax k then none else some k
  | k :: k' :: ks => if value.toNat > intKindMax k then getIntLitType value (k' :: ks) else some k

/-- The types that an integer literal can have: `s_types` or `u_types`. -/
def litTypes (rep : TokenIntRep) (suffix : TokenIntSuffix) : List IntegerKind :=
  match suffix with
  | .none => if rep = .dec then [.s32, .s64, .s64] else [.u32, .u64, .u64]
  | .s => [.s32, .s64, .s64]
  | .u => [.u32, .u64, .u64]

/-- An expression without parts that are folded. -/
inductive Literal where
  | int (value : BitVec 64) (rep : TokenIntRep) (suffix : TokenIntSuffix)
  | float (kind : FloatKind) (value : Scalar)
  | boolLit (val : Bool)
  | nullLit
  /-- `#sizeof`, `#typeid`, `#offsetof`, `#indexof` and `#len`. -/
  | usize (value : Scalar)
  /-- The first item of an enum, where it has no value. -/
  | enumFirst (id : Nat) (base : IntegerKind)
  /-- A variable, a procedure, a string, a compound literal, a call, an element or a field. -/
  | operand (type : Ty) (isConstexpr isLvalue : Bool)

/-- `resolve_expr_int`, `resolve_expr_float` and the like. -/
def resolveLiteral : Literal → Eval Eop
  | .int value rep suffix =>
    if rep = .char then return opFromConst (.integer .s8) value
    else
      match getIntLitType value (litTypes rep suffix) with
      | none => failure
      | some k => return opFromConst (.integer k) value
  | .float kind value => return opFromConst (.float kind) value
  | .boolLit val => return boolConst val
  | .nullLit => return opFromConst (.ptr .void) 0
  | .usize value => return opFromConst (.integer .u64) value
  | .enumFirst id base => return opFromConst (.enum id base) 0
  | .operand type isConstexpr isLvalue => return ⟨type, isConstexpr, isLvalue, false, 0⟩

variable (M : Machine)

/-- `resolve_decl_const`, and the identifier that names the constant. -/
def resolveDeclConst (typespec : Option Ty) (init : Eop) : Eval Eop :=
  if !init.isConstexpr then failure
  else if !init.type.isScalar then failure
  else
    match typespec with
    | none => return opFromConst init.type init.imm
    | some declaredType => do
      let initEop ← convertOrReport M init declaredType true
      let init' ← liftM (tryWrapCast initEop init)
      return opFromConst declaredType init'.imm

/-- An item of `resolve_decl_enum` with a value. -/
def resolveEnumValue (id : Nat) (base : IntegerKind) (value : Eop) : Eval Eop :=
  if !value.isConstexpr then failure
  else if !value.type.isIntegerLike then failure
  else if !valueInIntRange value.imm base then failure
  else do
    let valueEop ← convertOrReport M value (.enum id base) true
    let _ ← liftM (tryWrapCast valueEop value)
    return opFromConst (.enum id base) valueEop.imm

/-- An item of `resolve_decl_enum` behind another. -/
def resolveEnumNext (prev : Eop) : Eval Eop :=
  match prev.type with
  | .enum _ base =>
    if valueIsIntMax prev.imm base then failure
    else liftM (evalBinaryOp M .plus prev.type prev.imm 1)
  | _ => failure

/-! ## Evaluation -/

inductive Expr where
  | literal (lit : Literal)
  | const (typespec : Option Ty) (init : Expr)
  | enumValue (id : Nat) (base : IntegerKind) (value : Expr)
  | enumNext (prev : Expr)
  | unary (op : TokenKind) (expr : Expr)
  | addressOf (isGlobal : Bool) (expr : Expr)
  | binary (op : TokenKind) (left right : Expr)
  | ternary (cond thenExpr elseExpr : Expr)
  | cast (type : Ty) (expr : Expr)
  | bitCast (type : Ty) (expr : Expr)

/-- `resolve_expr`. -/
def resolveExpr : Expr → Eval Eop
  | .literal lit => resolveLiteral lit
  | .const typespec init => do
    let init ← resolveExpr init
    resolveDeclConst M typespec init
  | .enumValue id base value => do
    let value ← resolveExpr value
    resolveEnumValue M id base value
  | .enumNext prev => do
    let prev ← resolveExpr prev
    resolveEnumNext M prev
  | .unary op expr => do
    let src ← resolveExpr expr
    resolveExprUnary M op src
  | .addressOf isGlobal expr => do
    let src ← resolveExpr expr
    resolveAddressOf isGlobal src
  | .binary op left right => do
    let left ← resolveExpr left
    let right ← resolveExpr right
    let (dst, _, _) ← resolveExprBinary M op left right
    return dst
  | .ternary cond thenExpr elseExpr => do
    let cond ← resolveExpr cond
    let condOp ← convertOrReport M cond (.integer .bool) false
    let thenExpr ← resolveExpr thenExpr
    let elseExpr ← resolveExpr elseExpr
    let (dst, _) ← resolveExprTernary M cond condOp thenExpr elseExpr
    return dst
  | .cast type expr => do
    let src ← resolveExpr expr
    resolveExprCast M type src
  | .bitCast type expr => do
    let src ← resolveExpr expr
    resolveExprBitCast type src

/-- The work on one node. The condition of a conditional is converted before its branches are
resolved. -/
inductive Step where
  | literal (lit : Literal)
  | const (typespec : Option Ty) (init : Eop)
  | enumValue (id : Nat) (base : IntegerKind) (value : Eop)
  | enumNext (prev : Eop)
  | unary (op : TokenKind) (src : Eop)
  | addressOf (isGlobal : Bool) (src : Eop)
  | binary (op : TokenKind) (left right : Eop)
  | condition (cond : Eop)
  | ternary (cond condOp thenExpr elseExpr : Eop)
  | cast (type : Ty) (src : Eop)
  | bitCast (type : Ty) (src : Eop)

def Step.exec : Step → Eval Eop
  | .literal lit => resolveLiteral lit
  | .const typespec init => resolveDeclConst M typespec init
  | .enumValue id base value => resolveEnumValue M id base value
  | .enumNext prev => resolveEnumNext M prev
  | .unary op src => resolveExprUnary M op src
  | .addressOf isGlobal src => resolveAddressOf isGlobal src
  | .binary op left right => do
    let (dst, _, _) ← resolveExprBinary M op left right
    return dst
  | .condition cond => convertOrReport M cond (.integer .bool) false
  | .ternary cond condOp thenExpr elseExpr => do
    let (dst, _) ← resolveExprTernary M cond condOp thenExpr elseExpr
    return dst
  | .cast type src => resolveExprCast M type src
  | .bitCast type src => resolveExprBitCast type src

/-- The steps of an expression, in their order. -/
def Expr.steps : Expr → Script Step Eop Eop
  | .literal lit => .step (.literal lit) .done
  | .const typespec init => init.steps.bind fun init => .step (.const typespec init) .done
  | .enumValue id base value => value.steps.bind fun value => .step (.enumValue id base value) .done
  | .enumNext prev => prev.steps.bind fun prev => .step (.enumNext prev) .done
  | .unary op expr => expr.steps.bind fun src => .step (.unary op src) .done
  | .addressOf isGlobal expr => expr.steps.bind fun src => .step (.addressOf isGlobal src) .done
  | .binary op left right =>
    left.steps.bind fun left => right.steps.bind fun right => .step (.binary op left right) .done
  | .ternary cond thenExpr elseExpr =>
    cond.steps.bind fun cond =>
      .step (.condition cond) fun condOp =>
        thenExpr.steps.bind fun thenExpr =>
          elseExpr.steps.bind fun elseExpr =>
            .step (.ternary cond condOp thenExpr elseExpr) .done
  | .cast type expr => expr.steps.bind fun src => .step (.cast type src) .done
  | .bitCast type expr => expr.steps.bind fun src => .step (.bitCast type src) .done

/-- Every step of an expression's evaluation satisfies `P`. -/
def Expr.AllSteps (P : Step → Prop) (expr : Expr) : Prop := expr.steps.Reached (Step.exec M) P

/-- The evaluation of an expression is the run of its steps. -/
theorem resolveExpr_eq_run (expr : Expr) : resolveExpr M expr = expr.steps.run (Step.exec M) := by
  induction expr with
  | literal lit => exact (Fallible.bind_pure _).symm
  | const _ _ ih | enumValue _ _ _ ih | enumNext _ ih | unary _ _ ih | addressOf _ _ ih
  | cast _ _ ih | bitCast _ _ ih =>
    rw [resolveExpr, ih, Expr.steps, Script.run_bind]
    simp only [Script.run, Step.exec, Fallible.bind_pure]
  | binary op left right ihl ihr =>
    rw [resolveExpr, ihl, ihr, Expr.steps, Script.run_bind]
    simp only [Script.run, Script.run_bind, Step.exec, Fallible.bind_pure]
  | ternary cond thenExpr elseExpr ihc iht ihe =>
    rw [resolveExpr, ihc, iht, ihe, Expr.steps, Script.run_bind]
    simp only [Script.run, Script.run_bind, Step.exec, Fallible.bind_pure]

/-- An evaluation has no fault exactly if none of its steps has one. -/
theorem total_resolveExpr {expr : Expr} :
    (resolveExpr M expr).Total ↔ expr.AllSteps M fun s => (s.exec M).Total := by
  rw [resolveExpr_eq_run]
  exact Script.total_run

/-- The operands of a step that are results of expressions satisfy `P`, and the conversion of a
condition has kept its flags. -/
def Step.Inputs (P : Eop → Prop) : Step → Prop
  | .literal _ => True
  | .const _ src | .enumValue _ _ src | .enumNext src | .unary _ src | .addressOf _ src
  | .condition src | .cast _ src | .bitCast _ src => P src
  | .binary _ left right => P left ∧ P right
  | .ternary cond condOp thenExpr elseExpr =>
    (P cond ∧ SameFlags cond condOp) ∧ P thenExpr ∧ P elseExpr

/-- What a step leaves for an expression satisfies `P`, and a condition keeps its flags. -/
def Step.Output (P : Eop → Prop) : Step → Eop → Prop
  | .condition cond, eop => SameFlags cond eop
  | _, eop => P eop

theorem Step.Inputs.mono {P Q : Eop → Prop} (hPQ : ∀ eop, P eop → Q eop) {s : Step}
    (h : s.Inputs P) : s.Inputs Q := by
  cases s with
  | literal lit => trivial
  | binary op left right => exact ⟨hPQ _ h.1, hPQ _ h.2⟩
  | ternary cond condOp thenExpr elseExpr =>
    exact ⟨⟨hPQ _ h.1.1, h.1.2⟩, hPQ _ h.2.1, hPQ _ h.2.2⟩
  | _ => exact hPQ _ h

theorem Step.Output.mono {P Q : Eop → Prop} (hPQ : ∀ eop, P eop → Q eop) {s : Step} {eop : Eop}
    (h : s.Output P eop) : s.Output Q eop := by
  cases s with
  | condition cond => exact h
  | _ => exact hPQ _ h

/-- The operands of a step are what earlier ones leave. -/
theorem Expr.steps_fed (P : Eop → Prop) (expr : Expr) :
    expr.steps.Fed (Step.exec M) (Step.Inputs P) (Step.Output P) P := by
  induction expr with
  | literal lit => exact ⟨trivial, fun o _ ho => ho⟩
  | const _ _ ih | enumValue _ _ _ ih | enumNext _ ih | unary _ _ ih | addressOf _ _ ih
  | cast _ _ ih | bitCast _ _ ih =>
    exact Script.fed_bind ih fun src hsrc => ⟨hsrc, fun o _ ho => ho⟩
  | binary op left right ihl ihr =>
    exact Script.fed_bind ihl fun l hl => Script.fed_bind ihr fun r hr =>
      ⟨⟨hl, hr⟩, fun o _ ho => ho⟩
  | ternary cond thenExpr elseExpr ihc iht ihe =>
    exact Script.fed_bind ihc fun c hc => ⟨hc, fun condOp _ hflags =>
      Script.fed_bind iht fun t ht => Script.fed_bind ihe fun e he =>
        ⟨⟨⟨hc, hflags⟩, ht, he⟩, fun o _ ho => ho⟩⟩

end Nibble.Resolve
