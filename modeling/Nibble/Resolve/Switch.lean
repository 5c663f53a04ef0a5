import Nibble.Lib.Quicksort
import Nibble.Resolve.Cast

/-!
# Switch statements

`resolve_stmt_switch` of `resolver/stmts.c`, and the part of `IR_emit_stmt_switch`
that picks the case of a constant. Expressions and blocks are given by what
`resolve_expr` and `resolve_stmt_block_body` leave.
-/

namespace Nibble.Resolve

open Nibble.Lib

/-- `CaseInfo`. -/
structure CaseInfo where
  start : Scalar
  stop : Scalar
  isSigned : Bool
  index : Nat
  deriving DecidableEq, Repr

/-- The bits `RESOLVE_STMT_SUCCESS`, `RESOLVE_STMT_RETURNS` and `RESOLVE_STMT_LOOP_EXITS`. -/
structure StmtFlags where
  success : Bool
  returns : Bool
  loopExits : Bool
  deriving DecidableEq, Repr

/-- `SwitchCase`, with the flags of its statements. The default case has no `start`. -/
structure SwitchCase where
  start : Option Ast.ExprOperand
  stop : Option Ast.ExprOperand
  flags : StmtFlags
  deriving DecidableEq, Repr

/-- `StmtSwitch` as `parse_stmt_switch` makes it. -/
structure StmtSwitch where
  expr : Ast.ExprOperand
  cases : List SwitchCase
  defaultCaseIndex : Option Nat
  length_lt : cases.length < 2 ^ 32
  stop_none : ∀ c ∈ cases, c.start = none → c.stop = none
  default_iff : ∀ i, defaultCaseIndex = some i ↔ cases[i]?.map (·.start) = some none

inductive SwitchError where
  | notInteger
  | noCases
  | tooManyCases
  | caseNotConst
  | caseNotEnum
  | endNotGreater
  | repeatedValue (index : Nat)
  /-- An error that `resolve_stmt_block_body` has reported. -/
  | inBlock
  | fault (fault : Fault)
  deriving DecidableEq, Repr

/-- The text of the error that is reported. -/
def SwitchError.text : SwitchError → Option String
  | notInteger => some "Switch statement expression must be of an integer type"
  | noCases => some "Switch statement must case at least one case"
  | tooManyCases =>
    some "Switch statement is too large. Cannot have more cases than can fit in a u32."
  | caseNotConst => some "Case expression must be a compile-time constant"
  | caseNotEnum => some "Expected case expression to be an enum type"
  | endNotGreater => some "Case `end` expression must be strictly greater than `start`"
  | repeatedValue _ => some "Repeated switch case value"
  | inBlock | fault _ => none

/-! ## Sorting -/

/-- The loop of `qsort_partition_cases`, for the `n` cases from `j` on. -/
def partitionLoop (pivot : CaseInfo) : Nat → Array CaseInfo → Nat → Nat →
    Option (Array CaseInfo × Nat)
  | 0, cases, i, _ => some (cases, i)
  | n + 1, cases, i, j => do
    let c ← cases[j]?
    if evalBinaryLogicalOp64bit .lteq pivot.isSigned c.start pivot.start = .ok true then
      partitionLoop pivot n (cases.swapIfInBounds j i) (i + 1) (j + 1)
    else partitionLoop pivot n cases i (j + 1)

/-- `qsort_partition_cases`. -/
def qsortPartitionCases (cases : Array CaseInfo) (lo hi : Nat) :
    Option (Array CaseInfo × Nat) := do
  let mid := lo + (hi - lo) / 2
  let cases := cases.swapIfInBounds mid hi
  let pivot ← cases[hi]?
  let (cases, i) ← partitionLoop pivot (hi - lo) cases lo lo
  return (cases.swapIfInBounds hi i, i)

/-- `qsort_cases`, which is called no deeper than the fuel says. -/
def qsortCases : Nat → Array CaseInfo → Int → Int → Option (Array CaseInfo)
  | fuel, cases, lo, hi =>
    if lo < 0 ∨ lo ≥ hi then some cases
    else
      match fuel with
      | 0 => none
      | fuel + 1 => do
        let (cases, pivotIndex) ← qsortPartitionCases cases lo.toNat hi.toNat
        let cases ← qsortCases fuel cases lo (pivotIndex - 1)
        qsortCases fuel cases (pivotIndex + 1) hi

section

variable {isSigned : Bool} {cases : Array CaseInfo}

/-- The key by which cases are sorted. -/
def CaseInfo.key (isSigned : Bool) (c : CaseInfo) : Int := c.start.view isSigned

/-- The comparison of `qsort_partition_cases`, with the pivot. -/
def CaseInfo.lteq (c pivot : CaseInfo) : Bool :=
  decide (evalBinaryLogicalOp64bit .lteq pivot.isSigned c.start pivot.start = .ok true)

theorem partitionLoop_eq (pivot : CaseInfo) (n : Nat) (cases : Array CaseInfo) (i j : Nat) :
    partitionLoop pivot n cases i j = Quicksort.partitionLoop CaseInfo.lteq pivot n cases i j := by
  induction n generalizing cases i j with
  | zero => rfl
  | succ n ih =>
    unfold partitionLoop Quicksort.partitionLoop
    simp only [ih, CaseInfo.lteq, decide_eq_true_eq]

theorem qsortPartitionCases_eq (cases : Array CaseInfo) (lo hi : Nat) :
    qsortPartitionCases cases lo hi = Quicksort.partition CaseInfo.lteq cases lo hi := by
  unfold qsortPartitionCases Quicksort.partition
  simp only [partitionLoop_eq]

theorem qsortCases_eq (fuel : Nat) (cases : Array CaseInfo) (lo hi : Int) :
    qsortCases fuel cases lo hi = Quicksort.quicksort CaseInfo.lteq fuel cases lo hi := by
  induction fuel generalizing cases lo hi with
  | zero => rfl
  | succ fuel ih =>
    unfold qsortCases Quicksort.quicksort
    simp only [ih, qsortPartitionCases_eq]

/-- `qsort_cases` sorts all of the cases, which have one sign. -/
theorem qsortCases_perm (cases : Array CaseInfo)
    (hsign : ∀ c ∈ cases.toList, c.isSigned = isSigned) :
    ∃ cases', qsortCases cases.size cases 0 (cases.size - 1) = some cases' ∧
      cases'.toList.Perm cases.toList ∧
      cases'.toList.Pairwise fun a b => a.key isSigned ≤ b.key isSigned := by
  rw [qsortCases_eq]
  refine Quicksort.quicksort_perm cases hsign fun c pivot hpivot => ?_
  rw [CaseInfo.lteq, decide_eq_true_eq, hpivot]
  exact eval_lteq isSigned c.start pivot.start

end

/-! ## Resolution -/

section

variable (R : TypeRels) (F : FloatConv)

/-- `try_wrap_cast_expr`, of a constant. -/
def tryWrapCastExpr (eop orig : Ast.ExprOperand) : Ast.ExprOperand :=
  if orig.type ≠ eop.type then eop else { eop with imm := orig.imm }

/-- A conversion that must be possible. -/
def convertCaseExpr (expr : Ast.ExprOperand) (type : Ty) : Except SwitchError Ast.ExprOperand :=
  match convertEop R F expr type false with
  | .error f => .error (.fault f)
  | .ok (r, eop) =>
    if r.success then .ok (tryWrapCastExpr eop expr) else .error (.fault .assertion)

/-- The case expression at the type of the switch. An enum takes cases of its own type only. -/
def caseExprOfType (expr : Ast.ExprOperand) (switchType : Ty) :
    Except SwitchError Ast.ExprOperand :=
  match switchType with
  | .enum _ _ => if switchType ≠ expr.type then .error .caseNotEnum else .ok expr
  | _ => convertCaseExpr R F expr switchType

/-- `resolve_switch_case_expr`. -/
def resolveSwitchCaseExpr (expr : Ast.ExprOperand) (switchType : Ty) :
    Except SwitchError Ast.ExprOperand :=
  if !expr.isImm || !expr.isConstexpr then .error .caseNotConst
  else do
    let expr ← caseExprOfType R F expr switchType
    convertCaseExpr R F expr (.integer (if switchType.isSigned then .s64 else .u64))

/-- The check of one case: what is kept of it, unless it is the default case. -/
def resolveSwitchCase (switchType : Ty) (index : Nat) (scase : SwitchCase) :
    Except SwitchError (Option CaseInfo) :=
  let isSigned := switchType.isSigned
  match scase.start with
  | none => .ok none
  | some start => do
    let start ← resolveSwitchCaseExpr R F start switchType
    match scase.stop with
    | none => return some ⟨start.imm, start.imm, isSigned, index⟩
    | some stop =>
      let stop ← resolveSwitchCaseExpr R F stop switchType
      if start.type ≠ stop.type then .error (.fault .assertion)
      else if evalBinaryLogicalOp64bit .lteq isSigned stop.imm start.imm = .ok true then
        .error .endNotGreater
      else return some ⟨start.imm, stop.imm, isSigned, index⟩

/-- The loop over the cases: what is kept of them, and whether one of their blocks does not return
and one does not exit from a loop. -/
def resolveSwitchCases (switchType : Ty) : Nat → List SwitchCase →
    Except SwitchError (List CaseInfo × Bool × Bool)
  | _, [] => .ok ([], false, false)
  | index, scase :: rest => do
    let info ← resolveSwitchCase R F switchType index scase
    if !scase.flags.success then .error .inBlock
    let (infos, anyNoReturn, anyNoLoopExit) ← resolveSwitchCases switchType (index + 1) rest
    return (info.toList ++ infos, anyNoReturn || !scase.flags.returns,
      anyNoLoopExit || !scase.flags.loopExits)

/-- The scan of the sorted cases for one that begins before the end of another. -/
def repeatedCase (isSigned : Bool) (prev : CaseInfo) : List CaseInfo → Option CaseInfo
  | [] => none
  | curr :: rest =>
    if evalBinaryLogicalOp64bit .lteq isSigned curr.start prev.stop = .ok true then some curr
    else if evalBinaryLogicalOp64bit .gt isSigned curr.stop prev.stop = .ok true then
      repeatedCase isSigned curr rest
    else repeatedCase isSigned prev rest

/-- The cases sorted, if no two of them meet. -/
def sortCases (isSigned : Bool) (infos : Array CaseInfo) :
    Except SwitchError (Array CaseInfo) :=
  if infos.size = 0 then .ok infos
  else
    match qsortCases infos.size infos 0 (infos.size - 1) with
    | none => .error (.fault .outOfBounds)
    | some sorted =>
      match sorted.toList with
      | [] => .error (.fault .outOfBounds)
      | prev :: rest =>
        match repeatedCase isSigned prev rest with
        | some curr => .error (.repeatedValue curr.index)
        | none => .ok sorted

/-- `switch_stmt_is_exhaustive`. -/
def switchStmtIsExhaustive (stmt : StmtSwitch) : Except SwitchError Bool :=
  if stmt.defaultCaseIndex.isSome then .ok true
  else
    match stmt.expr.type with
    | .integer _ | .enum _ _ => .ok false
    | _ => .error (.fault .assertion)

/-- `resolve_stmt_switch`: the flags, and `case_infos`. -/
def resolveStmtSwitch (stmt : StmtSwitch) : Except SwitchError (StmtFlags × Array CaseInfo) := do
  if !stmt.expr.type.isIntegerLike then .error .notInteger
  if stmt.cases.length = 0 then .error .noCases
  if stmt.cases.length > 2 ^ 32 - 1 then .error .tooManyCases
  let (infos, anyNoReturn, anyNoLoopExit) ← resolveSwitchCases R F stmt.expr.type 0 stmt.cases
  let sorted ← sortCases stmt.expr.type.isSigned infos.toArray
  let isExhaustive ← switchStmtIsExhaustive stmt
  return (⟨true, isExhaustive && !anyNoReturn, isExhaustive && !anyNoLoopExit⟩, sorted)

end

/-! ## A constant condition -/

/-- The binary search of `IR_emit_stmt_switch`: the index of the case that is found. -/
def searchCases (isSigned : Bool) (caseInfos : Array CaseInfo) (val : Scalar) (lo hi : Int) :
    Except Fault (Option Nat) :=
  if lo ≤ hi then
    let mid := lo + (hi - lo) / 2
    match caseInfos[mid.toNat]? with
    | none => .error .outOfBounds
    | some caseInfo =>
      if evalBinaryLogicalOp64bit .gteq isSigned val caseInfo.start = .ok true ∧
          evalBinaryLogicalOp64bit .lteq isSigned val caseInfo.stop = .ok true then
        .ok (some caseInfo.index)
      else if evalBinaryLogicalOp64bit .lt isSigned val caseInfo.start = .ok true then
        searchCases isSigned caseInfos val lo (mid - 1)
      else if evalBinaryLogicalOp64bit .gt isSigned val caseInfo.stop ≠ .ok true then
        .error .assertion
      else searchCases isSigned caseInfos val (mid + 1) hi
  else .ok none
termination_by (hi + 1 - lo).toNat

/-- `IR_emit_stmt_switch` of a constant: the case whose statements are emitted. The number of
cases is a `u32`, and so is one less. -/
def constSwitchTarget (stmt : StmtSwitch) (caseInfos : Array CaseInfo) :
    Except Fault (Option Nat) := do
  let hi := BitVec.ofNat 32 caseInfos.size - 1
  let target ← searchCases stmt.expr.type.isSigned caseInfos stmt.expr.imm 0 hi.toNat
  return if target.isNone then stmt.defaultCaseIndex else target

end Nibble.Resolve
