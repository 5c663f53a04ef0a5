import Mathlib.Tactic.LinearCombination
import Nibble.Data.ConstExpr
import Nibble.IR.PtrArith

/-!
# When pointer arithmetic is right

The four places that compute with pointers: the resolver on constants, the
initial values of global variables, and emitted sums and differences. A sum is
right if it is the address moved by the base size times the integer; the
difference of `q + n` and `q` is right if it is `n`. `PtrArith.Exact` is the
condition on the operands under which each of them is.
-/

namespace Nibble

open Nibble.Lib Nibble.Ast Nibble.Data Nibble.IR

/-- `type->as_ptr.base->size` as the arithmetic uses it. -/
def sizeWord (base : Ty) : Word := BitVec.ofNat 64 base.size

/-- `n` elements of `s` bytes are counted by an arithmetic shift. -/
def SarExact (s n : Word) : Prop :=
  s.toNat ≤ 2 ^ 63 ∧ 0 ≤ surplus s n (Nat.clog 2 s.toNat) ∧
    surplus s n (Nat.clog 2 s.toNat) < 2 ^ Nat.clog 2 s.toNat

/-- `n` elements of `s` bytes are counted by a logical shift. -/
def ShrExact (s n : Word) : Prop :=
  s.toNat ≤ 2 ^ 63 ∧ surplus s n (Nat.clog 2 s.toNat) = 0 ∧
    (0 ≤ n.toInt ∨ Nat.clog 2 s.toNat = 0)

/-! ## Folded by the resolver -/

/-- `ptr + int`, `int + ptr` (with `add`) or `ptr - int` on immediates. -/
structure FoldedSum where
  add : Bool
  ptr : ExprOperand
  int : ExprOperand
  base : Ty
  ptrType : ptr.type = .ptr base
  sized : base = .void ∨ base.size ≠ 0
  ptrConst : ptr.isConst = true
  intConst : int.isConst = true

namespace FoldedSum

variable (e : FoldedSum)

def Right : Prop :=
  (resolvePtrIntArith e.ptr e.int).map (·.1.imm) =
    some (moved e.add e.ptr.imm (sizeWord (arithBase e.base)) e.int.intValue)

/-- The distance is added, whatever the operator is. -/
def Exact : Prop :=
  e.add = true ∨ sizeWord (arithBase e.base) * e.int.intValue +
    sizeWord (arithBase e.base) * e.int.intValue = 0

theorem right_iff : e.Right ↔ e.Exact := by
  rw [Right, resolvePtrIntArith_imm e.ptrType e.sized e.ptrConst e.intConst, Option.some.injEq,
    Exact, sizeWord]
  cases e.add with
  | true => simp only [true_or]
  | false =>
    simp only [moved, if_true, Bool.false_eq_true, if_false, false_or]
    rw [eq_sub_iff_add_eq, add_assoc, add_eq_left]

end FoldedSum

/-- `(q + n) - q` on immediates. -/
structure FoldedDiff where
  left : ExprOperand
  right : ExprOperand
  leftBase : Ty
  rightBase : Ty
  leftType : left.type = .ptr leftBase
  rightType : right.type = .ptr rightBase
  same : (diffBases leftBase rightBase).1 = (diffBases leftBase rightBase).2
  leftConst : left.isConst = true
  rightConst : right.isConst = true
  n : Word
  apart : left.imm = moved true right.imm (sizeWord (diffBases leftBase rightBase).1) n
  fits : FitsStride (sizeWord (diffBases leftBase rightBase).1) n

namespace FoldedDiff

variable (e : FoldedDiff)

def size : Word := sizeWord (diffBases e.leftBase e.rightBase).1

def Right : Prop := (resolvePtrDiff e.left e.right).map (·.1.imm) = some e.n

def Exact : Prop := ShrExact e.size e.n

theorem right_iff : e.Right ↔ e.Exact := by
  have hfits : FitsStride e.size e.n := e.fits
  rw [Right, resolvePtrDiff_imm e.leftType e.rightType e.same e.leftConst e.rightConst, e.apart,
    moved_sub_self]
  change (clp2 e.size).map ((e.size * e.n) >>> ·) = some e.n ↔ ShrExact e.size e.n
  rw [clp2_eq, ShrExact]
  by_cases hs : e.size.toNat ≤ 2 ^ 63
  · rw [if_pos hs, Option.map_some, Option.some.injEq,
      ushiftRight_stride_iff (by decide) (Nat.le_pow_clog (by decide) _) hfits]
    exact (and_iff_right hs).symm
  · rw [if_neg hs]
    exact iff_of_false (by simp) fun h => hs h.1

end FoldedDiff

/-! ## Initial values of global variables -/

/-- The word of a constant pointer or integer, when the entities have the given addresses. -/
def constWord (entity : X64.ConstAddr → Word) : ConstExpr 32 → Option Word
  | .memAddr _ a => some (entity a.entity + a.disp.setWidth 64)
  | .imm _ v => some v
  | _ => none

/-- The difference of pointers in `IR_emit_global_expr_binary`, which asserts that the right operand
is no pointer. -/
def emitGlobalMinus (left right : ConstExpr 32) : Option (ConstExpr 32) :=
  if left.type.isPtr && !right.type.isPtr then emitGlobalPtrIntAdd false left right else none

/-- `ptr + int`, `int + ptr` or `ptr - int` in the initial value of a global variable. -/
structure GlobalSum where
  add : Bool
  entity : X64.ConstAddr → Word
  ptr : ConstExpr 32
  int : ConstExpr 32
  baseSize : Nat
  ptrType : ptr.type = .ptr baseSize
  p : Word
  n : Word
  ptrWord : constWord entity ptr = some p
  intWord : constWord entity int = some n

namespace GlobalSum

variable (e : GlobalSum)

def size : Word := BitVec.ofNat 64 e.baseSize

def Right : Prop :=
  (emitGlobalPtrIntAdd e.add e.ptr e.int).bind (constWord e.entity) =
    some (moved e.add e.p e.size e.n)

/-- An address is moved by an immediate, and the displacement needs no more than 32 bits. -/
def Exact : Prop :=
  match e.ptr, e.int with
  | .memAddr _ a, .imm _ n =>
    (moved e.add (a.disp.setWidth 64) e.size n).toNat < 2 ^ 32
  | _, _ => False

theorem setWidth_setWidth_eq_iff (d : Word) :
    ((d.setWidth 32).setWidth 64 : Word) = d ↔ d.toNat < 2 ^ 32 := by
  rw [← BitVec.toNat_inj]
  simp only [BitVec.toNat_setWidth]
  have := d.isLt
  omega

theorem moved_add (add : Bool) (x p s n : Word) :
    moved add (x + p) s n = x + moved add p s n := by
  cases add <;> simp only [moved, if_true, Bool.false_eq_true, if_false] <;> ring

theorem right_iff : e.Right ↔ e.Exact := by
  obtain ⟨add, entity, ptr, int, baseSize, hptr, p, n, hp, hn⟩ := e
  simp only [Right, Exact, size]
  cases ptr with
  | memAddr t a =>
    obtain rfl : t = .ptr baseSize := hptr
    cases int with
    | imm t' n' =>
      obtain rfl : n' = n := Option.some.inj hn
      obtain rfl : _ = p := Option.some.inj hp
      have hrun : (emitGlobalPtrIntAdd add (.memAddr (.ptr baseSize) a) (.imm t' n')).bind
          (constWord entity) = some (entity a.entity +
            ((moved add (a.disp.setWidth 64) (BitVec.ofNat 64 baseSize) n').setWidth 32).setWidth
              64) := rfl
      rw [hrun, moved_add, Option.some.injEq, add_right_inj, setWidth_setWidth_eq_iff]
    | _ => exact iff_of_false (by simp [emitGlobalPtrIntAdd]) id
  | _ => exact iff_of_false (by simp [emitGlobalPtrIntAdd]) id

end GlobalSum

/-- `ptr - ptr` in the initial value of a global variable. -/
structure GlobalDiff where
  entity : X64.ConstAddr → Word
  left : ConstExpr 32
  right : ConstExpr 32
  baseSize : Nat
  leftType : left.type = .ptr baseSize
  rightType : right.type = .ptr baseSize
  q : Word
  n : Word
  leftWord : constWord entity left = some (moved true q (BitVec.ofNat 64 baseSize) n)
  rightWord : constWord entity right = some q
  fits : FitsStride (BitVec.ofNat 64 baseSize) n

namespace GlobalDiff

variable (e : GlobalDiff)

def Right : Prop := (emitGlobalMinus e.left e.right).bind (constWord e.entity) = some e.n

theorem not_right : ¬ e.Right := by
  simp [Right, emitGlobalMinus, e.leftType, e.rightType, DataType.isPtr]

end GlobalDiff

/-! ## Emitted code -/

/-- A place in a procedure where code is emitted, and a state in which that code is entered. -/
structure EmitPoint where
  env : Env
  B : ProcBuilder
  b : BBlockId
  isOpen : B.IsOpen b
  σ : MState

namespace EmitPoint

variable (P : EmitPoint)

/-- `er` stands for `v` from now on. -/
def Reads (er : ExprResult) (v : Word) : Prop := Settled P.B P.σ (readValue er P.env) v

/-- The code that is emitted leaves a result that stands for `v`. -/
def Leaves (emit : Build ExprResult) (v : Word) : Prop :=
  ∃ dst B' σ', emit P.B = some (dst, B') ∧ Runs P.env P.b P.B P.σ P.b B' σ' ∧
    Settled B' σ' (readValue dst P.env) v

variable {P}

/-- Emission and execution are functions: they leave what the specification of the code says. -/
theorem leaves_iff {emit : Build ExprResult} {x y dst : ExprResult} {B' : ProcBuilder}
    {op : Word → Word → Word} {v w z : Word} (hrun : emit P.B = some (dst, B'))
    (hc : Combines P.b P.B (readValue x) (readValue y) op (readValue dst) B')
    (hv : P.Reads x v) (hw : P.Reads y w) : P.Leaves emit z ↔ op v w = z := by
  obtain ⟨σ₁, hr₁, -, hset₁⟩ := hc.run P.env P.σ v w hv hw
  constructor
  · rintro ⟨dst', B'', σ', hrun', hr, hset⟩
    obtain ⟨rfl, rfl⟩ : dst = dst' ∧ B' = B'' := by
      rw [hrun] at hrun'
      cases hrun'
      exact ⟨rfl, rfl⟩
    have hσ : σ₁ = σ' := by
      have := Steps.unique (hr₁ B' (.refl B')) (hr B' (.refl B')) (step_endPos _ _)
        (step_endPos _ _)
      injection this
    subst hσ
    exact Option.some.inj ((hset₁.now (List.prefix_refl _)).symm.trans
      (hset.now (List.prefix_refl _)))
  · rintro rfl
    exact ⟨dst, B', σ₁, hrun, hr₁, hset₁⟩

end EmitPoint

/-- `ptr + int`, `int + ptr` or `ptr - int` in a procedure, behind the code of the operands. -/
structure EmittedSum extends EmitPoint where
  add : Bool
  base : Ty
  ptr : ExprResult
  int : ExprResult
  operands : SumOperands B base ptr int
  p : Word
  n : Word
  ptrReads : toEmitPoint.Reads ptr p
  intReads : toEmitPoint.Reads int n

namespace EmittedSum

variable (e : EmittedSum)

def Right : Prop :=
  e.Leaves (emitPtrIntAdd e.b e.ptr e.int e.add) (moved e.add e.p (sizeWord e.base) e.n)

/-- The pointer is an address or is loaded, and the distance survives being kept in a displacement
of 32 bits or in a scale of 8 bits. -/
def Exact : Prop :=
  e.ptr.isMemPtr = true ∧
    match e.int.kind with
    | .imm _ =>
      ((moved e.add (e.ptr.disp.setWidth 64) (sizeWord e.base) e.n).setWidth 32).signExtend 64 =
        moved e.add (e.ptr.disp.signExtend 64) (sizeWord e.base) e.n
    | _ => ((sizeWord e.base).setWidth 8).setWidth 64 * e.n = sizeWord e.base * e.n

theorem moved_left (add : Bool) (p s n d d' : Word) :
    p - d + d' = moved add p s n ↔ d' = moved add d s n := by
  cases add <;> simp only [moved, if_true, Bool.false_eq_true, if_false] <;>
    exact ⟨fun h => by linear_combination h, fun h => by linear_combination h⟩

theorem moved_eq_iff (add : Bool) (p s s' n : Word) :
    moved add p s' n = moved add p s n ↔ s' * n = s * n := by
  cases add <;> simp only [moved, if_true, Bool.false_eq_true, if_false]
  · exact sub_right_inj
  · exact add_right_inj _

theorem right_iff : e.Right ↔ e.Exact := by
  by_cases hm : e.ptr.isMemPtr = true
  · obtain ⟨dst, B', hrun, hc⟩ := emitPtrIntAdd_ok e.isOpen e.operands hm e.add
    rw [Right, EmitPoint.leaves_iff hrun hc e.ptrReads e.intReads, Exact, and_iff_right hm, sumWord]
    cases e.int.kind with
    | imm v => exact moved_left e.add e.p _ _ _ _
    | _ => exact moved_eq_iff e.add e.p _ _ _
  · have hnone := emitPtrIntAdd_none e.operands (by simpa using hm) e.isOpen e.add
    refine iff_of_false ?_ fun h => hm h.1
    rintro ⟨dst, B', σ', hrun, -⟩
    rw [hnone] at hrun
    cases hrun

end EmittedSum

/-- `(q + n) - q` in a procedure, behind the code of the operands. -/
structure EmittedDiff extends EmitPoint where
  base : Ty
  left : ExprResult
  right : ExprResult
  leftPlain : left.IsPlain
  rightPlain : right.IsPlain
  leftType : left.type = .ptr base
  rightType : right.type = .ptr base
  q : Word
  n : Word
  leftReads : toEmitPoint.Reads left (moved true q (sizeWord base) n)
  rightReads : toEmitPoint.Reads right q
  fits : FitsStride (sizeWord base) n

namespace EmittedDiff

variable (e : EmittedDiff)

def Right : Prop := e.Leaves (emitPtrDiff e.b e.left e.right) e.n

def Exact : Prop := SarExact (sizeWord e.base) e.n

theorem right_iff : e.Right ↔ e.Exact := by
  have hclp2 := clp2_eq (sizeWord e.base)
  by_cases hs : (sizeWord e.base).toNat ≤ 2 ^ 63
  · rw [if_pos hs] at hclp2
    obtain ⟨dst, B', hrun, hc⟩ := emitPtrDiff_ok e.isOpen e.leftPlain e.rightPlain e.leftType
      e.rightType hclp2 (clog_lt_of_le hs)
    rw [Right, EmitPoint.leaves_iff hrun hc e.leftReads e.rightReads, moved_sub_self, Exact,
      sshiftRight_stride_iff (by decide) e.fits, SarExact, and_iff_right hs]
  · rw [if_neg hs] at hclp2
    refine iff_of_false ?_ fun h => hs h.1
    rintro ⟨dst, B', σ', hrun, -⟩
    have hnone : (ptrBaseSize e.left.type).bind clp2 = none := by
      rw [e.leftType]
      exact hclp2
    rw [emitPtrDiff, hnone] at hrun
    cases hrun

end EmittedDiff

/-! ## All of them -/

/-- A use of pointer arithmetic, by the place that computes it. -/
inductive PtrArith where
  | foldedSum (e : FoldedSum)
  | foldedDiff (e : FoldedDiff)
  | globalSum (e : GlobalSum)
  | globalDiff (e : GlobalDiff)
  | emittedSum (e : EmittedSum)
  | emittedDiff (e : EmittedDiff)

namespace PtrArith

/-- The result is the address moved by the base size, or the difference divided by it. -/
def Right : PtrArith → Prop
  | foldedSum e => e.Right
  | foldedDiff e => e.Right
  | globalSum e => e.Right
  | globalDiff e => e.Right
  | emittedSum e => e.Right
  | emittedDiff e => e.Right

/-- What the operands must be like. -/
def Exact : PtrArith → Prop
  | foldedSum e => e.Exact
  | foldedDiff e => e.Exact
  | globalSum e => e.Exact
  | globalDiff _ => False
  | emittedSum e => e.Exact
  | emittedDiff e => e.Exact

theorem right_iff_exact (e : PtrArith) : e.Right ↔ e.Exact := by
  cases e with
  | foldedSum e => exact e.right_iff
  | foldedDiff e => exact e.right_iff
  | globalSum e => exact e.right_iff
  | globalDiff e => exact iff_of_false e.not_right id
  | emittedSum e => exact e.right_iff
  | emittedDiff e => exact e.right_iff

end PtrArith

/-- `(:>^int)16 - 1`. -/
def foldedMinusOne : FoldedSum where
  add := false
  ptr := ⟨.ptr (.integer .s32), true, false, true, 16⟩
  int := ⟨.integer .s32, true, false, true, 1⟩
  base := .integer .s32
  ptrType := rfl
  sized := .inr (by decide)
  ptrConst := rfl
  intConst := rfl

/-- Two pointers to neighbours of 12 bytes each. -/
def emittedNeighbours : EmittedDiff where
  env := .trivial
  B := ⟨[], [⟨[], [], false, false⟩], [], 2, [], none, []⟩
  b := 0
  isOpen := ⟨_, rfl, rfl⟩
  σ := ⟨fun r => if r = 0 then 112 else 100, ⟨fun _ => 0, []⟩, 0⟩
  base := .struct 0 12 4
  left := ⟨.ptr (.struct 0 12 4), .reg 0⟩
  right := ⟨.ptr (.struct 0 12 4), .reg 1⟩
  leftPlain := ⟨rfl, by simp, by simp⟩
  rightPlain := ⟨rfl, by simp, by simp⟩
  leftType := rfl
  rightType := rfl
  q := 100
  n := 1
  leftReads := Settled.reg (by decide)
  rightReads := Settled.reg (by decide)
  fits := by decide

theorem not_right_minusOne_neighbours : ¬ (PtrArith.foldedSum foldedMinusOne).Right ∧
    ¬ (PtrArith.emittedDiff emittedNeighbours).Right := by
  refine ⟨fun h => ?_, fun h => ?_⟩
  · have hexact := foldedMinusOne.right_iff.mp h
    revert hexact
    unfold FoldedSum.Exact
    decide
  · obtain ⟨-, hlow, -⟩ : SarExact (sizeWord (.struct 0 12 4)) 1 := emittedNeighbours.right_iff.mp h
    have hclog : Nat.clog 2 (sizeWord (.struct 0 12 4)).toNat = 4 := by decide
    rw [hclog] at hlow
    revert hlow
    decide

end Nibble
