import Nibble.IR.Spec

/-!
# Boolean expressions

The expressions that the short-circuit code is emitted for. Their operands are
given by how they are emitted, what they mean, and the contract that connects
the two: `Leaf` is a boolean value (a variable, a constant, a call, a load),
`Operands` the two sides of a comparison. The sides of a comparison are never
deferred comparisons themselves: `promote_int_eops` has cast a boolean side to
`s32`, which puts it into a register.
-/

namespace Nibble.IR

/-- A boolean value: how it is emitted and the byte it evaluates to. -/
structure Leaf where
  emit : BBlockId → Build (BBlockId × ExprResult)
  sem : Env → Store → Store × BitVec 8
  plain : ∀ b B b' er B', emit b B = some ((b', er), B') → er.IsPlain ∧ er.type = boolTy
  ok : ∀ b B F, Arena B F → B.IsOpen b → ∃ b' er B' F', emit b B = some ((b', er), B') ∧
    Uses F B F' [] B' ∧
    ValSpec sem b B b' B' fun env σ v => ∃ w, Settled B' σ (readValue er env) w ∧ lowBytes 1 w = v
  keeps : ∀ b B b' er B' Q J A, emit b B = some ((b', er), B') → LostJmp Q J A none B →
    LostJmp Q J A none B'

/-- The two sides of a comparison, of one integer, pointer or float type. -/
structure Operands where
  type : Ty
  scalar : type.isIntScalar = true ∨ ∃ k, type = .float k
  emit : BBlockId → Build (BBlockId × ExprResult × ExprResult)
  sem : Env → Store → Store × Word × Word
  plain : ∀ b B b' x y B', emit b B = some ((b', x, y), B') →
    (x.IsPlain ∧ x.type = type) ∧ y.IsPlain ∧ y.type = type
  ok : ∀ b B F, Arena B F → B.IsOpen b → ∃ b' x y B' F', emit b B = some ((b', x, y), B') ∧
    Uses F B F' [] B' ∧
    ValSpec sem b B b' B' fun env σ v =>
      Settled B' σ (readValue x env) v.1 ∧ Settled B' σ (readValue y env) v.2
  keeps : ∀ b B b' er B' Q J A, emit b B = some ((b', er), B') → LostJmp Q J A none B →
    LostJmp Q J A none B'

/-- The truth of a comparison. -/
def Operands.holds (o : Operands) (env : Env) (c : ConditionKind) (x y : Word) : Bool :=
  match o.type with
  | .float k => c.evalFlt (env.fltOrder k x y)
  | t => c.eval (lowBytes t.size x) (lowBytes t.size y)

inductive BExpr where
  | leaf (l : Leaf)
  | cmp (cond : ConditionKind) (o : Operands)
  | not (e : BExpr)
  | and (l r : BExpr)
  | or (l r : BExpr)

namespace BExpr

/-- What a condition does and is worth: the right operand of `&&` and `||` is evaluated exactly
when the left one does not decide. -/
def sem (env : Env) : BExpr → Store → Store × Bool
  | leaf l, st => ((l.sem env st).1, (l.sem env st).2 != 0)
  | cmp c o, st => ((o.sem env st).1, o.holds env c (o.sem env st).2.1 (o.sem env st).2.2)
  | not e, st => ((e.sem env st).1, !(e.sem env st).2)
  | and l r, st => if (l.sem env st).2 then r.sem env (l.sem env st).1 else l.sem env st
  | or l r, st => if (l.sem env st).2 then l.sem env st else r.sem env (l.sem env st).1

def isLeaf : BExpr → Bool
  | leaf _ => true
  | _ => false

def size : BExpr → Nat
  | leaf _ | cmp _ _ => 1
  | not e => e.size + 1
  | and l r | or l r => l.size + r.size + 1

/-- The polarity of the final comparison while it has no jump: `!` turns it over, and a boolean
value under `!` becomes a comparison with zero. -/
def bareSense : BExpr → Option Bool
  | leaf _ => none
  | cmp _ _ => some true
  | not e => if e.isLeaf then some true else e.bareSense.map (!·)
  | and _ _ | or _ _ => none

/-- The values of the pending short-circuit jumps of an expression, in list order. An operator
keeps the jumps of its left operand that agree with its short-circuit value, adds the left
operand's final jump and goes on with the jumps of the right operand. -/
def pending : BExpr → List Bool
  | leaf _ | cmp _ _ => []
  | not e => e.pending.map (!·)
  | and l r => l.pending.filter (!·) ++ false :: r.pending
  | or l r => l.pending.filter (·) ++ true :: r.pending

/-- No operator has to remove a pending jump of its left operand, except the first in the list. -/
def removesFirstOnly : BExpr → Bool
  | leaf _ | cmp _ _ => true
  | not e => e.removesFirstOnly
  | and l r => l.removesFirstOnly && r.removesFirstOnly && l.pending.tail.all (!·)
  | or l r => l.removesFirstOnly && r.removesFirstOnly && l.pending.tail.all (·)

theorem pending_length_lt (e : BExpr) : e.pending.length < e.size := by
  induction e with
  | leaf | cmp => simp [pending, size]
  | not e ih => simp only [pending, size, List.length_map]; omega
  | and l r ihl ihr =>
    have := List.length_filter_le (!·) l.pending
    simp only [pending, size, List.length_append, List.length_cons]
    omega
  | or l r ihl ihr =>
    have := List.length_filter_le (·) l.pending
    simp only [pending, size, List.length_append, List.length_cons]
    omega

end BExpr

/-- `IR_emit_expr` on a boolean expression. -/
def emitBExpr (fuel : Nat) : BExpr → BBlockId → Build (BBlockId × ExprResult)
  | .leaf l, b => l.emit b
  | .cmp cond o, b => do
    let (b, x, y) ← o.emit b
    let cmp ← emitBinaryCmp b cond x y
    pure (b, ⟨boolTy, .deferredCmp (.ofCmp cmp)⟩)
  | .not e, b => do
    let (b, er) ← emitBExpr fuel e b
    emitLogicNot fuel b er
  | .and l r, b => emitShortCircuitCmp fuel false (emitBExpr fuel l) (emitBExpr fuel r) b
  | .or l r, b => emitShortCircuitCmp fuel true (emitBExpr fuel l) (emitBExpr fuel r) b

end Nibble.IR
