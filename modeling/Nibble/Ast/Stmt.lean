import Nibble.Lib.Structured

/-!
# Statements

The statements of a procedure, `Stmt` of `ast/module.h`. What stands between
their keywords (expressions, conditions, declarations, the values of cases) is
of any kind: the resolver checks it, the bytecode generator emits code for it,
and a meaning says what it does.
-/

namespace Nibble.Ast

open Nibble.Lib Nibble.Lib.Structured

/-- The parts that statements are made of. The cases of a `switch` belong to its head. -/
structure StmtParts where
  Cond : Type
  Expr : Type
  ExprAssign : Type
  Decl : Type
  Ret : Type
  SwitchHead : Type
  StaticAssert : Type

/-- The statements that a `for` may begin a round with. -/
inductive SimpleStmt (P : StmtParts) where
  | expr (e : P.Expr)
  | exprAssign (e : P.ExprAssign)
  | decl (d : P.Decl)

inductive Stmt (P : StmtParts) where
  | noOp
  | staticAssert (a : P.StaticAssert)
  | simple (s : SimpleStmt P)
  | ret (e : Option P.Ret)
  | brk
  | cont
  | block (stmts : List (Stmt P))
  | ifStmt (cond : P.Cond) (ifBody : Stmt P) (elseBody : Option (Stmt P))
  | switchStmt (head : P.SwitchHead) (cases : List (List (Stmt P)))
  | whileStmt (cond : P.Cond) (body : Stmt P)
  | doWhileStmt (cond : P.Cond) (body : Stmt P)
  | forStmt (init : Option (SimpleStmt P)) (cond : Option P.Cond) (body : Stmt P)
      (next : Option (SimpleStmt P))

/-- What the parts do to a store `σ`. A `return` gives a `ρ`; the head of a `switch` selects the
case by its place. -/
structure Meaning (P : StmtParts) (σ ρ : Type*) where
  simple : SimpleStmt P → σ → σ
  cond : P.Cond → σ → σ × Bool
  ret : Option P.Ret → σ → σ × ρ
  select : P.SwitchHead → σ → σ × Option Nat

namespace Meaning

variable {P : StmtParts} {σ ρ : Type*} (M : Meaning P σ ρ)

def optSimple : Option (SimpleStmt P) → σ → σ
  | none => id
  | some s => M.simple s

/-- The condition of a `for`. -/
def optCond : Option P.Cond → σ → σ × Bool
  | none => fun st => (st, true)
  | some c => M.cond c

mutual

/-- A statement, with at most `n` rounds of each loop. To continue a `do` loop is to begin its body
again. -/
def exec (n : Nat) : Stmt P → Prog σ ρ
  | .noOp | .staticAssert _ => skip
  | .simple s => act (M.simple s)
  | .ret e => fun st => some (.ret (M.ret e st).2, (M.ret e st).1)
  | .brk => fun st => some (.brk, st)
  | .cont => fun st => some (.cont, st)
  | .block stmts => execBlock n stmts
  | .ifStmt c ifBody none => branch (M.cond c) (exec n ifBody) skip
  | .ifStmt c ifBody (some elseBody) => branch (M.cond c) (exec n ifBody) (exec n elseBody)
  | .switchStmt head cases => switch (M.select head) (execCases n cases)
  | .whileStmt c body => rounds (whileRound (M.cond c) (exec n body) id) n
  | .doWhileStmt c body => rounds (doWhileRound (M.cond c) (exec n body)) n
  | .forStmt init c body next => seq (act (M.optSimple init))
      (rounds (whileRound (M.optCond c) (exec n body) (M.optSimple next)) n)

def execBlock (n : Nat) : List (Stmt P) → Prog σ ρ
  | [] => skip
  | s :: stmts => seq (exec n s) (execBlock n stmts)

def execCases (n : Nat) : List (List (Stmt P)) → List (Prog σ ρ)
  | [] => []
  | stmts :: cases => execBlock n stmts :: execCases n cases

end

end Meaning

end Nibble.Ast
