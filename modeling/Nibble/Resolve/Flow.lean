import Nibble.Ast.Stmt
import Nibble.Resolve.Switch

/-!
# Control flow of procedure bodies

`resolve_stmt` and the functions for the kinds of statements in
`resolver/stmts.c`, and `resolve_global_proc_body`: which statements return or
leave a loop, and what is an error because of it. What the functions for
expressions, declarations and case values say is given.
-/

namespace Nibble.Resolve

open Nibble.Ast

inductive FlowError where
  | afterReturn
  | afterLoopExit
  | notAllPathsReturn (name : String)
  | missingReturnValue (type : String)
  | voidReturnsValue
  | illegalBreak
  | illegalContinue
  | doWhileReturns
  | doWhileExits
  | declKind
  | declDisallowed
  | shadows (name : String)
  | switch (e : SwitchError)
  /-- An error that a function for expressions, declarations or case values has reported. -/
  | inPart
  deriving DecidableEq, Repr

/-- The text of the error that is reported. -/
def FlowError.text : FlowError → Option String
  | afterReturn => some "Statement will never execute because all previous control paths return"
  | afterLoopExit => some ("Statement will never execute because all previous control paths " ++
      "break or continue the loop")
  | notAllPathsReturn name =>
    some ("Not all code paths in procedure `" ++ name ++ "` return a value")
  | missingReturnValue type =>
    some ("Return statement is missing a return value of type `" ++ type ++ "`")
  | voidReturnsValue => some "Procedure with a `void` return type cannot return a value"
  | illegalBreak => some "Illegal break statement"
  | illegalContinue => some "Illegal continue statement"
  | doWhileReturns => some "All paths in do-while loop's body return before condition check."
  | doWhileExits =>
    some "All paths in do-while loop's body break or continue before condition check."
  | declKind => some "Only variable and type declarations are supported inside procedures"
  | declDisallowed => some ("Variable declarations not allowed in single-statement bodies. " ++
      "Consider using a `\x7b\x7d` block.")
  | shadows name => some ("Identifier `" ++ name ++ "` shadows a previous local declaration")
  | switch e => e.text
  | inPart => none

/-- `RESOLVE_STMT_BREAK_CONTINUE_ALLOWED` and `RESOLVE_STMT_VAR_DECL_DISALLOWED`. -/
structure StmtIn where
  breakContinueAllowed : Bool
  varDeclDisallowed : Bool
  deriving DecidableEq, Repr

/-- What comes of a local declaration. -/
inductive DeclCheck where
  | notLocal
  | shadows (name : String)
  | fails
  | ok
  deriving DecidableEq, Repr

/-- What the functions for the parts say: whether a part is right, and of a `switch` also whether
it has a default case. The expression of a `switch` is checked with the number of its cases. The
return type is named unless it is `void`. -/
structure Checks (P : StmtParts) where
  retType : Option String
  cond : P.Cond → Bool
  expr : P.Expr → Bool
  exprAssign : P.ExprAssign → Bool
  decl : P.Decl → DeclCheck
  ret : P.Ret → Bool
  switchExpr : P.SwitchHead → Nat → Bool
  switchCase : P.SwitchHead → Nat → Bool
  switchCases : P.SwitchHead → Bool
  hasDefault : P.SwitchHead → Bool
  staticAssert : P.StaticAssert → Bool

/-- The errors, and the scopes that have been pushed. -/
structure FlowState where
  errors : List FlowError
  depth : Nat
  deriving DecidableEq, Repr

abbrev Flow := StateM FlowState

namespace Flow

def onError (e : FlowError) : Flow Unit := modify fun st => { st with errors := st.errors ++ [e] }

def pushScope : Flow Unit := modify fun st => { st with depth := st.depth + 1 }

def popScope : Flow Unit := modify fun st => { st with depth := st.depth - 1 }

/-- `push_scope`, and `pop_scope` behind a block. -/
def inScope (x : Flow StmtFlags) : Flow StmtFlags := do
  pushScope
  let r ← x
  popScope
  pure r

/-- No flag. -/
def failed : StmtFlags := ⟨false, false, false⟩

def succeeded : StmtFlags := ⟨true, false, false⟩

def failWith (e : FlowError) : Flow StmtFlags := do
  onError e
  pure failed

/-- A part that is right, or an error that has been reported. -/
def checkPart (ok : Bool) : Flow StmtFlags := if ok then pure succeeded else failWith .inPart

variable {P : StmtParts} (chk : Checks P)

/-- `resolve_stmt_decl` -/
def resolveStmtDecl (d : P.Decl) (flags : StmtIn) : Flow StmtFlags :=
  match chk.decl d, flags.varDeclDisallowed with
  | .notLocal, _ => failWith .declKind
  | _, true => failWith .declDisallowed
  | .shadows name, false => failWith (.shadows name)
  | .fails, false => failWith .inPart
  | .ok, false => pure succeeded

def resolveSimple (s : SimpleStmt P) (flags : StmtIn) : Flow StmtFlags :=
  match s with
  | .expr e => checkPart (chk.expr e)
  | .exprAssign e => checkPart (chk.exprAssign e)
  | .decl d => resolveStmtDecl chk d flags

def resolveOptSimple (s : Option (SimpleStmt P)) (flags : StmtIn) : Flow StmtFlags :=
  match s with
  | none => pure succeeded
  | some s => resolveSimple chk s flags

/-- The case `CST_StmtReturn` of `resolve_stmt`. It returns also where it fails. -/
def resolveReturn (e : Option P.Ret) : Flow StmtFlags :=
  match e, chk.retType with
  | none, none => pure ⟨true, true, false⟩
  | none, some type => do
    onError (.missingReturnValue type)
    pure ⟨false, true, false⟩
  | some _, none => do
    onError .voidReturnsValue
    pure ⟨false, true, false⟩
  | some e, some _ =>
    if chk.ret e then pure ⟨true, true, false⟩
    else do
      onError .inPart
      pure ⟨false, true, false⟩

/-- The cases `CST_StmtBreak` and `CST_StmtContinue`. -/
def resolveLoopExit (illegal : FlowError) (flags : StmtIn) : Flow StmtFlags :=
  if flags.breakContinueAllowed then pure ⟨true, false, true⟩ else failWith illegal

/-- The flags are those that both branches have. -/
def bothFlags (r r' : StmtFlags) : StmtFlags :=
  ⟨r.success && r'.success, r.returns && r'.returns, r.loopExits && r'.loopExits⟩

/-- `resolve_stmt_if` -/
def resolveStmtIf (cond : P.Cond) (ifBody : Flow StmtFlags) (elseBody : Option (Flow StmtFlags)) :
    Flow StmtFlags := do
  if !chk.cond cond then failWith .inPart
  else
    let ret ← ifBody
    if !ret.success then pure failed
    else
      match elseBody with
      | some elseBody => do
        let r ← elseBody
        pure (bothFlags ret r)
      | none => pure { ret with returns := false, loopExits := false }

/-- `resolve_stmt_while` -/
def resolveStmtWhile (cond : P.Cond) (body : Flow StmtFlags) : Flow StmtFlags := do
  if !chk.cond cond then failWith .inPart
  else
    let ret ← body
    pure { ret with returns := false, loopExits := false }

/-- `resolve_stmt_do_while` -/
def resolveStmtDoWhile (cond : P.Cond) (body : Flow StmtFlags) : Flow StmtFlags := do
  if !chk.cond cond then failWith .inPart
  else
    let ret ← body
    if ret.returns then onError .doWhileReturns
    if ret.loopExits then onError .doWhileExits
    pure { ret with success := ret.success && !ret.returns && !ret.loopExits }

/-- `resolve_stmt_for`. The test whether `init` returns is never met. -/
def resolveStmtFor (init : Option (SimpleStmt P)) (cond : Option P.Cond) (body : Flow StmtFlags)
    (next : Option (SimpleStmt P)) (flags : StmtIn) : Flow StmtFlags := do
  pushScope
  let flagsNoBreak := { flags with breakContinueAllowed := false }
  let ret ← resolveOptSimple chk init flagsNoBreak
  if !ret.success then pure failed
  else if !(cond.all chk.cond) then failWith .inPart
  else
    let ret ← body
    if !ret.success then pure failed
    else
      let ret ← resolveOptSimple chk next flagsNoBreak
      popScope
      pure { ret with returns := false, loopExits := false }

/-- What a `switch` returns once its cases are checked. -/
def switchFlags (head : P.SwitchHead) (anyNoReturn anyNoLoopExit : Bool) : Flow StmtFlags :=
  if chk.switchCases head then
    pure ⟨true, chk.hasDefault head && !anyNoReturn, chk.hasDefault head && !anyNoLoopExit⟩
  else failWith .inPart

mutual

/-- `resolve_stmt` -/
def resolveStmt : Stmt P → StmtIn → Flow StmtFlags
  | .noOp, _ => pure succeeded
  | .staticAssert a, _ => checkPart (chk.staticAssert a)
  | .simple s, flags => resolveSimple chk s flags
  | .ret e, _ => resolveReturn chk e
  | .brk, flags => resolveLoopExit .illegalBreak flags
  | .cont, flags => resolveLoopExit .illegalContinue flags
  | .block stmts, flags =>
    inScope (resolveStmtBlockBody succeeded stmts { flags with varDeclDisallowed := false })
  | .ifStmt cond ifBody none, flags =>
    resolveStmtIf chk cond (resolveStmt ifBody { flags with varDeclDisallowed := true }) none
  | .ifStmt cond ifBody (some elseBody), flags =>
    resolveStmtIf chk cond (resolveStmt ifBody { flags with varDeclDisallowed := true })
      (some (resolveStmt elseBody { flags with varDeclDisallowed := true }))
  | .switchStmt head cases, flags => do
    if !chk.switchExpr head cases.length then failWith .inPart
    else if cases.length = 0 then failWith (.switch .noCases)
    else if cases.length > 2 ^ 32 - 1 then failWith (.switch .tooManyCases)
    else
      match ← resolveCases head 0 cases flags with
      | none => pure failed
      | some (anyNoReturn, anyNoLoopExit) => switchFlags chk head anyNoReturn anyNoLoopExit
  | .whileStmt cond body, _ => resolveStmtWhile chk cond (resolveStmt body ⟨true, true⟩)
  | .doWhileStmt cond body, _ => resolveStmtDoWhile chk cond (resolveStmt body ⟨true, true⟩)
  | .forStmt init cond body next, flags =>
    resolveStmtFor chk init cond (resolveStmt body ⟨true, true⟩) next flags

/-- The loop of `resolve_stmt_block_body`, with the flags so far. -/
def resolveStmtBlockBody (ret : StmtFlags) : List (Stmt P) → StmtIn → Flow StmtFlags
  | [], _ => pure ret
  | s :: stmts, flags => do
    if ret.returns then
      onError .afterReturn
      pure { ret with success := false }
    else if ret.loopExits then
      onError .afterLoopExit
      pure { ret with success := false }
    else
      let r ← resolveStmt s flags
      let ret' : StmtFlags := ⟨r.success, r.returns || ret.returns, r.loopExits || ret.loopExits⟩
      if r.success then resolveStmtBlockBody ret' stmts flags else pure ret'

/-- The loop of `resolve_stmt_switch`: whether a case does not return, and whether one does not
leave a loop. -/
def resolveCases (head : P.SwitchHead) : Nat → List (List (Stmt P)) → StmtIn →
    Flow (Option (Bool × Bool))
  | _, [], _ => pure (some (false, false))
  | i, stmts :: cases, flags => do
    if !chk.switchCase head i then
      onError .inPart
      pure none
    else
      let r ← inScope (resolveStmtBlockBody succeeded stmts flags)
      if !r.success then pure none
      else
        match ← resolveCases head (i + 1) cases flags with
        | none => pure none
        | some (anyNoReturn, anyNoLoopExit) =>
          pure (some (!r.returns || anyNoReturn, !r.loopExits || anyNoLoopExit))

end

/-- `resolve_global_proc_body` of a procedure with a body: what it returns, and `returns` of the
procedure. Its scope is left only where it gets to its end. -/
def resolveGlobalProcBody (name : String) (stmts : List (Stmt P)) (st : FlowState) :
    Option (Bool × Bool × FlowState) :=
  let (r, st) := (do
    pushScope
    resolveStmtBlockBody chk succeeded stmts ⟨false, false⟩ : Flow StmtFlags).run st
  if r.success && r.loopExits then none
  else if chk.retType.isSome && !r.returns && r.success then
    some (false, r.returns, ((onError (.notAllPathsReturn name)).run st).2)
  else some (r.success, r.returns, (popScope.run st).2)

end Flow

end Nibble.Resolve
