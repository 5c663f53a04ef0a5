import Nibble.Front.Module

/-!
# A compilation

`nibble_compile` up to the start of code generation: the main module is parsed, its `main` is
looked up, and the resolver runs. The resolver is given by what it records and returns.
-/

namespace Nibble.Front

/-- The types that the checks of `main` tell apart. -/
inductive MainTy where
  | int | ptrPtrChar | other
  deriving DecidableEq, Repr

/-- What `resolve_module` and then `resolve_reachable_sym_defs` record and return, and the type
of `main` that they find. -/
structure Resolution where
  errors : List String
  ok : Bool
  mainRet : MainTy
  mainParams : List MainTy

/-- `main_proc_ident`. -/
def mainProcIdent : Identifier := "main"

/-- How `nibble_compile` goes on: it returns `false`, it starts to generate code, or an assertion
fails. -/
inductive CompileEnd where
  | failed | generates | assertion
  deriving DecidableEq, Repr

/-- `sym->kind == SYMBOL_PROC`. -/
def Symbol.isProc : Symbol → Bool
  | .decl _ d => d.kind = .proc
  | _ => false

/-- The checks of the signature of `main`. -/
def checkMain (r : Resolution) : Option Error :=
  if r.mainRet ≠ .int then some .mainRet
  else match r.mainParams with
  | [] => none
  | first :: rest =>
    if first ≠ .int then some (.mainParam 0)
    else if rest.length = 1 ∧ rest[0]? ≠ some .ptrPtrChar then some (.mainParam 1)
    else none

/-- `nibble_compile`, with the errors of the context when it returns or starts to generate. -/
def nibbleCompile (env : Env) (resolve : NibbleCtx → Resolution) (fuel : Nat) (main : OsPath) :
    Option (CompileEnd × List Error) :=
  match parseModule env fuel main (NibbleCtx.empty.setModule main .new) with
  | none => none
  | some (.assertion, ctx) => some (.assertion, ctx.errors)
  | some (.failed, ctx) => some (.failed, ctx.errors)
  | some (.done, ctx) =>
    match (ctx.module main).tables.symTable.lookup mainProcIdent with
    | none => some (.failed, ctx.errors ++ [.noMain])
    | some mainSym =>
      if mainSym.isProc then
        let r := resolve ctx
        let errors := ctx.errors ++ r.errors.map .source
        if r.ok then
          match checkMain r with
          | some e => some (.failed, errors ++ [e])
          | none => some (.generates, errors)
        else some (.failed, errors)
      else some (.failed, ctx.errors ++ [.mainNotProc])

/-! ## What is read after the last statement -/

/-- The errors of the lexer after a statement: those of the text that it includes, of which
`tail` are the ones that no statement of its own follows. -/
def afterStmt (env : Env) (tail : OsPath → Code → List String) (file : OsPath) :
    Option Stmt → List String
  | some (.includeFile pathname) =>
    match env.importAbspath file pathname with
    | .ok path => (env.slurp path).elim [] (tail path)
    | .error _ => []
  | _ => []

/-- The errors that the lexer records after the last statement of a text was parsed; `none` for a
text without statements. An included file belongs to the text. -/
def tailErrors (env : Env) : Nat → OsPath → Code → Option (List String)
  | 0, _, code => if code.stmts = [] then none else some []
  | left + 1, file, code => code.stmts.getLast?.map fun p =>
    afterStmt env (fun path code => (tailErrors env left path code).getD code.first) file p.stmt

/-- The modules read so far, and the errors of the lexer that no statement followed. -/
structure Reading where
  seen : List OsPath
  pending : List String

/-- A module whose text is read. -/
def Reading.open (env : Env) (r : Reading) (file : OsPath) (code : Code) : Reading :=
  ⟨file :: r.seen, (tailErrors env (includeLimit + 1) file code).getD (r.pending ++ code.first)⟩

/-- The texts of a module and of those that it imports, in the order in which they are read. -/
def readModule (env : Env) : Nat → OsPath → Reading → Reading
  | 0, _, r => r
  | fuel + 1, file, r =>
    match env.slurp file with
    | none => r
    | some code =>
      (parseCode env [] file code).2.importStmts.foldl
        (fun r stmt =>
          match env.importAbspath file stmt.modPathname with
          | .ok path => if path ∈ r.seen then r else readModule env fuel path r
          | .error _ => r)
        (r.open env file code)

end Nibble.Front
