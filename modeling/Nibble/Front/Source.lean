import Mathlib.Data.List.Basic

/-!
# Source files

What the lexer and the parser make of a file: the errors that they record and the global
statements, in their order. `Env` is what lies around the compiler: the files, the paths that
`get_import_abspath` finds, and the hash function of byte strings.
-/

namespace Nibble.Front

/-- An interned identifier: two are the same pointer if they have the same text. -/
abbrev Identifier := String

/-- A path of the operating system: bytes among which there is no terminator. -/
structure OsPath where
  bytes : List UInt8
  noNul : 0 ∉ bytes
  deriving DecidableEq

theorem OsPath.ext {p q : OsPath} (h : p.bytes = q.bytes) : p = q := by
  cases p
  cases q
  cases h
  rfl

inductive DeclKind where
  | var | const | typedef | proc | enum | struct | union
  deriving DecidableEq, Repr

/-- `Decl`: the flag is `DECL_IS_EXPORTED`. -/
structure Decl where
  kind : DeclKind
  name : Identifier
  isExported : Bool
  deriving DecidableEq, Repr

structure ImportSymbol where
  name : Identifier
  rename : Option Identifier
  deriving DecidableEq, Repr

structure StmtImport where
  importSyms : List ImportSymbol
  modPathname : String
  modNamespace : Option Identifier
  deriving DecidableEq, Repr

/-- `ExportSymbol`: its namespaced identifier is `ident` and then the names after each `::`. -/
structure ExportSymbol where
  ident : Identifier
  rest : List Identifier
  rename : Option Identifier
  deriving DecidableEq, Repr

structure StmtExport where
  exportSyms : List ExportSymbol
  deriving DecidableEq, Repr

/-- The global statements, as `parse_global_stmt` returns them. -/
inductive Stmt where
  | decl (decl : Decl)
  | staticAssert
  | importMod (stmt : StmtImport)
  | exportSyms (stmt : StmtExport)
  | includeFile (filePathname : String)
  deriving DecidableEq, Repr

/-- The errors of the front end, each with what its text names. -/
inductive Error where
  | source (text : String)
  | includeLimit
  | includePath (pathname : String)
  | includeExt (pathname : String)
  | includeSelf (file : OsPath)
  | includeSeen (file includer : OsPath)
  | duplicate (name : Identifier)
  | importPath (pathname : String)
  | importExt (pathname : String)
  | cyclicImport (pathname : String)
  | importConflict (name : Identifier)
  | importUnknown (name : Identifier) (module : OsPath)
  | exportNamespace (name : Identifier)
  | exportUnknown (name : Identifier)
  | exportRename (ident : Identifier) (rest : List Identifier)
  | exportBuiltin (ident : Identifier) (rest : List Identifier)
  | exportConflict (name : Identifier)
  | noMain
  | mainNotProc
  | mainRet
  | mainParam (index : Nat)
  deriving DecidableEq

/-- What one call of `parse_global_stmt` records and returns; `none` is the null pointer, which
comes with an error. The errors of the lexer and the parser are their texts. -/
structure ParsedStmt where
  errors : List String
  stmt : Option Stmt
  reported : stmt = none → errors ≠ []
  deriving DecidableEq

/-- The text of a file, as the errors of the first `next_token` and the calls of
`parse_global_stmt` up to `TKN_EOF`. -/
structure Code where
  first : List String
  stmts : List ParsedStmt
  deriving DecidableEq

/-- `NibblePathErr`, its success apart. -/
inductive PathErr where
  | invPath | invExt
  deriving DecidableEq, Repr

structure Env where
  files : List (OsPath × Code)
  /-- `get_import_abspath`, from the path of the importing or including file. -/
  importAbspath : OsPath → String → Except PathErr OsPath
  /-- `hash_bytes` of a path. -/
  hash : OsPath → BitVec 64
  /-- The names of the builtin module, in the order of its symbol list. -/
  builtins : List Identifier

/-- `slurp_file`. -/
def Env.slurp (env : Env) (path : OsPath) : Option Code := env.files.lookup path

/-- How a call ends: with its result `true` or `false`, or in a failed assertion. -/
inductive Ending where
  | done | failed | assertion
  deriving DecidableEq, Repr

end Nibble.Front
