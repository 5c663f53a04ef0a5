import Nibble.Front.Source
import Mathlib.Logic.Function.Basic

/-!
# Included files

`parse_code` with its recursion into included files. A file that was included before is found
through a table from hashes to chains of paths; the including file itself by `cstr_ncmp`.
The state also keeps the files included so far and the include statements met, with what the
code decided for each.
-/

namespace Nibble.Front

/-- The loop of `cstr_ncmp`; a string that has ended reads as its terminator. -/
def cstrNcmpLoop : List UInt8 → List UInt8 → Nat → Int
  | a :: str₁, b :: str₂, num + 1 =>
    if a = b ∧ a ≠ 0 ∧ b ≠ 0 then cstrNcmpLoop str₁ str₂ num
    else (a.toNat : Int) - (b.toNat : Int)
  | str₁, str₂, _ => ((str₁.headD 0).toNat : Int) - ((str₂.headD 0).toNat : Int)

/-- `cstr_ncmp`. -/
def cstrNcmp (str₁ str₂ : List UInt8) : Nat → Int
  | 0 => 0
  | num + 1 => cstrNcmpLoop str₁ str₂ num

/-- `NIBBLE_INCLUDE_LIMIT`. -/
def includeLimit : Nat := 50

/-- An element of a chain of `CachedInclude`. -/
structure CachedInclude where
  includer : OsPath
  path : OsPath
  deriving DecidableEq

/-- What is decided for an include statement. `nullKey` is the assertion of `hmap_get`. -/
inductive Verdict where
  | limit | invPath | invExt | self | seen (first : OsPath) | nullKey | accepted (path : OsPath)
  deriving DecidableEq

/-- An include statement that was met: where, after which files, and what was decided. -/
structure IncludeStep where
  file : OsPath
  pathname : String
  depth : Nat
  before : List OsPath
  verdict : Verdict
  deriving DecidableEq

/-- The state of `parse_code_recursive`: the errors of the context, the lists of the module, and
`seen_includes`. The files in `included` are the last one first. -/
structure ParseState where
  errors : List Error
  importStmts : List StmtImport
  exportStmts : List StmtExport
  stmts : List Stmt
  seenIncludes : BitVec 64 → List CachedInclude
  included : List OsPath
  met : List IncludeStep

namespace ParseState

def init (errors : List Error) : ParseState := ⟨errors, [], [], [], fun _ => [], [], []⟩

def record (s : ParseState) (errors : List Error) : ParseState :=
  { s with errors := s.errors ++ errors }

/-- A call that reports an error and returns `false`. -/
def fail (s : ParseState) (e : Error) : Ending × ParseState := (.failed, s.record [e])

end ParseState

/-- The checks before a file is included. -/
def checkInclude (env : Env) (s : ParseState) (depth : Nat) (file : OsPath) (pathname : String) :
    Verdict :=
  if includeLimit < depth then .limit
  else match env.importAbspath file pathname with
  | .error .invPath => .invPath
  | .error .invExt => .invExt
  | .ok path =>
    if cstrNcmp file.bytes path.bytes path.bytes.length = 0 then .self
    else if env.hash path = 0 then .nullKey
    else
      let seen (it : CachedInclude) : Bool := it.path.bytes.length = path.bytes.length ∧
        cstrNcmp it.path.bytes path.bytes path.bytes.length = 0
      match (s.seenIncludes (env.hash path)).find? seen with
      | some it => .seen it.includer
      | none => .accepted path

/-- The branch of `parse_code_recursive` for an include statement. -/
def includeStmt (env : Env) (parse : OsPath → Code → ParseState → Ending × ParseState)
    (depth : Nat) (file : OsPath) (pathname : String) (s : ParseState) : Ending × ParseState :=
  let verdict := checkInclude env s depth file pathname
  let s := { s with met := s.met ++ [⟨file, pathname, depth, s.included, verdict⟩] }
  match verdict with
  | .limit => s.fail .includeLimit
  | .invPath => s.fail (.includePath pathname)
  | .invExt => s.fail (.includeExt pathname)
  | .self => s.fail (.includeSelf file)
  | .seen first => s.fail (.includeSeen file first)
  | .nullKey => (.assertion, s)
  | .accepted path =>
    -- `cached_include` is null here, so the new element has no successor.
    let chain := [⟨file, path⟩]
    let s := { s with
      seenIncludes := Function.update s.seenIncludes (env.hash path) chain
      included := path :: s.included }
    match env.slurp path with
    | none => (.failed, s)
    | some code => parse path code s

/-- The branches of `parse_code_recursive` by the kind of statement. -/
def parseStmt (env : Env) (parse : OsPath → Code → ParseState → Ending × ParseState)
    (depth : Nat) (file : OsPath) (s : ParseState) : Stmt → Ending × ParseState
  | .includeFile pathname => includeStmt env parse depth file pathname s
  | .importMod stmt => (.done, { s with importStmts := s.importStmts ++ [stmt] })
  | .exportSyms stmt => (.done, { s with exportStmts := s.exportStmts ++ [stmt] })
  | stmt => (.done, { s with stmts := s.stmts ++ [stmt] })

/-- The loop of `parse_code_recursive`. -/
def parseStmts (env : Env) (parse : OsPath → Code → ParseState → Ending × ParseState)
    (depth : Nat) (file : OsPath) : List ParsedStmt → ParseState → Ending × ParseState
  | [], s => (.done, s)
  | ⟨errors, stmt, _⟩ :: rest, s =>
    let s := s.record (errors.map .source)
    match stmt with
    | none => (.failed, s)
    | some stmt =>
      if s.errors ≠ [] then (.failed, s)
      else match parseStmt env parse depth file s stmt with
        | (.done, s) => parseStmts env parse depth file rest s
        | r => r

/-- `parse_code_recursive` at the include depth that leaves room for `left` more: no file is
opened beyond the limit, so the recursion ends. -/
def parseCodeRecursive (env : Env) : Nat → OsPath → Code → ParseState → Ending × ParseState
  | 0, file, code, s =>
    parseStmts env (fun _ _ s => (.failed, s)) (includeLimit + 1) file code.stmts
      (s.record (code.first.map .source))
  | left + 1, file, code, s =>
    parseStmts env (parseCodeRecursive env left) (includeLimit - left) file code.stmts
      (s.record (code.first.map .source))

/-- `parse_code`, with the errors that the context has so far. -/
def parseCode (env : Env) (errors : List Error) (file : OsPath) (code : Code) :
    Ending × ParseState :=
  parseCodeRecursive env (includeLimit + 1) file code (.init errors)

end Nibble.Front
