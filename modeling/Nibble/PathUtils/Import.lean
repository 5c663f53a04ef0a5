import Nibble.PathUtils.Norm

/-!
# get_import_abspath

The helpers of `path_utils.c` that take paths apart and join them, and `get_import_abspath` of
`compiler.c`. What `path_kind` finds is given by a function on paths; `none` is a failed assertion.
-/

namespace Nibble.PathUtils

open Nibble.Front (PathErr)

inductive FileKind where
  | none | reg | dir | other
  deriving DecidableEq, Repr

/-- `path_set`, of a text with its terminator. -/
def pathSet (str : List UInt8) (len : Nat) : List UInt8 := (str ++ [0]).take len

/-- What a string is to a loop that ends at the first terminator. -/
def cText (str : List UInt8) : List UInt8 := str.takeWhile (· ≠ 0)

/-- `path_join`; the text of `b` is copied up to its first terminator. -/
def pathJoin (dst b : List UInt8) (bLen : Nat) : List UInt8 :=
  if bLen = 0 then dst
  else if dst = [] ∨ pathIsabs b then pathSet b bLen
  else (if dst.getLast? = some sep then dst else dst ++ [sep]) ++ cText b

/-- The loop of `path_basename_ptr` and `path_ext_ptr`, from the position `p` down: the position
behind the last `c`. -/
def ptrBehind (c : UInt8) (path : List UInt8) : Nat → Nat
  | 0 => 0
  | p + 1 => if path[p]? = some c then p + 1 else ptrBehind c path p

/-- `path_basename_ptr` -/
def pathBasenamePtr (path : List UInt8) : Nat := ptrBehind sep path path.length

/-- `path_ext_ptr` -/
def pathExtPtr (path : List UInt8) : Nat := ptrBehind dot path path.length

/-- `path_dirname` -/
def pathDirname (path : List UInt8) : List UInt8 := path.take (pathBasenamePtr path - 1)

/-- `path_abs` -/
def pathAbs (path cwd : List UInt8) : Option (List UInt8) :=
  if pathIsabs path then pathNorm path
  else if pathIsabs cwd then pathNorm (pathJoin cwd path (path.length + 1))
  else none

/-- `PathRelativity` -/
inductive PathRelativity where
  | invalid | root | curr | progEntry | unknown
  deriving DecidableEq, Repr

def dollar : UInt8 := 36

/-- `path_relativity` -/
def pathRelativity (path : List UInt8) : PathRelativity :=
  if path.length = 0 then .invalid
  else if pathIsabs path then .root
  else if path.take 2 = [dot, sep] then .curr
  else if path.take 3 = [dot, dot, sep] then .curr
  else if path.take 2 = [dollar, sep] then .progEntry
  else .unknown

/-! ## Imports -/

/-- `nib_ext` -/
def nibExt : List UInt8 := [110, 105, 98]

/-- `dir_module_entry`: `module.nib` -/
def dirModuleEntry : List UInt8 := [109, 111, 100, 117, 108, 101, 46, 110, 105, 98]

/-- An import: the literal, the file that imports, the file with which the program begins, the
directory in which the compiler runs and the search paths. Paths together have lengths of 32
bits. -/
structure Import where
  pathStr : List UInt8
  importer : Front.OsPath
  importer_abs : pathIsabs importer.bytes = true
  mainPath : Front.OsPath
  mainPath_abs : pathIsabs mainPath.bytes = true
  workingDir : Front.OsPath
  workingDir_abs : pathIsabs workingDir.bytes = true
  modulePaths : List Front.OsPath
  fits : ∀ p ∈ [importer, mainPath] ++ modulePaths,
    workingDir.bytes.length + p.bytes.length + pathStr.length + 4 < 2 ^ 32

section

variable (kind : List UInt8 → FileKind)

/-- A directory stands for its `module.nib`. -/
def moduleFile (result : List UInt8) : List UInt8 :=
  if kind result = .dir then pathJoin result dirModuleEntry dirModuleEntry.length else result

def hasNibExt (result : List UInt8) : Bool :=
  decide (cText (result.drop (pathExtPtr result)) = nibExt)

/-- What follows on `path_norm` for all imports that are not searched. -/
def checkImport (result : List UInt8) : Option (Except PathErr (List UInt8)) :=
  if pathIsabs result then
    let result := moduleFile kind result
    if kind result ≠ .reg then some (.error .invPath)
    else if !hasNibExt result then some (.error .invExt)
    else some (.ok result)
  else none

/-- The loop over the search paths; `last` is what was found on the one before. -/
def searchImport (pathStr cwd : List UInt8) : FileKind → List (List UInt8) →
    Option (Except PathErr (List UInt8))
  | last, [] => some (.error (if last = .reg then .invExt else .invPath))
  | _, path :: paths => do
    let result ← pathAbs (pathJoin (pathSet path path.length) pathStr pathStr.length) cwd
    let result := moduleFile kind result
    if kind result = .reg ∧ hasNibExt result then
      if pathIsabs result then some (.ok result) else none
    else searchImport pathStr cwd (kind result) paths

/-- `get_import_abspath`; the directory of the program is that of its first file. -/
def getImportAbspath (imp : Import) : Option (Except PathErr (List UInt8)) :=
  let str := imp.pathStr
  match pathRelativity str with
  | .root => do
    let result ← pathNorm (pathSet str str.length)
    checkImport kind result
  | .curr => do
    let dir := imp.importer.bytes.take (pathBasenamePtr imp.importer.bytes - 1)
    let result ← pathNorm (pathJoin (pathSet dir dir.length) str str.length)
    checkImport kind result
  | .progEntry => do
    let dir := pathDirname imp.mainPath.bytes
    let result ← pathNorm (pathJoin (pathSet dir dir.length) (str.drop 2) (str.length - 2))
    checkImport kind result
  | .unknown =>
    searchImport kind str imp.workingDir.bytes .none (imp.modulePaths.map (·.bytes))
  | .invalid => some (.error .invPath)

end

end Nibble.PathUtils
