import Mathlib.Logic.Relation
import Nibble.Front.Lexer
import Nibble.PathUtils.Import

/-!
# Source files and their positions

`add_src_file`, `get_src_file`, `get_src_linecol` and `print_error` of `compiler.c`. The texts of
all files lie one behind the other on one line of positions, and the lexer of a file writes down
where the lines of the file begin.
-/

namespace Nibble.Front

/-- What is read of a file: bytes, NULs among them or not, with a terminator behind them. -/
structure SourceText where
  chars : List Char
  bytes : ∀ c ∈ chars, c.toNat < 256
  fits : chars.length + 1 < 2 ^ 32

namespace SourceText

def buf (code : SourceText) : List Char := code.chars ++ ['\x00']

/-- The text for a reader that stops at the first NUL. -/
def str (code : SourceText) : CString where
  chars := code.chars.takeWhile (· ≠ '\x00')
  bytes := fun c hc => by
    have hall := List.all_takeWhile (p := fun c => decide (c ≠ '\x00')) (l := code.chars)
    have hnul : c ≠ '\x00' := of_decide_eq_true (List.all_eq_true.mp hall c hc)
    refine ⟨Nat.pos_of_ne_zero fun h => hnul (Char.toNat_inj.mp h), ?_⟩
    exact code.bytes c ((List.takeWhile_sublist _).mem hc)

end SourceText

structure SourceFile where
  range : ProgRange
  code : SourceText
  absPath : List UInt8
  linePos : List Nat

/-- A difference of positions, in 32 bits. -/
def posSub (a b : Nat) : Nat := progPos (a + 2 ^ 32 - b)

def getCurrSrcPos (files : List SourceFile) : Nat := (files.getLast?.map (·.range.stop)).getD 0

/-- The file that `add_src_file` puts behind the others. -/
def newSrcFile (files : List SourceFile) (absPath : List UInt8) (code : SourceText) : SourceFile :=
  let srcPos := getCurrSrcPos files
  ⟨⟨srcPos, progPos (srcPos + code.chars.length)⟩, code, absPath, []⟩

def addSrcFile (files : List SourceFile) (absPath : List UInt8) (code : SourceText) :
    List SourceFile := files ++ [newSrcFile files absPath code]

/-- `get_src_file`: where the file is in the list. -/
def getSrcFile (files : List SourceFile) (pos : Nat) : Option Nat :=
  files.findIdx? fun file => pos < file.range.stop

structure LineCol where
  line : Nat
  col : Nat
  deriving DecidableEq, Repr

/-- The loop of `get_src_linecol`: how many lines begin up to `pos`, and where the last of them
does. -/
def lineLoop (stop pos : Nat) : List Nat → Nat → Nat → Option (Nat × Nat)
  | [], i, lineStart => some (i, lineStart)
  | lineEnd :: linePos, i, lineStart =>
    if lineEnd ≤ stop then
      if pos < lineEnd then some (i, lineStart) else lineLoop stop pos linePos (i + 1) lineEnd
    else none

/-- `get_src_linecol` -/
def getSrcLinecol (file : SourceFile) (pos : Nat) : Option LineCol :=
  if file.range.start ≤ pos ∧ pos ≤ file.range.stop then do
    let (i, lineStart) ← lineLoop file.range.stop pos file.linePos 0 file.range.start
    some ⟨i + 1, progPos (posSub pos lineStart + 1)⟩
  else none

/-! ## Printing -/

/-- An `Error` of the error stream. -/
structure SrcError where
  range : ProgRange
  msg : String

/-- What `print_error` prints, each piece with one format. -/
inductive Piece where
  /-- `%.*s:%u:%u: [Error]: %s`, and an empty line. -/
  | header (path : List UInt8) (linecol : LineCol) (msg : String)
  /-- ` %5d | ` -/
  | line (n : Nat)
  /-- The same, behind a newline. -/
  | nextLine (n : Nat)
  /-- The same, with the color set back for the number. -/
  | nextRedLine (n : Nat)
  | char (c : Char)
  | redColor | resetColor | emptyLine
  deriving DecidableEq, Repr

/-- A loop over the positions of a file, `n` of them from `p` on; a read outside the text and its
terminator is a fault. -/
def printSpan (file : SourceFile) (newLine : Nat → Piece) :
    Nat → Nat → Nat → Option (List Piece × Nat)
  | 0, _, line => some ([], line)
  | n + 1, p, line => do
    let ch ← file.code.buf[posSub p file.range.start]?
    if ch = '\n' then
      let (pieces, last) ← printSpan file newLine n (p + 1) (line + 1)
      some (newLine (line + 1) :: pieces, last)
    else
      let (pieces, last) ← printSpan file newLine n (p + 1) line
      some (.char ch :: pieces, last)

/-- The rest of a line, from a pointer into the text. -/
def printRest : List Char → Option (List Piece)
  | [] => none
  | c :: cs => if c ≠ '\x00' ∧ c ≠ '\n' then (printRest cs).map (.char c :: ·) else some []

/-- `print_error` -/
def printError (files : List SourceFile) (error : SrcError) (useColors testModePaths : Bool) :
    Option (List Piece) := do
  let i ← getSrcFile files error.range.start
  let file ← files[i]?
  let linecol ← getSrcLinecol file error.range.start
  let path := if testModePaths then file.absPath.drop (PathUtils.pathBasenamePtr file.absPath)
    else file.absPath
  let lineStart := posSub error.range.start (linecol.col - 1)
  let (before, line) ← printSpan file .nextLine (error.range.start - lineStart) lineStart linecol.line
  let newLine := if useColors then Piece.nextRedLine else Piece.nextLine
  let (marked, _) ← printSpan file newLine (error.range.stop - error.range.start)
    error.range.start line
  let rest ← printRest (file.code.buf.drop (posSub error.range.stop file.range.start))
  some (.header path linecol error.msg :: .line linecol.line :: before ++
    (if useColors then [.redColor] else []) ++ marked ++
    (if useColors then [.resetColor] else []) ++ rest ++ [.emptyLine])

/-! ## Runs -/

/-- What a lexer looks names and numbers up in. -/
structure LexEnv where
  identKind : List Char → IdentifierKind
  strtof : List Char → Option Nat
  strtod : List Char → Option Nat

/-- The lexer of a file. -/
def SourceFile.lexer (env : LexEnv) (file : SourceFile) : Lexer :=
  ⟨file.code.str, file.range.start, env.identKind, env.strtof, env.strtod⟩

/-- A file with the cursor of its lexer and what the lexer has reported. -/
structure Opened where
  file : SourceFile
  cur : List Char
  errors : List LexError

/-- The files that are there, in the order in which they were added. -/
abbrev Sources : Type := List Opened

def Sources.files (sources : Sources) : List SourceFile := sources.map (·.file)

/-- A file is added, or the lexer of one of them reads a token. -/
inductive SourceStep (env : LexEnv) : Sources → Sources → Prop where
  | add (sources : Sources) (absPath : List UInt8) (code : SourceText) :
      SourceStep env sources
        (sources ++ [⟨newSrcFile sources.files absPath code, code.str.text, []⟩])
  | scan {sources : Sources} {k : Nat} {o : Opened} {token : Token} {cur : List Char}
      {errors : List LexError} {linePos : List Nat} (hk : sources[k]? = some o)
      (hscan : scanToken (o.file.lexer env) o.cur ⟨some o.errors, some o.file.linePos⟩ =
        some (token, cur, ⟨some errors, some linePos⟩)) :
      SourceStep env sources (sources.set k ⟨{ o.file with linePos }, cur, errors⟩)

/-- The states that are reached from no files. -/
def SourcesReached (env : LexEnv) : Sources → Prop := Relation.ReflTransGen (SourceStep env) []

end Nibble.Front
