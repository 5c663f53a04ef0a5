import Mathlib.Data.Bool.AllAny
import Nibble.Front.Escape
import Nibble.Print.Format

/-!
# Names in the output

`symbol_mangled_name`, the labels and the names of literals that `nasm_gen.c` makes, and how the
global symbols of a program come to be emitted: modules are numbered in the order in which they
are added, a name is declared once in its module, and a symbol that is resolved joins the
variables, the procedures or the foreign procedures. Names are bytes, and texts are printed by
`ftprintv`.
-/

namespace Nibble.Ast

open Nibble.Print (Arg Put Field ftprintv codes)

/-- What steps of `ftprintv` put out, without the terminator. -/
def putText : Put → List Nat
  | .copied c => [c.toNat]
  | .converted field => field.left ++ field.core ++ field.right
  | .stored | .terminator => []

/-- `ftprint_char_array` into an array that is empty. -/
def ftprintCharArray (format : String) (args : List Arg) : Option (List Nat) :=
  (ftprintv format.toList args).map (·.flatMap putText)

/-- An identifier that was scanned; the name of an intrinsic starts with a `#`. -/
structure Ident where
  str : List UInt8
  chars : ∀ c ∈ str, Front.isAlphanum (Front.chr c) = true ∨ Front.chr c = '#'
  deriving DecidableEq

/-- `main_proc_ident` -/
def mainProcIdent : Ident := ⟨[109, 97, 105, 110], List.all_iff_forall_prop.mp (by decide)⟩

/-- A declaration that gets a global symbol with code or data. The argument of a foreign procedure
is the second one of its annotation. -/
inductive GlobalKind
  | var
  | proc (isIncomplete : Bool)
  | foreign (nameArg : Option (List UInt8))
  deriving DecidableEq

/-- A global symbol; `home` is the number of its module. -/
structure GlobalSym where
  kind : GlobalKind
  name : Ident
  home : Nat
  deriving DecidableEq

/-- `sym->as_proc.foreign_name` -/
def GlobalSym.foreignName (sym : GlobalSym) : List UInt8 :=
  match sym.kind with
  | .foreign (some name) => name
  | _ => sym.name.str

/-- `NIBBLE_PATH_SEP` becomes an underscore. -/
def replacePathSep (text : List Nat) : List Nat := text.map fun c => if c = 47 then 95 else c

/-- `symbol_mangled_name` for a global symbol. The number of a module has 64 bits, of which `%u`
reads the lower half. -/
def symbolMangledName (sym : GlobalSym) : Option (List Nat) := do
  let dstr ← match sym.kind with
    | .foreign _ => ftprintCharArray "%s wrt ..plt" [.str (some sym.foreignName)]
    | _ =>
      if sym.name = mainProcIdent then ftprintCharArray "%s" [.str (some sym.name.str)]
      else ftprintCharArray "module%u_%s" [.int (BitVec.ofNat 32 sym.home), .str (some sym.name.str)]
  some (replacePathSep dstr)

/-! ## Labels -/

def X64_NASM_STR_LIT_PRE : List UInt8 := (codes "__nibble_str_lit_").map UInt8.ofNat

def X64_NASM_FLOAT_LIT_PRE : List UInt8 := (codes "__nibble_float_lit_").map UInt8.ofNat

/-- `X64_nasm_float_lit_mangled_name` -/
def nasmFloatLitMangledName (index : BitVec 64) : Option (List Nat) :=
  ftprintCharArray "%s_%llu" [.str (some X64_NASM_FLOAT_LIT_PRE), .long index]

/-- The name of a string literal in `X64_nasm_gen_rodata`. -/
def nasmStrLitName (index : BitVec 64) : Option (List Nat) :=
  ftprintCharArray "%s_%llu" [.str (some X64_NASM_STR_LIT_PRE), .long index]

/-- `X64_nasm_get_label` -/
def nasmGetLabel (procId : BitVec 64) (bblockIdx : BitVec 32) : Option (List Nat) :=
  ftprintCharArray "L.%llu.%u" [.long procId, .int bblockIdx]

/-! ## Programs -/

/-- What a compilation knows of modules and global symbols. -/
structure Names where
  /-- the paths of the modules, each at its number -/
  modMap : List (List UInt8) := []
  decls : List GlobalSym := []
  vars : List GlobalSym := []
  procs : List GlobalSym := []
  foreignProcs : List GlobalSym := []

/-- `check_foreign_ident_name` -/
def checkForeignIdentName (str : List UInt8) : Bool :=
  str ≠ [] && str ≠ [95] && str.all fun c => Front.isAlphanum (Front.chr c)

namespace Names

/-- `add_module`, of a path that `get_module` does not find. -/
def addModule (b : Names) (absPath : List UInt8) : Option Names :=
  if absPath ∈ b.modMap then none else some { b with modMap := b.modMap ++ [absPath] }

/-- `install_module_decl` -/
def installModuleDecl (b : Names) (sym : GlobalSym) : Option Names :=
  if sym.home < b.modMap.length ∧ ∀ old ∈ b.decls, ¬ (old.home = sym.home ∧ old.name = sym.name) then
    some { b with decls := b.decls ++ [sym] }
  else none

/-- The symbols that were resolved. -/
def resolved (b : Names) : List GlobalSym := b.vars ++ b.procs ++ b.foreignProcs

/-- `resolve_symbol`: a symbol is resolved once. -/
def resolveSymbol (b : Names) (sym : GlobalSym) : Option Names :=
  if sym ∈ b.decls ∧ sym ∉ b.resolved then
    match sym.kind with
    | .var => some { b with vars := b.vars ++ [sym] }
    | .proc _ => some { b with procs := b.procs ++ [sym] }
    | .foreign nameArg =>
      if nameArg.all checkForeignIdentName then
        some { b with foreignProcs := b.foreignProcs ++ [sym] }
      else none
  else none

/-- The symbols whose names are put out: an intrinsic procedure has no body. -/
def emitted (b : Names) : List GlobalSym :=
  b.vars ++ b.procs.filter fun sym => sym.kind ≠ .proc true

/-- What a compilation without errors comes to. -/
inductive Reached : Names → Prop
  | start : Reached {}
  | addModule {b b' : Names} (h : Reached b) (absPath : List UInt8)
      (hb : b.addModule absPath = some b') : Reached b'
  | installModuleDecl {b b' : Names} (h : Reached b) (sym : GlobalSym)
      (hb : b.installModuleDecl sym = some b') : Reached b'
  | resolveSymbol {b b' : Names} (h : Reached b) (sym : GlobalSym)
      (hb : b.resolveSymbol sym = some b') : Reached b'

end Names

end Nibble.Ast
