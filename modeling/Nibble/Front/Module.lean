import Nibble.Front.Include

/-!
# Modules

The symbol and export tables of a module and how `parse_module` fills them: from the builtin
module, the declarations, the import statements and the export statements. A table is the finite
map that its hash map stands for; the order in which its entries are visited is that of the list.
A symbol is what its pointer identifies.
-/

namespace Nibble.Front

/-- A symbol of a module. A declared name is declared once in its module, so `home` and `decl`
identify the symbol; an import namespace belongs to the import statement `index` of `home`. -/
inductive Symbol where
  | builtin (name : Identifier)
  | decl (home : OsPath) (decl : Decl)
  | module (home : OsPath) (index : Nat) (namespace_ : Identifier) (stmt : StmtImport)
    (mod : OsPath)
  deriving DecidableEq

namespace Symbol

/-- `sym->home`; `none` is the builtin module. -/
def home : Symbol → Option OsPath
  | builtin _ => none
  | decl home _ => some home
  | module home .. => some home

/-- `sym->name`. -/
def name : Symbol → Identifier
  | builtin name => name
  | decl _ d => d.name
  | module _ _ namespace_ .. => namespace_

end Symbol

/-- A hash map from identifiers to symbols. -/
abbrev SymTable := List (Identifier × Symbol)

/-- `hmap_put`. -/
def SymTable.put (t : SymTable) (name : Identifier) (sym : Symbol) : SymTable :=
  t.filter (fun e => e.1 ≠ name) ++ [(name, sym)]

/-- Why a call returns `false`: it reported an error, or an assertion failed. -/
inductive Stop where
  | error (e : Error)
  | assertion
  deriving DecidableEq

/-- `module_add_global_sym`, on the symbol table of the module at `self`. -/
def moduleAddGlobalSym (self : OsPath) (t : SymTable) (name : Identifier) (sym : Symbol) :
    Except Stop SymTable :=
  let oldSym := t.lookup name
  if some sym = oldSym then .ok t
  else
    let isImported : Bool := sym.home ≠ some self
    match oldSym with
    | some old =>
      if isImported ∨ old.home = some self then
        .error (.error (if sym.home = some self then .duplicate name else .importConflict name))
      else .ok (t.put name sym)
    | none => .ok (t.put name sym)

/-- `module_add_export_sym`; `none` is its result `false`. -/
def moduleAddExportSym (t : SymTable) (name : Identifier) (sym : Symbol) : Option SymTable :=
  match t.lookup name with
  | some old => if sym = old then some t else none
  | none => some (t.put name sym)

/-- The two tables of a module. -/
structure Tables where
  symTable : SymTable
  exportTable : SymTable
  deriving DecidableEq

/-- `import_builtin_syms`. -/
def importBuiltinSyms (builtins : List Identifier) (self : OsPath) : Except Stop SymTable :=
  builtins.foldlM (fun t name => moduleAddGlobalSym self t name (.builtin name)) []

/-- `install_module_decl`. -/
def installModuleDecl (self : OsPath) (t : Tables) (d : Decl) : Except Stop Tables :=
  match t.symTable.lookup d.name with
  | some _ => .error (.error (.duplicate d.name))
  | none =>
    let symTable := t.symTable.put d.name (.decl self d)
    if d.isExported then
      match moduleAddExportSym t.exportTable d.name (.decl self d) with
      | some exportTable => .ok ⟨symTable, exportTable⟩
      | none => .error (.error (.exportConflict d.name))
    else .ok ⟨symTable, t.exportTable⟩

/-- `install_module_decls`. -/
def installModuleDecls (self : OsPath) (t : Tables) (stmts : List Stmt) : Except Stop Tables :=
  stmts.foldlM (fun t stmt => match stmt with
    | .decl d => installModuleDecl self t d
    | _ => .ok t) t

/-- `import_all_mod_syms`. -/
def importAllModSyms (self : OsPath) (t exports : SymTable) : Except Stop SymTable :=
  exports.foldlM (fun t entry => moduleAddGlobalSym self t entry.2.name entry.2) t

/-- `import_mod_syms`, from the module at `src`. -/
def importModSyms (self src : OsPath) (t exports : SymTable) (isyms : List ImportSymbol) :
    Except Stop SymTable :=
  isyms.foldlM (fun t isym => match exports.lookup isym.name with
    | none => .error (.error (.importUnknown isym.name src))
    | some sym => moduleAddGlobalSym self t (isym.rename.getD isym.name) sym) t

/-- The part of `parse_module` that adds what an import statement brings in. -/
def importStmtSyms (self : OsPath) (index : Nat) (stmt : StmtImport) (src : OsPath)
    (exports : SymTable) (t : SymTable) : Except Stop SymTable :=
  match stmt.modNamespace with
  | some ns => moduleAddGlobalSym self t ns (.module self index ns stmt src)
  | none =>
    if stmt.importSyms ≠ [] then importModSyms self src t exports stmt.importSyms
    else importAllModSyms self t exports

/-- `get_import_sym_name`. -/
def getImportSymName (stmt : StmtImport) (name : Identifier) : Option Identifier :=
  if stmt.importSyms ≠ [] then
    (stmt.importSyms.find? fun isym => isym.rename.getD isym.name = name).map (·.name)
  else some name

/-- The walk of an export statement through module namespaces, at the symbol that `ident` names.
The export table of a module is `exportsOf`. A name that its namespace does not import is the
null key of a hash map. -/
def exportLookup (exportsOf : OsPath → SymTable) (ident : Identifier) (sym : Option Symbol) :
    List Identifier → Except Stop Symbol
  | [] =>
    match sym with
    | some s => .ok s
    | none => .error (.error (.exportUnknown ident))
  | next :: rest =>
    match sym with
    | none => .error (.error (.exportUnknown ident))
    | some (.module _ _ _ stmt mod) =>
      match getImportSymName stmt next with
      | none => .error .assertion
      | some symName => exportLookup exportsOf next ((exportsOf mod).lookup symName) rest
    | some _ => .error (.error (.exportNamespace ident))

/-- The body of the loop over the export symbols of a module. -/
def exportSymbol (exportsOf : OsPath → SymTable) (t : Tables) (esym : ExportSymbol) :
    Except Stop Tables := do
  let sym ← exportLookup exportsOf esym.ident (t.symTable.lookup esym.ident) esym.rest
  if esym.rest ≠ [] ∧ esym.rename = none then
    throw (.error (.exportRename esym.ident esym.rest))
  else if sym.home = none then
    throw (.error (.exportBuiltin esym.ident esym.rest))
  else
    let expName := esym.rename.getD (esym.rest.getLastD esym.ident)
    match moduleAddExportSym t.exportTable expName sym with
    | some exportTable => return { t with exportTable }
    | none => throw (.error (.exportConflict expName))

/-- The loop of `parse_module` over its export statements. -/
def exportStmts (exportsOf : OsPath → SymTable) (t : Tables) (stmts : List StmtExport) :
    Except Stop Tables :=
  stmts.foldlM (fun t stmt => stmt.exportSyms.foldlM (exportSymbol exportsOf) t) t

/-! ## Parsing modules -/

/-- `Module`. -/
structure Module where
  isParsing : Bool
  tables : Tables
  deriving DecidableEq

def Module.new : Module := ⟨false, ⟨[], []⟩⟩

/-- The context of a compilation. The last two fields record the calls of `parse_module`, the
last one first, and the export tables that import statements have read. -/
structure NibbleCtx where
  errors : List Error
  modMap : OsPath → Option Module
  parsed : List OsPath
  reads : List (OsPath × SymTable)

namespace NibbleCtx

/-- The context before the main module is added. -/
def empty : NibbleCtx := ⟨[], fun _ => none, [], []⟩

/-- The module at a path of the map. -/
def module (ctx : NibbleCtx) (path : OsPath) : Module := (ctx.modMap path).getD .new

def setModule (ctx : NibbleCtx) (path : OsPath) (m : Module) : NibbleCtx :=
  { ctx with modMap := Function.update ctx.modMap path (some m) }

def setTables (ctx : NibbleCtx) (path : OsPath) (t : Tables) : NibbleCtx :=
  ctx.setModule path { ctx.module path with tables := t }

def exportsOf (ctx : NibbleCtx) (path : OsPath) : SymTable := (ctx.module path).tables.exportTable

/-- A call that returns `false`. -/
def stop (ctx : NibbleCtx) : Stop → Ending × NibbleCtx
  | .error e => (.failed, { ctx with errors := ctx.errors ++ [e] })
  | .assertion => (.assertion, ctx)

end NibbleCtx

/-- `parse_import_module`; the module is the one at `path`. -/
def parseImportModule (parse : OsPath → NibbleCtx → Option (Ending × NibbleCtx)) (path : OsPath)
    (ctx : NibbleCtx) : Option (Ending × NibbleCtx) :=
  match ctx.modMap path with
  | some _ => some (.done, ctx)
  | none => parse path (ctx.setModule path .new)

/-- The loop of `parse_module` over its import statements, the next of which has the number
`index`. -/
def importStmts (env : Env) (parse : OsPath → NibbleCtx → Option (Ending × NibbleCtx))
    (self : OsPath) : Nat → List StmtImport → NibbleCtx → Option (Ending × NibbleCtx)
  | _, [], ctx => some (.done, ctx)
  | index, stmt :: rest, ctx =>
    match env.importAbspath self stmt.modPathname with
    | .error .invPath => some (ctx.stop (.error (.importPath stmt.modPathname)))
    | .error .invExt => some (ctx.stop (.error (.importExt stmt.modPathname)))
    | .ok path =>
      match parseImportModule parse path ctx with
      | some (.done, ctx) =>
        if (ctx.module path).isParsing then
          some (ctx.stop (.error (.cyclicImport stmt.modPathname)))
        else
          let ctx := if stmt.modNamespace = none then
              { ctx with reads := ctx.reads ++ [(path, ctx.exportsOf path)] }
            else ctx
          let tables := (ctx.module self).tables
          match importStmtSyms self index stmt path (ctx.exportsOf path) tables.symTable with
          | .error e => some (ctx.stop e)
          | .ok symTable =>
            importStmts env parse self (index + 1) rest
              (ctx.setTables self { tables with symTable })
      | r => r

/-- `parse_module`, on the module at `self` in the module map. The fuel bounds the nesting. -/
def parseModule (env : Env) : Nat → OsPath → NibbleCtx → Option (Ending × NibbleCtx)
  | 0, _, _ => none
  | fuel + 1, self, ctx =>
    let ctx := { ctx.setModule self { ctx.module self with isParsing := true } with
      parsed := self :: ctx.parsed }
    match env.slurp self with
    | none => some (.failed, ctx)
    | some code =>
      match parseCode env ctx.errors self code with
      | (.done, s) =>
        let ctx := { ctx with errors := s.errors }
        match importBuiltinSyms env.builtins self with
        | .error e => some (ctx.stop e)
        | .ok symTable =>
          match installModuleDecls self ⟨symTable, []⟩ s.stmts with
          | .error e => some (ctx.stop e)
          | .ok tables =>
            match importStmts env (parseModule env fuel) self 0 s.importStmts
                (ctx.setTables self tables) with
            | some (.done, ctx) =>
              match exportStmts ctx.exportsOf (ctx.module self).tables s.exportStmts with
              | .error e => some (ctx.stop e)
              | .ok tables => some (.done, ctx.setModule self ⟨false, tables⟩)
            | r => r
      | (ending, s) => some (ending, { ctx with errors := s.errors })

end Nibble.Front
