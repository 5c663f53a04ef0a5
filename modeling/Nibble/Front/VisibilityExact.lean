import Nibble.Front.ImportTraversal
import Nibble.Front.Visibility

/-!
# The names of the modules of a program

Along a traversal, the symbol table of every black module is what its builtins, declarations
and import statements give with the export tables of the modules that it imports, and its
exported symbols are declared in modules that it leads to. So the condition for one module's
statements is one for every module of an accepted program.
-/

namespace Nibble.Front

open Relation Nibble.Lib NibbleCtx

/-! ## Builtins and declarations -/

/-- The symbols that are a module's own: the builtins, and what it declares. -/
def Own (env : Env) (self : OsPath) (stmts : List Stmt) (n : Identifier) (s : Symbol) : Prop :=
  (s = .builtin n ∧ n ∈ env.builtins) ∨ ∃ d, .decl d ∈ stmts ∧ d.name = n ∧ s = .decl self d

section

variable {env : Env} {self : OsPath} {t t' : SymTable} {tables tables' : Tables}
  {stmts : List Stmt}

theorem lookup_importBuiltinSyms (h : importBuiltinSyms env.builtins self = .ok t) (n : Identifier)
    (s : Symbol) : t.lookup n = some s ↔ s = .builtin n ∧ n ∈ env.builtins := by
  have hadd : addAll self [] (env.builtins.map fun n => (n, .builtin n)) = .ok t :=
    List.foldlM_map.trans h
  have hrep : NoReplace self [] (env.builtins.map fun n => (n, Symbol.builtin n)) := by
    intro n s hmem hnative
    obtain ⟨m, -, hm⟩ := List.mem_map.mp hmem
    cases hm
    cases hnative
  rw [lookup_addAll hadd hrep, Joined, or_iff_right (by rintro ⟨⟩), List.mem_map]
  constructor
  · rintro ⟨m, hm, he⟩
    cases he
    exact ⟨rfl, hm⟩
  · rintro ⟨rfl, hm⟩
    exact ⟨n, hm, rfl⟩

theorem moduleAddExportSym_eq_some {n : Identifier} {s : Symbol}
    (h : moduleAddExportSym t n s = some t') (ht : t.KeysNodup) :
    t'.KeysNodup ∧ ∀ e ∈ t', e ∈ t ∨ e = (n, s) := by
  rw [moduleAddExportSym] at h
  split at h
  next old hold =>
    split at h
    · cases h
      exact ⟨ht, fun _ => .inl⟩
    · cases h
  next hnone =>
    cases h
    refine ⟨ht.put n s, fun e he => ?_⟩
    rcases List.mem_append.mp he with he | he
    · exact .inl (List.mem_of_mem_filter he)
    · exact .inr (List.mem_singleton.mp he)

/-- The exported symbols of a module so far are its own declarations. -/
structure DeclExports (p : OsPath) (t : SymTable) : Prop where
  keys : t.KeysNodup
  decl : ∀ e ∈ t, ∃ d, e.2 = .decl p d

theorem installModuleDecl_eq_ok {d : Decl} (h : installModuleDecl self tables d = .ok tables')
    (hexp : DeclExports self tables.exportTable) :
    (∀ n s, tables'.symTable.lookup n = some s ↔
      tables.symTable.lookup n = some s ∨ d.name = n ∧ s = .decl self d) ∧
    DeclExports self tables'.exportTable := by
  rw [installModuleDecl] at h
  split at h
  next => cases h
  next hnone =>
    have hlook n s : (tables.symTable.put d.name (.decl self d)).lookup n = some s ↔
        tables.symTable.lookup n = some s ∨ d.name = n ∧ s = .decl self d := by
      rw [lookup_put]
      by_cases hn : n = d.name
      · subst hn
        simp [hnone, eq_comm]
      · simp [hn, Ne.symm hn]
    dsimp only at h
    split at h
    next =>
      split at h
      next exportTable hadd =>
        cases h
        obtain ⟨hkeys, hmem⟩ := moduleAddExportSym_eq_some hadd hexp.keys
        refine ⟨hlook, hkeys, fun e he => ?_⟩
        rcases hmem e he with he | rfl
        · exact hexp.decl e he
        · exact ⟨d, rfl⟩
      next => cases h
    next =>
      cases h
      exact ⟨hlook, hexp⟩

theorem installModuleDecls_eq_ok :
    ∀ tables, installModuleDecls self tables stmts = .ok tables' →
      DeclExports self tables.exportTable →
      (∀ n s, tables'.symTable.lookup n = some s ↔ tables.symTable.lookup n = some s ∨
        ∃ d, .decl d ∈ stmts ∧ d.name = n ∧ s = .decl self d) ∧
      DeclExports self tables'.exportTable := by
  induction stmts with
  | nil =>
    intro tables h hexp
    cases h
    exact ⟨fun n s => (or_iff_left fun ⟨_, h, _⟩ => List.not_mem_nil h).symm, hexp⟩
  | cons stmt stmts ih =>
    intro tables h hexp
    rw [installModuleDecls, List.foldlM_cons] at h
    cases stmt with
    | decl d =>
      dsimp only at h
      cases hd : installModuleDecl self tables d with
      | error e => rw [hd] at h; cases h
      | ok tables₁ =>
        rw [hd] at h
        obtain ⟨hlook, hexp₁⟩ := installModuleDecl_eq_ok hd hexp
        obtain ⟨hlook', hexp'⟩ := ih tables₁ h hexp₁
        refine ⟨fun n s => ?_, hexp'⟩
        rw [hlook', hlook, or_assoc]
        refine or_congr_right ⟨?_, ?_⟩
        · rintro (h | ⟨d', hd', h⟩)
          · exact ⟨d, .head _, h⟩
          · exact ⟨d', .tail _ hd', h⟩
        · rintro ⟨d', hd', h⟩
          rcases List.mem_cons.mp hd' with hd' | hd'
          · cases hd'
            exact .inl h
          · exact .inr ⟨d', hd', h⟩
    | _ =>
      obtain ⟨hlook', hexp'⟩ := ih tables h hexp
      refine ⟨fun n s => ?_, hexp'⟩
      rw [hlook']
      simp only [List.mem_cons, reduceCtorEq, false_or]

end

/-- The tables of a module before its import statements. -/
def ownTables (env : Env) (self : OsPath) (stmts : List Stmt) : Except Stop Tables := do
  let symTable ← importBuiltinSyms env.builtins self
  installModuleDecls self ⟨symTable, []⟩ stmts

theorem ownTables_eq_ok {env : Env} {self : OsPath} {stmts : List Stmt} {t₀ : Tables}
    (h : ownTables env self stmts = .ok t₀) :
    (∀ n s, t₀.symTable.Says n s ↔ Own env self stmts n s) ∧ DeclExports self t₀.exportTable := by
  rw [ownTables] at h
  cases hb : importBuiltinSyms env.builtins self with
  | error e => rw [hb] at h; cases h
  | ok t =>
    rw [hb] at h
    have hnil : DeclExports self [] := ⟨List.nodup_nil, fun _ h => absurd h List.not_mem_nil⟩
    obtain ⟨hlook, hexp⟩ := installModuleDecls_eq_ok _ h hnil
    refine ⟨fun n s => ?_, hexp⟩
    rw [SymTable.Says, hlook, lookup_importBuiltinSyms hb]
    rfl

/-! ## Black modules -/

/-- The import statements of a module, the next of which has the number `index`, with the export
tables of the modules that they lead to. -/
def importsOf (env : Env) (exportsOf : OsPath → SymTable) (self : OsPath) :
    Nat → List StmtImport → List Import
  | _, [] => []
  | index, stmt :: rest =>
    match env.importAbspath self stmt.modPathname with
    | .ok q => ⟨index, stmt, q, exportsOf q⟩ :: importsOf env exportsOf self (index + 1) rest
    | .error _ => importsOf env exportsOf self (index + 1) rest

/-- A symbol that a module knows is declared in a module that it leads to, and so is the module
of an import namespace, which is black. -/
structure SymOk (env : Env) (ctx : NibbleCtx) (p : OsPath) (s : Symbol) : Prop where
  home : ∀ h, s.home = some h → ReflTransGen (Imports env) p h
  module : ∀ h index ns stmt mod, s = .module h index ns stmt mod →
    ctx.Black mod ∧ ReflTransGen (Imports env) p mod

/-- The tables of a black module. -/
structure ModuleOk (env : Env) (ctx : NibbleCtx) (p : OsPath) : Prop where
  keys : (ctx.exportsOf p).KeysNodup
  exported : ∀ e ∈ ctx.exportsOf p, e.2.home ≠ none ∧ SymOk env ctx p e.2
  bound : ∃ code s t₀, env.slurp p = some code ∧ parseCode env [] p code = (.done, s) ∧
    ownTables env p s.stmts = .ok t₀ ∧
    bindImports p (importsOf env ctx.exportsOf p 0 s.importStmts) t₀.symTable =
      .ok (ctx.module p).tables.symTable

def Described (env : Env) (ctx : NibbleCtx) : Prop := ∀ p, ctx.Black p → ModuleOk env ctx p

/-- The black modules stay as they are. -/
def Keeps (ctx ctx' : NibbleCtx) : Prop := ∀ p, ctx.Black p → ctx'.modMap p = ctx.modMap p

section

variable {env : Env} {self p q : OsPath} {ctx ctx' ctx'' : NibbleCtx} {s : Symbol}

theorem Keeps.black (h : Keeps ctx ctx') (hp : ctx.Black p) : ctx'.Black p := hp.congr (h p hp)

theorem Keeps.trans (h : Keeps ctx ctx') (h' : Keeps ctx' ctx'') : Keeps ctx ctx'' := fun p hp =>
  (h' p (h.black hp)).trans (h p hp)

theorem Keeps.exportsOf (h : Keeps ctx ctx') (hp : ctx.Black p) :
    ctx'.exportsOf p = ctx.exportsOf p := exportsOf_congr (h p hp)

theorem SymOk.keep (hs : SymOk env ctx p s) (h : Keeps ctx ctx') : SymOk env ctx' p s where
  home := hs.home
  module h' i ns stmt mod he := ⟨h.black (hs.module h' i ns stmt mod he).1,
    (hs.module h' i ns stmt mod he).2⟩

theorem SymOk.lead (hs : SymOk env ctx q s) (hpq : ReflTransGen (Imports env) p q) :
    SymOk env ctx p s where
  home h he := hpq.trans (hs.home h he)
  module h i ns stmt mod he := ⟨(hs.module h i ns stmt mod he).1,
    hpq.trans (hs.module h i ns stmt mod he).2⟩

theorem importsOf_congr {f g : OsPath → SymTable} :
    ∀ (stmts : List StmtImport) (index : Nat),
      (∀ stmt ∈ stmts, ∀ q, env.importAbspath self stmt.modPathname = .ok q → f q = g q) →
      importsOf env f self index stmts = importsOf env g self index stmts := by
  intro stmts
  induction stmts with
  | nil => exact fun _ _ => rfl
  | cons stmt rest ih =>
    intro index h
    rw [importsOf, importsOf, ih (index + 1) fun s hs => h s (.tail _ hs)]
    cases hq : env.importAbspath self stmt.modPathname with
    | error => rfl
    | ok q =>
      dsimp only
      rw [h stmt (.head _) q hq]

theorem ModuleOk.keep (h : ModuleOk env ctx p) (hs : Settled env ctx) (hp : ctx.Black p)
    (hk : Keeps ctx ctx') : ModuleOk env ctx' p where
  keys := by
    rw [hk.exportsOf hp]
    exact h.keys
  exported e he := by
    rw [hk.exportsOf hp] at he
    exact ⟨(h.exported e he).1, (h.exported e he).2.keep hk⟩
  bound := by
    obtain ⟨code, s, t₀, hcode, hparse, hown, hbind⟩ := h.bound
    refine ⟨code, s, t₀, hcode, hparse, hown, ?_⟩
    have hmod : ctx'.module p = ctx.module p := by rw [NibbleCtx.module, hk p hp]; rfl
    rw [hmod, ← hbind, importsOf_congr _ 0 fun stmt hstmt q hq => ?_]
    refine hk.exportsOf (hs.closed p hp q ⟨code, hcode, stmt, ?_, hq⟩)
    rw [hparse]
    exact hstmt

theorem mem_addAll {t t' : SymTable} {l : List (Identifier × Symbol)}
    (h : addAll self t l = .ok t') : ∀ e ∈ t', e ∈ t ∨ e ∈ l := by
  induction l generalizing t with
  | nil =>
    cases h
    exact fun e => .inl
  | cons a l ih =>
    obtain ⟨n, x⟩ := a
    rw [addAll_cons] at h
    cases hadd : moduleAddGlobalSym self t n x with
    | error e => rw [hadd] at h; cases h
    | ok t₁ =>
      rw [hadd] at h
      have hput : ∀ e ∈ t.put n x, e ∈ t ∨ e = (n, x) := by
        intro e he
        rcases List.mem_append.mp he with he | he
        · exact .inl (List.mem_of_mem_filter he)
        · exact .inr (List.mem_singleton.mp he)
      have hsub : ∀ e ∈ t₁, e ∈ t ∨ e = (n, x) := by
        simp only [moduleAddGlobalSym] at hadd
        split at hadd
        · cases hadd
          exact fun e => .inl
        split at hadd
        · split at hadd
          · cases hadd
          · cases hadd
            exact hput
        · cases hadd
          exact hput
      intro e he
      rcases ih h e he with he | he
      · rcases hsub e he with he | rfl
        · exact .inl he
        · exact .inr (.head _)
      · exact .inr (.tail _ he)

/-- What an import statement brings in comes from the module that it leads to. -/
theorem symOk_importStmtSyms {t t' : SymTable} {index : Nat} {stmt : StmtImport}
    (himp : Imports env self q) (hq : ctx.Black q) (hok : ModuleOk env ctx q)
    (ht : ∀ e ∈ t, SymOk env ctx self e.2)
    (h : importStmtSyms self index stmt q (ctx.exportsOf q) t = .ok t') :
    ∀ e ∈ t', SymOk env ctx self e.2 := by
  obtain ⟨l, hl, hadd⟩ := (importStmtSyms_eq_ok ⟨index, stmt, q, ctx.exportsOf q⟩ t).mp h
  have hlead : ReflTransGen (Imports env) self q := .single himp
  intro e he
  rcases mem_addAll hadd e he with he | he
  · exact ht e he
  · obtain ⟨n, s⟩ := e
    rcases (mem_adds hl n s).mp he with ⟨-, rfl⟩ | ⟨-, isym, -, -, hlook⟩ | ⟨-, -, k, hk⟩
    · constructor
      · rintro _ ⟨⟩
        exact .refl
      · rintro _ _ _ _ _ ⟨⟩
        exact ⟨hq, hlead⟩
    · exact (hok.exported _ (hok.keys.mem_iff.mpr hlook)).2.lead hlead
    · exact (hok.exported _ hk).2.lead hlead

end

/-! ## Along the traversal -/

/-- Parsing new modules leaves the black modules described. -/
def Describes (env : Env) (parse : OsPath → NibbleCtx → Option (Ending × NibbleCtx)) : Prop :=
  ∀ p ctx ctx', Ready env p ctx → Described env ctx →
    parse p (ctx.setModule p .new) = some (.done, ctx') → Described env ctx'

section

variable {env : Env} {parse : OsPath → NibbleCtx → Option (Ending × NibbleCtx)}
  {self : OsPath} {ctx₀ ctx ctx' : NibbleCtx}

theorem Described.keep (h : Described env ctx) (hs : Settled env ctx) (hk : Keeps ctx ctx')
    (hblack : ∀ p, ctx'.Black p → ctx.Black p) : Described env ctx' := fun p hp =>
  (h p (hblack p hp)).keep hs (hblack p hp) hk

theorem module_setTables (ctx : NibbleCtx) (p : OsPath) (t : Tables) :
    ((ctx.setTables p t).module p).tables = t := by
  rw [setTables, NibbleCtx.module, setModule_self]
  rfl

theorem keeps_setTables (h : ctx.Grey self) (t : Tables) : Keeps ctx (ctx.setTables self t) :=
  fun _ hp => setModule_of_ne _ _ (h.ne_of_black hp)

theorem keeps_of_modMap (h : ctx'.modMap = ctx.modMap) : Keeps ctx ctx' := fun p _ => by rw [h]

theorem parseImportModule_described (hdesc : Describes env parse) (h₀ : Ready env self ctx₀)
    (h : Underway env self ctx₀ ctx) (hd : Described env ctx) {q : OsPath}
    (himp : Imports env self q) (hr : parseImportModule parse q ctx = some (.done, ctx')) :
    Described env ctx' := by
  rw [parseImportModule] at hr
  split at hr
  next =>
    cases hr
    exact hd
  next hnone => exact hdesc q ctx ctx' (h.ready h₀ himp hnone) hd hr

theorem importStmts_described (hparse : Traverses env parse) (hdesc : Describes env parse)
    (h₀ : Ready env self ctx₀) :
    ∀ (stmts : List StmtImport) (index : Nat) (ctx ctx' : NibbleCtx),
      (∀ stmt ∈ stmts, ∀ q, env.importAbspath self stmt.modPathname = .ok q → Imports env self q) →
      Underway env self ctx₀ ctx → Described env ctx →
      (∀ e ∈ (ctx.module self).tables.symTable, SymOk env ctx self e.2) →
      importStmts env parse self index stmts ctx = some (.done, ctx') →
      Described env ctx' ∧ Keeps ctx ctx' ∧
        (∀ e ∈ (ctx'.module self).tables.symTable, SymOk env ctx' self e.2) ∧
        (ctx'.module self).tables.exportTable = (ctx.module self).tables.exportTable ∧
        bindImports self (importsOf env ctx'.exportsOf self index stmts)
          (ctx.module self).tables.symTable = .ok (ctx'.module self).tables.symTable := by
  intro stmts
  induction stmts with
  | nil =>
    intro index ctx ctx' _ _ hd hsym hr
    cases hr
    exact ⟨hd, fun _ _ => rfl, hsym, rfl, rfl⟩
  | cons stmt rest ih =>
    intro index ctx ctx' himps h hd hsym hr
    have hrest : ∀ stmt ∈ rest, ∀ q, env.importAbspath self stmt.modPathname = .ok q →
        Imports env self q := fun s hs => himps s (.tail _ hs)
    rw [importStmts] at hr
    split at hr
    · cases hr
    · cases hr
    next q hq =>
      have himp := himps stmt (.head _) q hq
      split at hr
      next ctx₁ hmod =>
        obtain ⟨-, hframe, hdone⟩ := parseImportModule_cases hparse h₀ h himp hmod
        obtain ⟨h₁, hmem⟩ := hdone rfl
        have hd₁ := parseImportModule_described hdesc h₀ h hd himp hmod
        have hk₁ : Keeps ctx ctx₁ := fun p hp => hframe p hp.mem
        have hself : ctx₁.module self = ctx.module self := by
          rw [NibbleCtx.module, hframe self h.selfGrey.mem]
          rfl
        split at hr
        next => cases hr
        next hblack =>
          have hb : ctx₁.Black q := black_iff.mpr ⟨hmem, Bool.eq_false_iff.mpr hblack⟩
          obtain ⟨ctx₂, h₂, hmap, hctx₂⟩ : ∃ ctx₂, Underway env self ctx₀ ctx₂ ∧
              ctx₂.modMap = ctx₁.modMap ∧
              ctx₂ = if stmt.modNamespace = none then
                { ctx₁ with reads := ctx₁.reads ++ [(q, ctx₁.exportsOf q)] } else ctx₁ := by
            refine ⟨_, ?_, ?_, rfl⟩
            · split
              · exact h₁.read hb
              · exact h₁
            · split <;> rfl
          rw [← hctx₂] at hr
          have hk₂ : Keeps ctx₁ ctx₂ := keeps_of_modMap hmap
          have hd₂ : Described env ctx₂ := hd₁.keep h₁.settled hk₂ fun p hp => by
            rwa [Black, hmap] at hp
          have hself₂ : ctx₂.module self = ctx.module self := by
            rw [← hself, NibbleCtx.module, NibbleCtx.module, hmap]
          have hb₂ := hk₂.black hb
          dsimp only at hr
          split at hr
          next e _ => cases e <;> cases hr
          next symTable hbind =>
            have hk₃ := keeps_setTables h₂.selfGrey
              ⟨symTable, (ctx₂.module self).tables.exportTable⟩
            have hd₃ := hd₂.keep h₂.settled hk₃ fun p => (Underway.black_setTables h₂.selfGrey _).mp
            have hsym₂ : ∀ e ∈ (ctx₂.module self).tables.symTable, SymOk env ctx₂ self e.2 := by
              rw [hself₂]
              exact fun e he => ((hsym e he).keep hk₁).keep hk₂
            have hsym₃ := symOk_importStmtSyms himp hb₂ (hd₂ q hb₂) hsym₂ hbind
            obtain ⟨hd', hk', hsym', hexp', hbind'⟩ := ih (index + 1) _ ctx' hrest
              (h₂.setTables h₀ _) hd₃ (by
                rw [module_setTables]
                exact fun e he => (hsym₃ e he).keep hk₃) hr
            rw [module_setTables] at hexp' hbind'
            refine ⟨hd', ((hk₁.trans hk₂).trans hk₃).trans hk', hsym', ?_, ?_⟩
            · rw [hexp', hself₂]
            · have hexports : ctx'.exportsOf q = ctx₂.exportsOf q := (hk₃.trans hk').exportsOf hb₂
              rw [importsOf, hq]
              dsimp only
              rw [bindImports, List.foldlM_cons, hexports, ← hself₂, hbind]
              exact hbind'
      next hfail =>
        exact absurd hr (hfail ctx')

theorem exportLookup_eq_ok (hd : Described env ctx) (rest : List Identifier) :
    ∀ (ident : Identifier) (sym : Option Symbol) (s : Symbol),
      (∀ x, sym = some x → SymOk env ctx self x) →
      exportLookup ctx.exportsOf ident sym rest = .ok s → SymOk env ctx self s := by
  induction rest with
  | nil =>
    intro ident sym s hsym h
    cases sym with
    | none => cases h
    | some x =>
      cases h
      exact hsym s rfl
  | cons next rest ih =>
    intro ident sym s hsym h
    rcases sym with _ | (_ | _ | ⟨home, index, ns, stmt, mod⟩)
    · cases h
    · cases h
    · cases h
    · simp only [exportLookup] at h
      split at h
      · cases h
      next symName _ =>
        obtain ⟨hblack, hlead⟩ := (hsym _ rfl).module _ _ _ _ _ rfl
        refine ih _ _ s (fun x hx => ?_) h
        have hok := hd mod hblack
        exact (hok.exported _ (hok.keys.mem_iff.mpr hx)).2.lead hlead

theorem invariant_of_foldlM {α β : Type} {f : β → α → Except Stop β} {P : β → Prop}
    (hstep : ∀ b a b', P b → f b a = .ok b' → P b') :
    ∀ (l : List α) (b b' : β), P b → l.foldlM f b = .ok b' → P b' := by
  intro l
  induction l with
  | nil =>
    intro b b' hb h
    cases h
    exact hb
  | cons a l ih =>
    intro b b' hb h
    rw [List.foldlM_cons] at h
    cases hf : f b a with
    | error e => rw [hf] at h; cases h
    | ok b₁ =>
      rw [hf] at h
      exact ih b₁ b' (hstep b a b₁ hb hf) h

/-- What holds of the tables of a module while its export statements are processed. -/
structure Exporting (env : Env) (ctx : NibbleCtx) (p : OsPath) (symTable : SymTable) (t : Tables) :
    Prop where
  symTable : t.symTable = symTable
  keys : t.exportTable.KeysNodup
  exported : ∀ e ∈ t.exportTable, e.2.home ≠ none ∧ SymOk env ctx p e.2

theorem exportSymbol_exporting (hd : Described env ctx) {symTable : SymTable}
    (hsym : ∀ e ∈ symTable, SymOk env ctx self e.2) {t t' : Tables} {esym : ExportSymbol}
    (ht : Exporting env ctx self symTable t) (h : exportSymbol ctx.exportsOf t esym = .ok t') :
    Exporting env ctx self symTable t' := by
  rw [exportSymbol] at h
  cases hlook : exportLookup ctx.exportsOf esym.ident (t.symTable.lookup esym.ident) esym.rest with
  | error e => rw [hlook] at h; cases h
  | ok s =>
    rw [hlook] at h
    have hs : SymOk env ctx self s := by
      refine exportLookup_eq_ok hd _ _ _ _ (fun x hx => ?_) hlook
      obtain ⟨l₁, l₂, hl, -⟩ := List.lookup_eq_some_iff.mp hx
      rw [ht.symTable] at hl
      exact hsym (esym.ident, x) (hl ▸ List.mem_append_right _ (.head _))
    simp only [bind, Except.bind] at h
    split at h
    · cases h
    split at h
    · cases h
    next hhome =>
      split at h
      next exportTable hadd =>
        cases h
        obtain ⟨hkeys, hmem⟩ := moduleAddExportSym_eq_some hadd ht.keys
        refine ⟨ht.symTable, hkeys, fun e he => ?_⟩
        rcases hmem e he with he | rfl
        · exact ht.exported e he
        · exact ⟨hhome, hs⟩
      next => cases h

theorem exportStmts_exporting (hd : Described env ctx) {symTable : SymTable}
    (hsym : ∀ e ∈ symTable, SymOk env ctx self e.2) {t t' : Tables} {stmts : List StmtExport}
    (ht : Exporting env ctx self symTable t) (h : exportStmts ctx.exportsOf t stmts = .ok t') :
    Exporting env ctx self symTable t' :=
  invariant_of_foldlM (fun _ _ _ hb h => invariant_of_foldlM
    (fun _ _ _ hb h => exportSymbol_exporting hd hsym hb h) _ _ _ hb h) _ _ _ ht h

theorem symOk_decl (ctx : NibbleCtx) (self : OsPath) (d : Decl) :
    SymOk env ctx self (.decl self d) := by
  refine ⟨?_, fun _ _ _ _ _ h => nomatch h⟩
  rintro _ ⟨⟩
  exact .refl

theorem symOk_own {stmts : List Stmt} {t₀ : Tables} (hown : ownTables env self stmts = .ok t₀) :
    ∀ e ∈ t₀.symTable, SymOk env ctx self e.2 := by
  rw [ownTables] at hown
  cases hb : importBuiltinSyms env.builtins self with
  | error e => rw [hb] at hown; cases hown
  | ok t =>
    rw [hb] at hown
    have hadd : addAll self [] (env.builtins.map fun n => (n, .builtin n)) = .ok t :=
      List.foldlM_map.trans hb
    refine invariant_of_foldlM (P := fun tables : Tables => ∀ e ∈ tables.symTable,
      SymOk env ctx self e.2) ?_ stmts ⟨t, []⟩ t₀ ?_ hown
    · intro tables stmt tables' htables h
      cases stmt with
      | decl d =>
        simp only [installModuleDecl] at h
        have hput : ∀ e ∈ tables.symTable.put d.name (.decl self d), SymOk env ctx self e.2 := by
          intro e he
          rcases List.mem_append.mp he with he | he
          · exact htables e (List.mem_of_mem_filter he)
          · rw [List.mem_singleton.mp he]
            exact symOk_decl ctx self d
        split at h
        · cases h
        split at h
        · split at h
          · cases h
            exact hput
          · cases h
        · cases h
          exact hput
      | _ =>
        cases h
        exact htables
    · intro e he
      rcases mem_addAll hadd e he with he | he
      · exact absurd he List.not_mem_nil
      · obtain ⟨n, -, rfl⟩ := List.mem_map.mp he
        exact ⟨(fun _ h => by cases h), (fun _ _ _ _ _ h => by cases h)⟩

theorem parseModule_describes (env : Env) (fuel : Nat) : Describes env (parseModule env fuel) := by
  induction fuel with
  | zero => exact fun _ _ _ _ _ hr => by cases hr
  | succ fuel ih =>
    intro self ctx₀ ctx' h₀ hd hr
    have hopen := underway_opened h₀
    rw [parseModule_succ] at hr
    split at hr
    next => cases hr
    next code hcode =>
      split at hr
      next s hparse =>
        have hctx := underway_errors hopen (errors_notCyclic h₀ hparse)
        dsimp only at hr
        split at hr
        next e _ => cases e <;> cases hr
        next symTable hbuiltin =>
        split at hr
        next e _ => cases e <;> cases hr
        next tables hdecls =>
          have hown : ownTables env self s.stmts = .ok tables := by
            rw [ownTables, hbuiltin]
            exact hdecls
          have hstmts : ∀ stmt ∈ s.importStmts, ∀ q,
              env.importAbspath self stmt.modPathname = .ok q → Imports env self q :=
            fun stmt hstmt q hq => ⟨code, hcode, stmt, parseCode_importStmts hparse ▸ hstmt, hq⟩
          have hset := hctx.setTables h₀ tables
          have hk₀ : Keeps ctx₀ (NibbleCtx.setTables { ctx₀.opened self with errors := s.errors }
              self tables) := by
            intro p hp
            have hps : p ≠ self := fun hps => hp.mem (hps ▸ h₀.fresh)
            exact (setModule_of_ne _ _ hps).trans (opened_of_ne _ hps)
          have hd₀ := hd.keep h₀.settled hk₀ fun p hp => (black_opened h₀).mp
            ((Underway.black_setTables hctx.selfGrey tables).mp hp)
          split at hr
          next ctx himports =>
            obtain ⟨-, hdone⟩ := importStmts_outcome (parseModule_traverses env fuel) h₀ _ _ _ _
              hstmts hset himports
            obtain ⟨h, -, hblack⟩ := hdone rfl
            obtain ⟨hd₁, -, hsym, hexp, hbind⟩ := importStmts_described
              (parseModule_traverses env fuel) ih h₀ _ _ _ _ hstmts hset hd₀ (by
                rw [module_setTables]
                exact symOk_own hown) himports
            rw [module_setTables] at hexp hbind
            split at hr
            next e _ => cases e <;> cases hr
            next tables' hexports =>
              cases hr
              have hfinal : Keeps ctx (ctx.setModule self ⟨false, tables'⟩) := fun p hp =>
                setModule_of_ne _ _ (h.selfGrey.ne_of_black hp)
              have hdecl := (ownTables_eq_ok hown).2
              have hexporting : Exporting env ctx self (ctx.module self).tables.symTable
                  (ctx.module self).tables := by
                refine ⟨rfl, ?_, fun e he => ?_⟩
                · rw [hexp]
                  exact hdecl.keys
                · rw [hexp] at he
                  obtain ⟨d, hs⟩ := hdecl.decl e he
                  rw [hs]
                  exact ⟨(fun h => by cases h), symOk_decl ctx self d⟩
              have hout := exportStmts_exporting hd₁ hsym hexporting hexports
              intro p hp
              by_cases hps : p = self
              · subst hps
                have hmod : (ctx.setModule p ⟨false, tables'⟩).module p = ⟨false, tables'⟩ := by
                  rw [NibbleCtx.module, setModule_self]
                  rfl
                obtain ⟨es, hparse'⟩ := parseCode_lenient hparse
                refine ⟨?_, ?_, code, _, tables, hcode, hparse', hown, ?_⟩
                · rw [NibbleCtx.exportsOf, hmod]
                  exact hout.keys
                · rw [NibbleCtx.exportsOf, hmod]
                  exact fun e he => ⟨(hout.exported e he).1, (hout.exported e he).2.keep hfinal⟩
                · rw [hmod, hout.symTable, ← hbind, importsOf_congr _ 0 fun stmt hstmt q hq => ?_]
                  exact hfinal.exportsOf (hblack stmt hstmt q hq)
              · have hp' := hp.congr (setModule_of_ne ctx ⟨false, tables'⟩ hps).symm
                exact (hd₁ p hp').keep h.settled hp' hfinal
          next hfail => exact absurd hr (hfail ctx')
      next e s hne hparse =>
        cases hr
        exact (hne rfl).elim

end

/-! ## Accepted programs -/

theorem mem_importsOf {env : Env} {f : OsPath → SymTable} {self : OsPath} {i : Import} :
    ∀ (stmts : List StmtImport) (index : Nat), i ∈ importsOf env f self index stmts →
      i.exports = f i.src ∧
        ∃ stmt ∈ stmts, env.importAbspath self stmt.modPathname = .ok i.src := by
  intro stmts
  induction stmts with
  | nil => exact fun _ h => absurd h List.not_mem_nil
  | cons stmt rest ih =>
    intro index h
    have hrest (h : i ∈ importsOf env f self (index + 1) rest) : i.exports = f i.src ∧
        ∃ s ∈ stmt :: rest, env.importAbspath self s.modPathname = .ok i.src := by
      obtain ⟨he, s, hs, hq⟩ := ih (index + 1) h
      exact ⟨he, s, .tail _ hs, hq⟩
    rw [importsOf] at h
    split at h
    next q hq =>
      rcases List.mem_cons.mp h with rfl | h
      · exact ⟨rfl, stmt, .head _, hq⟩
      · exact hrest h
    next => exact hrest h

/-- The names visible in a module, and the symbols that they denote, are the builtins, its
declarations and what each import statement is to make visible, in any order of these. -/
def NamesRight (env : Env) (ctx : NibbleCtx) (p : OsPath) (s : ParseState) (t₀ : Tables) : Prop :=
  Visible p (Own env p s.stmts) (importsOf env ctx.exportsOf p 0 s.importStmts)
      (ctx.module p).tables.symTable ∧
    OrderFree p t₀.symTable (importsOf env ctx.exportsOf p 0 s.importStmts)
      (ctx.module p).tables.symTable

theorem noNul_a : 0 ∉ [(47 : UInt8), 97] := by decide

theorem noNul_b : 0 ∉ [(47 : UInt8), 98] := by decide

theorem reported_importB :
    some (Stmt.importMod ⟨[], "./b", none⟩) = none → ([] : List String) ≠ [] :=
  fun h => by cases h

/-- `/a` imports everything from `/b`, which exports its procedure `foo` as `bar`. -/
def renameEnv : Env where
  files := [(⟨[47, 97], noNul_a⟩,
      ⟨[], [⟨[], some (.importMod ⟨[], "./b", none⟩), reported_importB⟩]⟩),
    (⟨[47, 98], noNul_b⟩, ⟨[], [⟨[], some (.decl ⟨.proc, "foo", false⟩), nofun⟩,
      ⟨[], some (.exportSyms ⟨[⟨"foo", [], some "bar"⟩]⟩), nofun⟩]⟩)]
  importAbspath _ pathname :=
    if pathname = "./b" then .ok ⟨[47, 98], noNul_b⟩ else .error .invPath
  hash _ := 1
  builtins := ["int"]

def renameCtx : NibbleCtx :=
  ((parseModule renameEnv 3 ⟨[47, 97], noNul_a⟩
    (NibbleCtx.empty.setModule ⟨[47, 97], noNul_a⟩ .new)).map Prod.snd).getD .empty

theorem renameCtx_eq :
    parseModule renameEnv 3 ⟨[47, 97], by decide⟩
      (NibbleCtx.empty.setModule ⟨[47, 97], by decide⟩ .new) = some (.done, renameCtx) := by
  have hdone : (parseModule renameEnv 3 ⟨[47, 97], by decide⟩
      (NibbleCtx.empty.setModule ⟨[47, 97], by decide⟩ .new)).map Prod.fst = some .done := by decide
  obtain ⟨⟨e, ctx⟩, hr, he⟩ := Option.map_eq_some_iff.mp hdone
  cases he
  rw [renameCtx, hr]
  rfl

end Nibble.Front
