import Nibble.Front.IncludeExact
import Nibble.Front.Module
import Nibble.Lib.Search

/-!
# The traversal of the import graph

`parse_module` is a depth-first search: a module in the map is grey while it is being parsed and
black after that. Black modules import black ones and their export tables stay as they are; a
grey module leads to the one that is being parsed.
-/

namespace Nibble.Front

open Relation Nibble.Lib

/-! ## A parse that succeeds did not look at earlier errors -/

/-- The same state with other errors, none where there were none. -/
def ParseState.SameParse (s s' : ParseState) : Prop :=
  ∃ errors, s' = { s with errors } ∧ (s.errors = [] → errors = [])

theorem ParseState.SameParse.record {s s' : ParseState} (h : s.SameParse s')
    (errors : List Error) : (s.record errors).SameParse (s'.record errors) := by
  obtain ⟨es, rfl, hes⟩ := h
  refine ⟨es ++ errors, rfl, fun h => ?_⟩
  obtain ⟨h₁, h₂⟩ := List.append_eq_nil_iff.mp h
  rw [hes h₁, h₂]
  rfl

/-- A function of the state that succeeds on one state also does on the same with fewer errors. -/
def Lenient (f : ParseState → Ending × ParseState) : Prop :=
  ∀ s s' t, s.SameParse s' → f s = (.done, t) → ∃ t', f s' = (.done, t') ∧ t.SameParse t'

section

variable {env : Env} {parse : OsPath → Code → ParseState → Ending × ParseState}
  (hparse : ∀ file code, Lenient (parse file code))

include hparse

theorem parseStmt_lenient (depth : Nat) (file : OsPath) (stmt : Stmt) :
    Lenient fun s => parseStmt env parse depth file s stmt := by
  intro s s' t hs h
  cases stmt with
  | includeFile pathname =>
    obtain ⟨es, rfl, hes⟩ := hs
    simp only [parseStmt, includeStmt] at h ⊢
    have hcheck : checkInclude env { s with errors := es } depth file pathname =
        checkInclude env s depth file pathname := rfl
    rw [hcheck]
    split at h
    case h_7 path hpath =>
      rw [hpath] at h ⊢
      split at h
      next => cases h
      next code _ =>
        refine hparse path code _ _ t ?_ h
        exact ⟨es, rfl, hes⟩
    all_goals cases h
  | _ =>
    obtain ⟨es, rfl, hes⟩ := hs
    simp only [parseStmt, Prod.mk.injEq, true_and] at h ⊢
    subst h
    exact ⟨_, rfl, es, rfl, hes⟩

theorem parseStmts_lenient (depth : Nat) (file : OsPath) (stmts : List ParsedStmt) :
    Lenient (parseStmts env parse depth file stmts) := by
  induction stmts with
  | nil =>
    intro s s' t hs h
    cases h
    exact ⟨s', rfl, hs⟩
  | cons p rest ih =>
    intro s s' t hs h
    obtain ⟨errors, stmt, _⟩ := p
    cases stmt with
    | none => cases h
    | some stmt =>
      have hrec := hs.record (errors.map .source)
      simp only [parseStmts] at h ⊢
      split at h
      next => cases h
      next hnone =>
        obtain ⟨es, hes, hnil⟩ := hrec
        have hnone' : ¬ (s'.record (errors.map .source)).errors ≠ [] := by
          rw [hes]
          exact not_not.mpr (hnil (not_not.mp hnone))
        rw [if_neg hnone']
        rcases hstmt : parseStmt env parse depth file (s.record (errors.map .source)) stmt with
          ⟨_ | _ | _, s₁⟩
        · rw [hstmt] at h
          obtain ⟨s₁', hstmt', hs₁⟩ := parseStmt_lenient hparse depth file stmt _ _ s₁
            ⟨es, hes, hnil⟩ hstmt
          have hstmt₁ : parseStmt env parse depth file _ stmt = (.done, s₁') := hstmt'
          rw [hstmt₁]
          exact ih s₁ s₁' t hs₁ h
        · rw [hstmt] at h
          cases h
        · rw [hstmt] at h
          cases h

end

theorem parseCodeRecursive_lenient (env : Env) (left : Nat) :
    ∀ file code, Lenient (parseCodeRecursive env left file code) := by
  induction left with
  | zero =>
    intro file code s s' t hs h
    have hnone (_ : OsPath) (_ : Code) : Lenient fun s => (.failed, s) := fun _ _ _ _ h => by cases h
    exact parseStmts_lenient hnone _ file code.stmts _ _ t (hs.record _) h
  | succ left ih =>
    intro file code s s' t hs h
    exact parseStmts_lenient ih _ file code.stmts _ _ t (hs.record _) h

/-- What the parse of a file makes of it does not depend on the errors before it. -/
theorem parseCode_lenient {env : Env} {errors : List Error} {file : OsPath} {code : Code}
    {s : ParseState} (h : parseCode env errors file code = (.done, s)) :
    ∃ es, parseCode env [] file code = (.done, { s with errors := es }) := by
  have hsame : (ParseState.init errors).SameParse (.init []) := ⟨[], rfl, fun _ => rfl⟩
  obtain ⟨s', h', es, rfl, -⟩ := parseCodeRecursive_lenient env _ file code _ _ s hsame h
  exact ⟨es, h'⟩

theorem parseCode_importStmts {env : Env} {errors : List Error} {file : OsPath} {code : Code}
    {s : ParseState} (h : parseCode env errors file code = (.done, s)) :
    (parseCode env [] file code).2.importStmts = s.importStmts := by
  obtain ⟨es, h'⟩ := parseCode_lenient h
  rw [h']

/-! ## Errors that are no cyclic imports -/

/-- The stop does not report a cyclic import. -/
def Stop.NotCyclic (e : Stop) : Prop := ∀ pathname, e ≠ .error (.cyclicImport pathname)

theorem exists_of_foldlM_error {α β : Type} {f : β → α → Except Stop β} {e : Stop} :
    ∀ (l : List α) (b : β), l.foldlM f b = .error e → ∃ b, ∃ a ∈ l, f b a = .error e := by
  intro l
  induction l with
  | nil => exact fun b h => nomatch h
  | cons a l ih =>
    intro b h
    rw [List.foldlM_cons] at h
    cases hf : f b a with
    | error e' =>
      rw [hf] at h
      cases h
      exact ⟨b, a, .head _, hf⟩
    | ok b' =>
      rw [hf] at h
      obtain ⟨b, a', ha', h'⟩ := ih b' h
      exact ⟨b, a', .tail _ ha', h'⟩

theorem moduleAddGlobalSym_notCyclic {self : OsPath} {t : SymTable} {name : Identifier}
    {sym : Symbol} {e : Stop} (h : moduleAddGlobalSym self t name sym = .error e) :
    e.NotCyclic := by
  rintro n rfl
  simp only [moduleAddGlobalSym] at h
  split at h
  · cases h
  split at h
  · split at h
    · split at h <;> cases h
    · cases h
  · cases h

theorem importBuiltinSyms_notCyclic {builtins : List Identifier} {self : OsPath} {e : Stop}
    (h : importBuiltinSyms builtins self = .error e) : e.NotCyclic := by
  obtain ⟨_, _, _, h⟩ := exists_of_foldlM_error _ _ h
  exact moduleAddGlobalSym_notCyclic h

theorem installModuleDecls_notCyclic {self : OsPath} {t : Tables} {stmts : List Stmt} {e : Stop}
    (h : installModuleDecls self t stmts = .error e) : e.NotCyclic := by
  obtain ⟨t, stmt, -, h⟩ := exists_of_foldlM_error _ _ h
  rintro n rfl
  split at h
  · simp only [installModuleDecl] at h
    repeat' split at h
    all_goals cases h
  · cases h

theorem importStmtSyms_notCyclic {self src : OsPath} {index : Nat} {stmt : StmtImport}
    {exports t : SymTable} {e : Stop}
    (h : importStmtSyms self index stmt src exports t = .error e) : e.NotCyclic := by
  simp only [importStmtSyms] at h
  split at h
  · exact moduleAddGlobalSym_notCyclic h
  split at h
  · obtain ⟨t, isym, -, h⟩ := exists_of_foldlM_error _ _ h
    split at h
    · cases h
      exact fun _ => nofun
    · exact moduleAddGlobalSym_notCyclic h
  · obtain ⟨_, _, _, h⟩ := exists_of_foldlM_error _ _ h
    exact moduleAddGlobalSym_notCyclic h

theorem exportLookup_notCyclic {exportsOf : OsPath → SymTable} {e : Stop} (rest : List Identifier) :
    ∀ ident sym, exportLookup exportsOf ident sym rest = .error e → e.NotCyclic := by
  induction rest with
  | nil =>
    rintro ident sym h n rfl
    cases sym <;> cases h
  | cons next rest ih =>
    intro ident sym h
    rcases sym with _ | (_ | _ | _)
    · cases h
      exact fun _ => nofun
    · cases h
      exact fun _ => nofun
    · cases h
      exact fun _ => nofun
    · simp only [exportLookup] at h
      split at h
      · cases h
        exact fun _ => nofun
      · exact ih _ _ h

theorem exportStmts_notCyclic {exportsOf : OsPath → SymTable} {t : Tables}
    {stmts : List StmtExport} {e : Stop} (h : exportStmts exportsOf t stmts = .error e) :
    e.NotCyclic := by
  obtain ⟨_, _, _, h⟩ := exists_of_foldlM_error _ _ h
  obtain ⟨t, esym, -, h⟩ := exists_of_foldlM_error _ _ h
  cases hsym : exportLookup exportsOf esym.ident (t.symTable.lookup esym.ident) esym.rest with
  | error e' =>
    rw [exportSymbol, hsym] at h
    cases h
    exact exportLookup_notCyclic _ _ _ hsym
  | ok sym =>
    rw [exportSymbol, hsym] at h
    rintro n rfl
    simp only [bind, Except.bind] at h
    repeat' split at h
    all_goals cases h

/-! ## The marks -/

/-- The import graph: an import statement of `p` has a path that resolves to `q`. -/
def Imports (env : Env) (p q : OsPath) : Prop :=
  ∃ code, env.slurp p = some code ∧ ∃ stmt ∈ (parseCode env [] p code).2.importStmts,
    env.importAbspath p stmt.modPathname = .ok q

namespace NibbleCtx

variable {env : Env} {ctx ctx₀ : NibbleCtx} {p q self : OsPath}

def Grey (ctx : NibbleCtx) (p : OsPath) : Prop := ∃ m, ctx.modMap p = some m ∧ m.isParsing = true

def Black (ctx : NibbleCtx) (p : OsPath) : Prop := ∃ m, ctx.modMap p = some m ∧ m.isParsing = false

/-- A cyclic import has been reported. -/
def CyclicError (ctx : NibbleCtx) : Prop := ∃ pathname, .cyclicImport pathname ∈ ctx.errors

/-- What holds of the records at any time: modules are parsed once, and the export tables that
were read are those of black modules. -/
structure Logged (ctx : NibbleCtx) : Prop where
  nodup : ctx.parsed.Nodup
  mem_iff : ∀ p, p ∈ ctx.parsed ↔ ctx.modMap p ≠ none
  reads : ∀ r ∈ ctx.reads, ctx.Black r.1 ∧ ctx.exportsOf r.1 = r.2

/-- What is known of the black modules. -/
structure Settled (env : Env) (ctx : NibbleCtx) : Prop where
  closed : ∀ p, ctx.Black p → ∀ q, Imports env p q → ctx.Black q
  noCycle : ∀ p, ctx.Black p → ¬ CycleFrom (Imports env) p

/-- A module is new, and every grey module leads to it. -/
structure Ready (env : Env) (p : OsPath) (ctx : NibbleCtx) : Prop where
  logged : ctx.Logged
  settled : ctx.Settled env
  noError : ¬ ctx.CyclicError
  fresh : ctx.modMap p = none
  grey : ∀ g, ctx.Grey g → ReflTransGen (Imports env) g p

/-- However the parse of a module, started at `ctx₀`, ends. -/
structure Outcome (env : Env) (p : OsPath) (ctx₀ : NibbleCtx) (r : Ending × NibbleCtx) : Prop where
  logged : r.2.Logged
  frame : ∀ q, ctx₀.modMap q ≠ none → r.2.modMap q = ctx₀.modMap q
  reach : ∀ q ∈ r.2.parsed, q ∈ ctx₀.parsed ∨ ReflTransGen (Imports env) p q
  cyclic : r.2.CyclicError → r.1 = .failed ∧ CycleFrom (Imports env) p

/-- The parse of a module has made it black and left no other one grey. -/
structure Blackened (env : Env) (p : OsPath) (ctx₀ ctx : NibbleCtx) : Prop where
  settled : ctx.Settled env
  black : ctx.Black p
  grey : ∀ q, ctx.Grey q → ctx₀.Grey q

/-- Between the import statements of `p`, whose parse started at `ctx₀`. -/
structure Underway (env : Env) (p : OsPath) (ctx₀ ctx : NibbleCtx) : Prop where
  logged : ctx.Logged
  settled : ctx.Settled env
  noError : ¬ ctx.CyclicError
  selfGrey : ctx.Grey p
  frame : ∀ q, ctx₀.modMap q ≠ none → ctx.modMap q = ctx₀.modMap q
  reach : ∀ q ∈ ctx.parsed, q ∈ ctx₀.parsed ∨ ReflTransGen (Imports env) p q
  grey : ∀ q, ctx.Grey q → ctx₀.Grey q ∨ q = p

theorem Grey.not_black (h : ctx.Grey p) : ¬ ctx.Black p := by
  rintro ⟨m', hm', hb⟩
  obtain ⟨m, hm, hg⟩ := h
  rw [hm] at hm'
  cases hm'
  rw [hg] at hb
  cases hb

theorem Grey.ne_of_black (h : ctx.Grey p) (hq : ctx.Black q) : q ≠ p := fun hqp =>
  h.not_black (hqp ▸ hq)

theorem Black.mem (h : ctx.Black p) : ctx.modMap p ≠ none := by
  obtain ⟨m, hm, -⟩ := h
  rw [hm]
  nofun

theorem Grey.mem (h : ctx.Grey p) : ctx.modMap p ≠ none := by
  obtain ⟨m, hm, -⟩ := h
  rw [hm]
  nofun

theorem grey_or_black (h : ctx.modMap p ≠ none) : ctx.Grey p ∨ ctx.Black p := by
  obtain ⟨m, hm⟩ := Option.ne_none_iff_exists'.mp h
  cases hp : m.isParsing with
  | true => exact .inl ⟨m, hm, hp⟩
  | false => exact .inr ⟨m, hm, hp⟩

/-- What the marks and tables of a module say is the same where the map is. -/
theorem Black.congr (h : ctx₀.Black p) (he : ctx.modMap p = ctx₀.modMap p) : ctx.Black p := by
  rw [Black, he]
  exact h

theorem Grey.congr (h : ctx₀.Grey p) (he : ctx.modMap p = ctx₀.modMap p) : ctx.Grey p := by
  rw [Grey, he]
  exact h

theorem exportsOf_congr (he : ctx.modMap p = ctx₀.modMap p) : ctx.exportsOf p = ctx₀.exportsOf p := by
  rw [exportsOf, module, he]
  rfl

theorem black_iff : ctx.Black p ↔ ctx.modMap p ≠ none ∧ (ctx.module p).isParsing = false := by
  constructor
  · intro h
    obtain ⟨m, hm, hb⟩ := h
    rw [module, hm]
    exact ⟨nofun, hb⟩
  · rintro ⟨hmem, hb⟩
    obtain ⟨m, hm⟩ := Option.ne_none_iff_exists'.mp hmem
    rw [module, hm] at hb
    exact ⟨m, hm, hb⟩

theorem setModule_self (ctx : NibbleCtx) (p : OsPath) (m : Module) :
    (ctx.setModule p m).modMap p = some m := Function.update_self ..

theorem setModule_of_ne (ctx : NibbleCtx) (m : Module) (h : q ≠ p) :
    (ctx.setModule p m).modMap q = ctx.modMap q := Function.update_of_ne h ..

theorem Logged.stop (h : ctx.Logged) (e : Stop) : (ctx.stop e).2.Logged := by
  cases e <;> exact ⟨h.nodup, h.mem_iff, h.reads⟩

theorem stop_modMap (ctx : NibbleCtx) (e : Stop) : (ctx.stop e).2.modMap = ctx.modMap := by
  cases e <;> rfl

theorem stop_parsed (ctx : NibbleCtx) (e : Stop) : (ctx.stop e).2.parsed = ctx.parsed := by
  cases e <;> rfl

theorem Ready.lead (h₀ : ctx₀.Ready env self) (h : Underway env self ctx₀ ctx) (hp : ctx.Grey p) :
    ReflTransGen (Imports env) p self := by
  rcases h.grey p hp with hg | rfl
  · exact h₀.grey p hg
  · exact .refl

namespace Underway

theorem outcome_stop (h : Underway env self ctx₀ ctx) {e : Stop} (he : e.NotCyclic) :
    Outcome env self ctx₀ (ctx.stop e) where
  logged := h.logged.stop e
  frame := by
    rw [stop_modMap]
    exact h.frame
  reach := by
    rw [stop_parsed]
    exact h.reach
  cyclic := by
    rintro ⟨n, hn⟩
    cases e with
    | assertion => exact absurd ⟨n, hn⟩ h.noError
    | error e =>
      rcases List.mem_append.mp hn with hn | hn
      · exact absurd ⟨n, hn⟩ h.noError
      · exact absurd (congrArg Stop.error (List.mem_singleton.mp hn).symm) (he n)

theorem outcome_cyclic (h₀ : ctx₀.Ready env self) (h : Underway env self ctx₀ ctx)
    (himp : Imports env self q) (hq : ctx.Grey q) (pathname : String) :
    Outcome env self ctx₀ (ctx.stop (.error (.cyclicImport pathname))) where
  logged := h.logged.stop _
  frame := h.frame
  reach := h.reach
  cyclic _ := ⟨rfl, cycleFrom_of_back (h₀.lead h hq) himp⟩

theorem ready (h₀ : ctx₀.Ready env self) (h : Underway env self ctx₀ ctx)
    (himp : Imports env self q) (hq : ctx.modMap q = none) : ctx.Ready env q where
  logged := h.logged
  settled := h.settled
  noError := h.noError
  fresh := hq
  grey _ hg := (h₀.lead h hg).tail himp

/-- The parse of an imported module is part of the parse of the importing one. -/
theorem outcome_import (h : Underway env self ctx₀ ctx) (himp : Imports env self q)
    {r : Ending × NibbleCtx} (hr : Outcome env q ctx r) : Outcome env self ctx₀ r where
  logged := hr.logged
  frame p hp := by
    rw [hr.frame p (h.frame p hp ▸ hp)]
    exact h.frame p hp
  reach p hp := by
    rcases hr.reach p hp with hp | hp
    · exact h.reach p hp
    · exact .inr (.head himp hp)
  cyclic he := ⟨(hr.cyclic he).1, (hr.cyclic he).2.head (.single himp)⟩

theorem imported (h : Underway env self ctx₀ ctx) (himp : Imports env self q) {ctx' : NibbleCtx}
    (hr : Outcome env q ctx (.done, ctx')) (hb : Blackened env q ctx ctx') :
    Underway env self ctx₀ ctx' where
  logged := hr.logged
  settled := hb.settled
  noError he := nomatch (hr.cyclic he).1
  selfGrey := h.selfGrey.congr (hr.frame self h.selfGrey.mem)
  frame := (h.outcome_import himp hr).frame
  reach := (h.outcome_import himp hr).reach
  grey p hp := h.grey p (hb.grey p hp)

theorem read (h : Underway env self ctx₀ ctx) (hq : ctx.Black q) :
    Underway env self ctx₀ { ctx with reads := ctx.reads ++ [(q, ctx.exportsOf q)] } where
  logged := by
    refine ⟨h.logged.nodup, h.logged.mem_iff, fun r hr => ?_⟩
    rcases List.mem_append.mp hr with hr | hr
    · exact h.logged.reads r hr
    · rw [List.mem_singleton.mp hr]
      exact ⟨hq, rfl⟩
  settled := ⟨h.settled.closed, h.settled.noCycle⟩
  noError := h.noError
  selfGrey := h.selfGrey
  frame := h.frame
  reach := h.reach
  grey := h.grey

/-- The tables of the grey module change. -/
theorem black_setTables (h : ctx.Grey self) (t : Tables) :
    (ctx.setTables self t).Black q ↔ ctx.Black q := by
  by_cases hq : q = self
  · subst hq
    obtain ⟨m, hm, hg⟩ := h
    simp only [Black, setTables, setModule_self, module, hm, Option.getD_some, Option.some.injEq]
    constructor
    · rintro ⟨_, rfl, hb⟩
      exact ⟨m, rfl, hb⟩
    · rintro ⟨_, rfl, hb⟩
      exact ⟨_, rfl, hb⟩
  · rw [Black, Black, setTables, setModule_of_ne _ _ hq]

theorem grey_setTables (h : ctx.Grey self) (t : Tables) :
    (ctx.setTables self t).Grey q ↔ ctx.Grey q := by
  by_cases hq : q = self
  · subst hq
    refine iff_of_true ?_ h
    obtain ⟨m, hm, hg⟩ := h
    refine ⟨_, setModule_self .., ?_⟩
    rw [module, hm]
    exact hg
  · rw [Grey, Grey, setTables, setModule_of_ne _ _ hq]

theorem setTables_ne_none (h : ctx.Grey self) (t : Tables) :
    (ctx.setTables self t).modMap q ≠ none ↔ ctx.modMap q ≠ none := by
  by_cases hq : q = self
  · subst hq
    refine iff_of_true ?_ h.mem
    rw [setTables, setModule_self]
    nofun
  · rw [setTables, setModule_of_ne _ _ hq]

theorem setTables (h₀ : ctx₀.Ready env self) (h : Underway env self ctx₀ ctx) (t : Tables) :
    Underway env self ctx₀ (ctx.setTables self t) where
  logged := by
    refine ⟨h.logged.nodup, fun p => ?_, fun r hr => ?_⟩
    · rw [setTables_ne_none h.selfGrey]
      exact h.logged.mem_iff p
    · obtain ⟨hb, ht⟩ := h.logged.reads r hr
      have hne := h.selfGrey.ne_of_black hb
      exact ⟨(black_setTables h.selfGrey t).mpr hb,
        (exportsOf_congr (setModule_of_ne _ _ hne)).trans ht⟩
  settled := by
    constructor
    · intro p hp q hpq
      rw [black_setTables h.selfGrey] at hp ⊢
      exact h.settled.closed p hp q hpq
    · intro p hp
      rw [black_setTables h.selfGrey] at hp
      exact h.settled.noCycle p hp
  noError := h.noError
  selfGrey := (grey_setTables h.selfGrey t).mpr h.selfGrey
  frame p hp := by
    have hne : p ≠ self := fun hps => hp (hps ▸ h₀.fresh)
    rw [NibbleCtx.setTables, setModule_of_ne _ _ hne]
    exact h.frame p hp
  reach := h.reach
  grey p hp := h.grey p ((grey_setTables h.selfGrey t).mp hp)

end Underway

end NibbleCtx

/-! ## The traversal -/

open NibbleCtx

/-- Parsing new modules ends as described. -/
def Traverses (env : Env) (parse : OsPath → NibbleCtx → Option (Ending × NibbleCtx)) : Prop :=
  ∀ p ctx r, Ready env p ctx → parse p (ctx.setModule p .new) = some r →
    Outcome env p ctx r ∧ (r.1 = .done → Blackened env p ctx r.2)

section

variable {env : Env} {parse : OsPath → NibbleCtx → Option (Ending × NibbleCtx)}
  {self : OsPath} {ctx₀ : NibbleCtx}

/-- An imported module that was found or parsed is in the map. -/
theorem parseImportModule_cases (hparse : Traverses env parse) (h₀ : Ready env self ctx₀)
    {ctx : NibbleCtx} (h : Underway env self ctx₀ ctx) {q : OsPath} (himp : Imports env self q)
    {r : Ending × NibbleCtx} (hr : parseImportModule parse q ctx = some r) :
    Outcome env self ctx₀ r ∧ (∀ p, ctx.modMap p ≠ none → r.2.modMap p = ctx.modMap p) ∧
      (r.1 = .done → Underway env self ctx₀ r.2 ∧ r.2.modMap q ≠ none) := by
  simp only [parseImportModule] at hr
  split at hr
  next m hm =>
    cases hr
    refine ⟨⟨h.logged, h.frame, h.reach, fun he => absurd he h.noError⟩, fun _ _ => rfl,
      fun _ => ⟨h, ?_⟩⟩
    rw [hm]
    nofun
  next hnone =>
    obtain ⟨hout, hdone⟩ := hparse q ctx r (h.ready h₀ himp hnone) hr
    refine ⟨h.outcome_import himp hout, hout.frame, fun hr1 => ?_⟩
    obtain ⟨e, ctx'⟩ := r
    cases hr1
    have hb := hdone rfl
    exact ⟨h.imported himp hout hb, hb.black.mem⟩

theorem importStmts_outcome (hparse : Traverses env parse) (h₀ : Ready env self ctx₀) :
    ∀ (stmts : List StmtImport) (index : Nat) (ctx : NibbleCtx) (r : Ending × NibbleCtx),
      (∀ stmt ∈ stmts, ∀ q, env.importAbspath self stmt.modPathname = .ok q → Imports env self q) →
      Underway env self ctx₀ ctx → importStmts env parse self index stmts ctx = some r →
      Outcome env self ctx₀ r ∧ (r.1 = .done → Underway env self ctx₀ r.2 ∧
        (∀ p, ctx.Black p → r.2.Black p) ∧
        ∀ stmt ∈ stmts, ∀ q, env.importAbspath self stmt.modPathname = .ok q → r.2.Black q) := by
  intro stmts
  induction stmts with
  | nil =>
    intro index ctx r _ h hr
    cases hr
    refine ⟨⟨h.logged, h.frame, h.reach, fun he => absurd he h.noError⟩, fun _ => ⟨h, ?_, ?_⟩⟩
    · exact fun _ hp => hp
    · exact fun _ hstmt => absurd hstmt List.not_mem_nil
  | cons stmt rest ih =>
    intro index ctx r himps h hr
    have hrest : ∀ stmt ∈ rest, ∀ q, env.importAbspath self stmt.modPathname = .ok q →
        Imports env self q := fun s hs => himps s (.tail _ hs)
    rw [importStmts] at hr
    split at hr
    · cases hr
      exact ⟨h.outcome_stop fun _ => nofun, nofun⟩
    · cases hr
      exact ⟨h.outcome_stop fun _ => nofun, nofun⟩
    next q hq =>
      have himp := himps stmt (.head _) q hq
      split at hr
      next ctx₁ hmod =>
        obtain ⟨hout, hframe, hdone⟩ := parseImportModule_cases hparse h₀ h himp hmod
        obtain ⟨h₁, hmem⟩ := hdone rfl
        split at hr
        next hgrey =>
          cases hr
          rcases grey_or_black hmem with hg | hb
          · exact ⟨h₁.outcome_cyclic h₀ himp hg _, nofun⟩
          · rw [(black_iff.mp hb).2] at hgrey
            cases hgrey
        next hblack =>
          have hb : ctx₁.Black q := black_iff.mpr ⟨hmem, Bool.eq_false_iff.mpr hblack⟩
          -- The statement reads the export table of a black module, or adds a namespace.
          obtain ⟨ctx₂, h₂, hb₂, hctx₂⟩ : ∃ ctx₂, Underway env self ctx₀ ctx₂ ∧
              (∀ p, ctx₁.Black p → ctx₂.Black p) ∧
              ctx₂ = if stmt.modNamespace = none then
                { ctx₁ with reads := ctx₁.reads ++ [(q, ctx₁.exportsOf q)] } else ctx₁ := by
            refine ⟨_, ?_, ?_, rfl⟩
            · split
              · exact h₁.read hb
              · exact h₁
            · intro p hp
              split <;> exact hp
          rw [← hctx₂] at hr
          dsimp only at hr
          split at hr
          next e he =>
            cases hr
            exact ⟨h₂.outcome_stop (importStmtSyms_notCyclic he), by cases e <;> nofun⟩
          next symTable _ =>
            have h₃ := h₂.setTables h₀ ⟨symTable, (ctx₂.module self).tables.exportTable⟩
            obtain ⟨hout', hdone'⟩ := ih (index + 1) _ r hrest h₃ hr
            refine ⟨hout', fun hr1 => ?_⟩
            obtain ⟨hr', hkeep', himps'⟩ := hdone' hr1
            have hstep p (hp : ctx₁.Black p) : r.2.Black p :=
              hkeep' p ((Underway.black_setTables h₂.selfGrey _).mpr (hb₂ p hp))
            refine ⟨hr', fun p hp => hstep p (hp.congr (hframe p hp.mem)), fun s hs p hp => ?_⟩
            cases hs with
            | head =>
              rw [hq] at hp
              cases hp
              exact hstep q hb
            | tail _ hs => exact himps' s hs p hp
      next hfail =>
        obtain ⟨hout, -⟩ := parseImportModule_cases hparse h₀ h himp hr
        refine ⟨hout, fun hr1 => ?_⟩
        obtain ⟨e, ctx'⟩ := r
        cases hr1
        exact absurd hr (hfail ctx')

/-- The context in which the text of a new module is parsed. -/
def NibbleCtx.opened (self : OsPath) (ctx : NibbleCtx) : NibbleCtx :=
  let ctx := ctx.setModule self .new
  { ctx.setModule self { ctx.module self with isParsing := true } with
    parsed := self :: ctx.parsed }

theorem parseModule_succ (env : Env) (fuel : Nat) (self : OsPath) (ctx : NibbleCtx) :
    parseModule env (fuel + 1) self (ctx.setModule self .new) =
      match env.slurp self with
      | none => some (.failed, ctx.opened self)
      | some code =>
        match parseCode env ctx.errors self code with
        | (.done, s) =>
          let ctx := { ctx.opened self with errors := s.errors }
          match importBuiltinSyms env.builtins self with
          | .error e => some (ctx.stop e)
          | .ok symTable =>
            match installModuleDecls self ⟨symTable, []⟩ s.stmts with
            | .error e => some (ctx.stop e)
            | .ok tables =>
              match importStmts env (parseModule env fuel) self 0 s.importStmts
                  (ctx.setTables self tables) with
              | some (.done, ctx) =>
                match exportStmts ctx.exportsOf (ctx.module self).tables s.exportStmts with
                | .error e => some (ctx.stop e)
                | .ok tables => some (.done, ctx.setModule self ⟨false, tables⟩)
              | r => r
        | (ending, s) => some (ending, { ctx.opened self with errors := s.errors }) := rfl

theorem opened_self (self : OsPath) (ctx : NibbleCtx) :
    (ctx.opened self).modMap self = some ⟨true, ⟨[], []⟩⟩ := by
  simp only [NibbleCtx.opened, setModule_self, NibbleCtx.module, Option.getD_some]
  rfl

theorem opened_of_ne (ctx : NibbleCtx) {p : OsPath} (h : p ≠ self) :
    (ctx.opened self).modMap p = ctx.modMap p :=
  (setModule_of_ne _ _ h).trans (setModule_of_ne _ _ h)

theorem black_opened {p : OsPath} (h₀ : Ready env self ctx₀) :
    (ctx₀.opened self).Black p ↔ ctx₀.Black p := by
  by_cases hp : p = self
  · subst hp
    refine iff_of_false ?_ fun h => h.mem h₀.fresh
    rintro ⟨m, hm, hb⟩
    rw [opened_self] at hm
    cases hm
    cases hb
  · rw [Black, Black, opened_of_ne _ hp]

/-- The parse of a module begins. -/
theorem underway_opened (h₀ : Ready env self ctx₀) : Underway env self ctx₀ (ctx₀.opened self) where
  logged := by
    refine ⟨?_, fun p => ?_, fun r hr => ?_⟩
    · refine List.nodup_cons.mpr ⟨fun hmem => ?_, h₀.logged.nodup⟩
      exact (h₀.logged.mem_iff self).mp hmem h₀.fresh
    · by_cases hp : p = self
      · subst hp
        refine iff_of_true (.head _) ?_
        rw [opened_self]
        nofun
      · rw [opened_of_ne _ hp, ← h₀.logged.mem_iff]
        exact List.mem_cons.trans (or_iff_right hp)
    · obtain ⟨hb, ht⟩ := h₀.logged.reads r hr
      have hne : r.1 ≠ self := fun h => hb.mem (h ▸ h₀.fresh)
      exact ⟨(black_opened h₀).mpr hb, (exportsOf_congr (opened_of_ne _ hne)).trans ht⟩
  settled := by
    constructor
    · intro p hp q hpq
      rw [black_opened h₀] at hp ⊢
      exact h₀.settled.closed p hp q hpq
    · intro p hp
      exact h₀.settled.noCycle p ((black_opened h₀).mp hp)
  noError := h₀.noError
  selfGrey := ⟨_, opened_self .., rfl⟩
  frame p hp := opened_of_ne _ fun h => hp (h ▸ h₀.fresh)
  reach p hp := by
    rcases List.mem_cons.mp hp with rfl | hp
    · exact .inr .refl
    · exact .inl hp
  grey p hp := by
    by_cases hps : p = self
    · exact .inr hps
    · exact .inl (hp.congr (opened_of_ne _ hps).symm)

/-- Errors of the text of a file are no cyclic imports. -/
theorem ParseSteps.cyclic {s s' : ParseState} (h : ParseSteps env s s') {pathname : String}
    (he : .cyclicImport pathname ∈ s'.errors) : .cyclicImport pathname ∈ s.errors := by
  induction h with
  | refl => exact he
  | tail _ hstep ih =>
    cases hstep with
    | record errors herr =>
      rcases List.mem_append.mp he with he | he
      · exact ih he
      · exact (herr _ he).elim
    | _ => exact ih he

theorem errors_notCyclic (h₀ : Ready env self ctx₀) {code : Code} {s : ParseState} {e : Ending}
    (h : parseCode env ctx₀.errors self code = (e, s)) (pathname : String) :
    .cyclicImport pathname ∉ s.errors := by
  intro he
  have hs : ParseSteps env (.init ctx₀.errors) (parseCode env ctx₀.errors self code).2 :=
    parseCodeRecursive_steps ..
  rw [h] at hs
  exact h₀.noError ⟨pathname, ParseSteps.cyclic hs he⟩

theorem underway_errors {ctx : NibbleCtx} (h : Underway env self ctx₀ ctx) {errors : List Error}
    (he : ∀ pathname, .cyclicImport pathname ∉ errors) :
    Underway env self ctx₀ { ctx with errors } where
  logged := ⟨h.logged.nodup, h.logged.mem_iff, h.logged.reads⟩
  settled := ⟨h.settled.closed, h.settled.noCycle⟩
  noError := fun ⟨n, hn⟩ => he n hn
  selfGrey := h.selfGrey
  frame := h.frame
  reach := h.reach
  grey := h.grey

theorem underway_outcome {ctx : NibbleCtx} (h : Underway env self ctx₀ ctx) (e : Ending) :
    Outcome env self ctx₀ (e, ctx) :=
  ⟨h.logged, h.frame, h.reach, fun he => absurd he h.noError⟩

/-- The module is marked as parsed, with its final tables. -/
theorem underway_finish {ctx : NibbleCtx} (h₀ : Ready env self ctx₀)
    (h : Underway env self ctx₀ ctx) (hblack : ∀ q, Imports env self q → ctx.Black q)
    (tables : Tables) :
    Outcome env self ctx₀ (.done, ctx.setModule self ⟨false, tables⟩) ∧
      Blackened env self ctx₀ (ctx.setModule self ⟨false, tables⟩) := by
  have hself : (ctx.setModule self ⟨false, tables⟩).Black self := ⟨_, setModule_self .., rfl⟩
  have hkeep p (hp : ctx.Black p) : (ctx.setModule self ⟨false, tables⟩).Black p :=
    hp.congr (setModule_of_ne _ _ (h.selfGrey.ne_of_black hp))
  have hback p (hps : p ≠ self) (hp : (ctx.setModule self ⟨false, tables⟩).Black p) :
      ctx.Black p := hp.congr (setModule_of_ne _ _ hps).symm
  refine ⟨⟨?_, fun p hp => ?_, h.reach, fun he => absurd he h.noError⟩, ⟨?_, ?_⟩, hself, fun p hp => ?_⟩
  · refine ⟨h.logged.nodup, fun p => ?_, fun r hr => ?_⟩
    · by_cases hp : p = self
      · subst hp
        exact iff_of_true ((h.logged.mem_iff p).mpr h.selfGrey.mem) hself.mem
      · rw [setModule_of_ne _ _ hp]
        exact h.logged.mem_iff p
    · obtain ⟨hb, ht⟩ := h.logged.reads r hr
      exact ⟨hkeep _ hb,
        (exportsOf_congr (setModule_of_ne _ _ (h.selfGrey.ne_of_black hb))).trans ht⟩
  · have hps : p ≠ self := fun hps => hp (hps ▸ h₀.fresh)
    rw [setModule_of_ne _ _ hps]
    exact h.frame p hp
  · intro p hp q hpq
    by_cases hps : p = self
    · exact hkeep q (hblack q (hps ▸ hpq))
    · exact hkeep q (h.settled.closed p (hback p hps hp) q hpq)
  · intro p hp
    by_cases hps : p = self
    · rw [hps]
      exact not_cycleFrom h.settled.closed h.settled.noCycle h.selfGrey.not_black hblack
    · exact h.settled.noCycle p (hback p hps hp)
  · have hps : p ≠ self := fun hps => hp.not_black (hps ▸ hself)
    exact (h.grey p (hp.congr (setModule_of_ne _ _ hps).symm)).resolve_right hps

theorem parseModule_traverses (env : Env) (fuel : Nat) : Traverses env (parseModule env fuel) := by
  induction fuel with
  | zero => exact fun _ _ _ _ hr => by cases hr
  | succ fuel ih =>
    intro self ctx₀ r h₀ hr
    have hopen := underway_opened h₀
    rw [parseModule_succ] at hr
    split at hr
    next =>
      cases hr
      exact ⟨underway_outcome hopen _, fun h => by cases h⟩
    next code hcode =>
      split at hr
      next s hparse =>
        have hctx := underway_errors hopen (errors_notCyclic h₀ hparse)
        dsimp only at hr
        split at hr
        next e he =>
          cases hr
          exact ⟨hctx.outcome_stop (importBuiltinSyms_notCyclic he), fun h => by cases e <;> cases h⟩
        split at hr
        next e he =>
          cases hr
          exact ⟨hctx.outcome_stop (installModuleDecls_notCyclic he), fun h => by cases e <;> cases h⟩
        next tables _ =>
          have hstmts : ∀ stmt ∈ s.importStmts, ∀ q,
              env.importAbspath self stmt.modPathname = .ok q → Imports env self q :=
            fun stmt hstmt q hq => ⟨code, hcode, stmt, parseCode_importStmts hparse ▸ hstmt, hq⟩
          split at hr
          next ctx himports =>
            obtain ⟨-, hdone⟩ := importStmts_outcome ih h₀ _ _ _ _ hstmts
              (hctx.setTables h₀ tables) himports
            obtain ⟨h, -, hblack⟩ := hdone rfl
            split at hr
            next e he =>
              cases hr
              exact ⟨h.outcome_stop (exportStmts_notCyclic he), fun h => by cases e <;> cases h⟩
            next tables _ =>
              cases hr
              have himp q (hq : Imports env self q) : ctx.Black q := by
                obtain ⟨code', hcode', stmt, hstmt, hpath⟩ := hq
                rw [hcode] at hcode'
                cases hcode'
                rw [parseCode_importStmts hparse] at hstmt
                exact hblack stmt hstmt q hpath
              have hfin := underway_finish h₀ h himp tables
              exact ⟨hfin.1, fun _ => hfin.2⟩
          next hfail =>
            obtain ⟨hout, -⟩ := importStmts_outcome ih h₀ _ _ _ _ hstmts
              (hctx.setTables h₀ tables) hr
            refine ⟨hout, fun hr1 => ?_⟩
            obtain ⟨e, ctx'⟩ := r
            cases hr1
            exact absurd hr (hfail ctx')
      next e s hne hparse =>
        cases hr
        refine ⟨underway_outcome (underway_errors hopen (errors_notCyclic h₀ hparse)) e, fun he => ?_⟩
        exact (hne he).elim

/-! ## Termination -/

/-- The files that are not in the module map. -/
def unseen (env : Env) (ctx : NibbleCtx) : Nat :=
  (env.files.map Prod.fst).countP fun p => decide (ctx.modMap p = none)

theorem unseen_le {ctx ctx' : NibbleCtx} (h : ∀ p, ctx.modMap p ≠ none → ctx'.modMap p ≠ none) :
    unseen env ctx' ≤ unseen env ctx := by
  refine List.countP_mono_left fun p _ hp => ?_
  rw [decide_eq_true_eq] at hp ⊢
  exact not_not.mp fun hnone => h p hnone hp

theorem unseen_opened {code : Code} (h₀ : Ready env self ctx₀) (hcode : env.slurp self = some code) :
    unseen env (ctx₀.opened self) < unseen env ctx₀ := by
  have hmem : self ∈ env.files.map Prod.fst := by
    obtain ⟨l₁, l₂, hl, -⟩ := List.lookup_eq_some_iff.mp hcode
    rw [hl]
    exact List.mem_map_of_mem (List.mem_append_right _ (.head l₂))
  refine countP_lt_countP (fun p _ hp => ?_) hmem ?_ (decide_eq_true h₀.fresh)
  · rw [decide_eq_true_eq] at hp ⊢
    have hps : p ≠ self := by
      rintro rfl
      rw [opened_self] at hp
      cases hp
    rwa [opened_of_ne _ hps] at hp
  · rw [opened_self]
    rfl

/-- Fuel for the modules that were not met is enough. -/
def Returns (env : Env) (fuel : Nat)
    (parse : OsPath → NibbleCtx → Option (Ending × NibbleCtx)) : Prop :=
  ∀ p ctx, Ready env p ctx → unseen env ctx < fuel → parse p (ctx.setModule p .new) ≠ none

theorem importStmts_ne_none {fuel : Nat} (hparse : Traverses env parse)
    (hreturn : Returns env fuel parse) (h₀ : Ready env self ctx₀) :
    ∀ (stmts : List StmtImport) (index : Nat) (ctx : NibbleCtx),
      (∀ stmt ∈ stmts, ∀ q, env.importAbspath self stmt.modPathname = .ok q → Imports env self q) →
      Underway env self ctx₀ ctx → unseen env ctx < fuel →
      importStmts env parse self index stmts ctx ≠ none := by
  intro stmts
  induction stmts with
  | nil => exact fun _ _ _ _ _ => nofun
  | cons stmt rest ih =>
    intro index ctx himps h hfuel
    have hrest : ∀ stmt ∈ rest, ∀ q, env.importAbspath self stmt.modPathname = .ok q →
        Imports env self q := fun s hs => himps s (.tail _ hs)
    rw [importStmts]
    split
    · nofun
    · nofun
    next q hq =>
      have himp := himps stmt (.head _) q hq
      have hsome : parseImportModule parse q ctx ≠ none := by
        rw [parseImportModule]
        split
        next => nofun
        next hnone => exact hreturn q ctx (h.ready h₀ himp hnone) hfuel
      split
      next ctx₁ hmod =>
        obtain ⟨-, hframe, hdone⟩ := parseImportModule_cases hparse h₀ h himp hmod
        obtain ⟨h₁, hmem⟩ := hdone rfl
        have hless : unseen env ctx₁ ≤ unseen env ctx := unseen_le fun p hp => by
          rw [hframe p hp]
          exact hp
        split
        next => nofun
        next hblack =>
          have hb : ctx₁.Black q := black_iff.mpr ⟨hmem, Bool.eq_false_iff.mpr hblack⟩
          obtain ⟨ctx₂, h₂, hmap, hctx₂⟩ : ∃ ctx₂, Underway env self ctx₀ ctx₂ ∧
              ctx₂.modMap = ctx₁.modMap ∧
              ctx₂ = if stmt.modNamespace = none then
                { ctx₁ with reads := ctx₁.reads ++ [(q, ctx₁.exportsOf q)] } else ctx₁ := by
            refine ⟨_, ?_, ?_, rfl⟩
            · split
              · exact h₁.read hb
              · exact h₁
            · split <;> rfl
          rw [← hctx₂]
          dsimp only
          split
          next => nofun
          next symTable _ =>
            refine ih (index + 1) _ hrest (h₂.setTables h₀ _) (Nat.lt_of_le_of_lt ?_ hfuel)
            refine Nat.le_trans (unseen_le fun p hp => ?_) hless
            rw [Underway.setTables_ne_none h₂.selfGrey, hmap]
            exact hp
      next r hfail =>
        cases hr : parseImportModule parse q ctx with
        | none => exact absurd hr hsome
        | some => nofun

theorem parseModule_returns (env : Env) (fuel : Nat) :
    Returns env fuel (parseModule env fuel) := by
  induction fuel with
  | zero => exact fun _ _ _ hfuel => absurd hfuel (Nat.not_lt_zero _)
  | succ fuel ih =>
    intro self ctx₀ h₀ hfuel
    have hopen := underway_opened h₀
    rw [parseModule_succ]
    split
    next => exact Option.some_ne_none _
    next code hcode =>
      split
      next s hparse =>
        have hctx := underway_errors hopen (errors_notCyclic h₀ hparse)
        dsimp only
        split
        next => exact Option.some_ne_none _
        split
        next => exact Option.some_ne_none _
        next tables _ =>
          have hless := unseen_opened h₀ hcode
          have hsome := importStmts_ne_none (parseModule_traverses env fuel) ih h₀ s.importStmts 0
            _ (fun stmt hstmt q hq => ⟨code, hcode, stmt, parseCode_importStmts hparse ▸ hstmt, hq⟩)
            (hctx.setTables h₀ tables) (Nat.lt_of_le_of_lt (unseen_le fun p hp => ?_)
              (show unseen env (ctx₀.opened self) < fuel by omega))
          · split
            next => split <;> exact Option.some_ne_none _
            next r hfail =>
              intro hnone
              exact hsome hnone
          · rw [Underway.setTables_ne_none hctx.selfGrey]
            exact hp
      next => exact Option.some_ne_none _

end

theorem ready_empty (env : Env) (main : OsPath) : Ready env main .empty where
  logged := ⟨List.nodup_nil, fun _ => iff_of_false List.not_mem_nil (not_not.mpr rfl),
    fun _ hr => absurd hr List.not_mem_nil⟩
  settled := ⟨fun _ hp => absurd rfl hp.mem, fun _ hp => absurd rfl hp.mem⟩
  noError := fun ⟨_, he⟩ => absurd he List.not_mem_nil
  fresh := rfl
  grey _ hg := absurd rfl hg.mem

/-- `/a` imports `/b`, which imports `/a`. -/
def cyclicEnv : Env where
  files := [(⟨[47, 97], by decide⟩, ⟨[], [⟨[], some (.importMod ⟨[], "./b", none⟩), nofun⟩]⟩),
    (⟨[47, 98], by decide⟩, ⟨[], [⟨[], some (.importMod ⟨[], "./a", none⟩), nofun⟩]⟩)]
  importAbspath _ pathname :=
    if pathname = "./a" then .ok ⟨[47, 97], by decide⟩
    else if pathname = "./b" then .ok ⟨[47, 98], by decide⟩ else .error .invPath
  hash _ := 1
  builtins := ["int"]

example : (parseModule cyclicEnv 3 ⟨[47, 97], by decide⟩
    (NibbleCtx.empty.setModule ⟨[47, 97], by decide⟩ .new)).map (fun r => (r.1, r.2.errors)) =
    some (.failed, [.cyclicImport "./a"]) := by decide

end Nibble.Front
