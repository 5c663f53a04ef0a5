import Nibble.Front.Compile
import Nibble.Front.ImportTraversal

/-!
# Errors that are lost

A parse that succeeds leaves the errors that the lexer recorded after the last statement that was
parsed, in whatever file that was, and no others: `readModule` computes them from the texts. A
parse that fails has recorded an error, unless a file could not be read.
-/

namespace Nibble.Front

open NibbleCtx

/-! ## A parse that succeeds -/

section

variable {env : Env} {parse : OsPath → Code → ParseState → Ending × ParseState}
  {tail : OsPath → Code → List String}

/-- From a state without errors, a parse leaves those of the end of the text. -/
def LeavesTail (parse : OsPath → Code → ParseState → Ending × ParseState)
    (tail : OsPath → Code → List String) : Prop :=
  ∀ file code s t, parse file code s = (.done, t) → s.errors = [] →
    t.errors = (tail file code).map .source

theorem checkInclude_accepted {s : ParseState} {depth : Nat} {file path : OsPath}
    {pathname : String} (h : checkInclude env s depth file pathname = .accepted path) :
    env.importAbspath file pathname = .ok path := by
  rw [checkInclude] at h
  split at h
  · cases h
  split at h
  · cases h
  · cases h
  next p hp =>
    split at h
    · cases h
    split at h
    · cases h
    dsimp only at h
    split at h
    · cases h
    · cases h
      exact hp

theorem parseStmt_done_errors (hparse : LeavesTail parse tail) {depth : Nat} {file : OsPath}
    {s t : ParseState} {stmt : Stmt} (hs : s.errors = [])
    (h : parseStmt env parse depth file s stmt = (.done, t)) :
    t.errors = (afterStmt env tail file (some stmt)).map .source := by
  cases stmt with
  | includeFile pathname =>
    simp only [parseStmt, includeStmt] at h
    split at h
    case h_7 path hpath =>
      rw [afterStmt, checkInclude_accepted hpath]
      split at h
      next => cases h
      next code hcode =>
        dsimp only
        rw [hcode]
        exact hparse path code _ t h hs
    all_goals cases h
  | _ =>
    cases h
    exact hs

theorem parseStmts_done_errors (hparse : LeavesTail parse tail) {depth : Nat} {file : OsPath} :
    ∀ (stmts : List ParsedStmt) (s t : ParseState) (p : ParsedStmt), stmts.getLast? = some p →
      parseStmts env parse depth file stmts s = (.done, t) →
      t.errors = (afterStmt env tail file p.stmt).map .source := by
  intro stmts
  induction stmts with
  | nil => exact fun _ _ _ h => nomatch h
  | cons q rest ih =>
    intro s t p hlast h
    obtain ⟨errors, stmt, _⟩ := q
    cases stmt with
    | none => cases h
    | some stmt =>
      simp only [parseStmts] at h
      split at h
      next => cases h
      next hnone =>
        rcases hstmt : parseStmt env parse depth file (s.record (errors.map .source)) stmt with
          ⟨_ | _ | _, s₁⟩
        · rw [hstmt] at h
          cases rest with
          | nil =>
            cases h
            cases hlast
            exact parseStmt_done_errors hparse (not_not.mp hnone) hstmt
          | cons q' rest =>
            rw [List.getLast?_cons_cons] at hlast
            exact ih s₁ t p hlast h
        · rw [hstmt] at h
          cases h
        · rw [hstmt] at h
          cases h

end

theorem parseCodeRecursive_done_errors (env : Env) (left : Nat) :
    ∀ file code s t, parseCodeRecursive env left file code s = (.done, t) →
      t.errors = ((tailErrors env left file code).map (List.map .source)).getD
        (s.errors ++ code.first.map .source) := by
  induction left with
  | zero =>
    intro file code s t h
    rw [parseCodeRecursive] at h
    have hnone : LeavesTail (fun _ _ s => (.failed, s)) fun _ _ => [] := fun _ _ _ _ h => by cases h
    rw [tailErrors]
    cases hstmts : code.stmts with
    | nil =>
      rw [hstmts] at h
      cases h
      rfl
    | cons p rest =>
      obtain ⟨q, hq⟩ : ∃ q, code.stmts.getLast? = some q :=
        ⟨_, List.getLast?_eq_some_getLast (by rw [hstmts]; nofun)⟩
      rw [parseStmts_done_errors hnone _ _ t q hq h, if_neg nofun]
      cases q.stmt with
      | none => rfl
      | some stmt =>
        cases stmt with
        | includeFile pathname =>
          rw [afterStmt]
          split
          · cases env.slurp _ <;> rfl
          · rfl
        | _ => rfl
  | succ left ih =>
    intro file code s t h
    rw [parseCodeRecursive] at h
    have htail : LeavesTail (parseCodeRecursive env left)
        fun path code => (tailErrors env left path code).getD code.first := by
      intro path c s t h hs
      rw [ih path c s t h, hs, List.nil_append]
      dsimp only
      cases tailErrors env left path c <;> rfl
    rw [tailErrors]
    cases hstmts : code.stmts.getLast? with
    | none =>
      rw [List.getLast?_eq_none_iff.mp hstmts] at h
      cases h
      rfl
    | some q => exact parseStmts_done_errors htail _ _ t q hstmts h

/-- The errors after a text was parsed are those before and in its end. -/
theorem parseCode_done_errors {env : Env} {r : Reading} {file : OsPath} {code : Code}
    {s : ParseState} (h : parseCode env (r.pending.map .source) file code = (.done, s)) :
    s.errors = (r.open env file code).pending.map .source := by
  rw [parseCodeRecursive_done_errors env _ file code _ s h, Reading.open]
  cases tailErrors env (includeLimit + 1) file code with
  | none => exact (List.map_append ..).symm
  | some es => rfl

/-- The context after a reading: its modules are in the map, and the errors are the pending
ones. -/
structure Tracks (ctx : NibbleCtx) (r : Reading) : Prop where
  seen : ctx.parsed = r.seen
  pending : ctx.errors = r.pending.map .source

/-- What an import statement adds to a reading. -/
def readImport (env : Env) (read : OsPath → Reading → Reading) (file : OsPath) (r : Reading)
    (stmt : StmtImport) : Reading :=
  match env.importAbspath file stmt.modPathname with
  | .ok path => if path ∈ r.seen then r else read path r
  | .error _ => r

section

variable {env : Env} {parse : OsPath → NibbleCtx → Option (Ending × NibbleCtx)}
  {read : OsPath → Reading → Reading} {self : OsPath} {ctx₀ ctx ctx' : NibbleCtx} {r : Reading}

/-- Parsing a new module reads it. -/
def Reads (env : Env) (parse : OsPath → NibbleCtx → Option (Ending × NibbleCtx))
    (read : OsPath → Reading → Reading) : Prop :=
  ∀ p ctx ctx' r, Ready env p ctx → Tracks ctx r →
    parse p (ctx.setModule p .new) = some (.done, ctx') → Tracks ctx' (read p r)

theorem importStmts_reads (hparse : Traverses env parse) (hread : Reads env parse read)
    (h₀ : Ready env self ctx₀) :
    ∀ (stmts : List StmtImport) (index : Nat) (ctx ctx' : NibbleCtx) (r : Reading),
      (∀ stmt ∈ stmts, ∀ q, env.importAbspath self stmt.modPathname = .ok q → Imports env self q) →
      Underway env self ctx₀ ctx → Tracks ctx r →
      importStmts env parse self index stmts ctx = some (.done, ctx') →
      Tracks ctx' (stmts.foldl (readImport env read self) r) := by
  intro stmts
  induction stmts with
  | nil =>
    intro index ctx ctx' r _ _ ht hr
    cases hr
    exact ht
  | cons stmt rest ih =>
    intro index ctx ctx' r himps h ht hr
    have hrest : ∀ stmt ∈ rest, ∀ q, env.importAbspath self stmt.modPathname = .ok q →
        Imports env self q := fun s hs => himps s (.tail _ hs)
    rw [importStmts] at hr
    split at hr
    · cases hr
    · cases hr
    next q hq =>
      have himp := himps stmt (.head _) q hq
      split at hr
      next ctx₁ hmod =>
        obtain ⟨-, -, hdone⟩ := parseImportModule_cases hparse h₀ h himp hmod
        obtain ⟨h₁, hmem⟩ := hdone rfl
        have ht₁ : Tracks ctx₁ (readImport env read self r stmt) := by
          rw [readImport, hq]
          dsimp only
          rw [parseImportModule] at hmod
          split at hmod
          next m hm =>
            cases hmod
            have hseen : q ∈ r.seen := by
              rw [← ht.seen, h.logged.mem_iff, hm]
              exact Option.some_ne_none m
            rw [if_pos hseen]
            exact ht
          next hnone =>
            have hseen : q ∉ r.seen := by
              rw [← ht.seen, h.logged.mem_iff, hnone]
              exact fun h => h rfl
            rw [if_neg hseen]
            exact hread q ctx ctx₁ r (h.ready h₀ himp hnone) ht hmod
        split at hr
        next => cases hr
        next hblack =>
          have hb : ctx₁.Black q := black_iff.mpr ⟨hmem, Bool.eq_false_iff.mpr hblack⟩
          obtain ⟨ctx₂, h₂, ht₂, hctx₂⟩ : ∃ ctx₂, Underway env self ctx₀ ctx₂ ∧
              Tracks ctx₂ (readImport env read self r stmt) ∧
              ctx₂ = if stmt.modNamespace = none then
                { ctx₁ with reads := ctx₁.reads ++ [(q, ctx₁.exportsOf q)] } else ctx₁ := by
            refine ⟨_, ?_, ?_, rfl⟩
            · split
              · exact h₁.read hb
              · exact h₁
            · split
              · exact ⟨ht₁.seen, ht₁.pending⟩
              · exact ht₁
          rw [← hctx₂] at hr
          dsimp only at hr
          split at hr
          next e _ => cases e <;> cases hr
          next symTable _ =>
            exact ih (index + 1) _ ctx' _ hrest (h₂.setTables h₀ _) ⟨ht₂.seen, ht₂.pending⟩ hr
      next hfail => exact absurd hr (hfail ctx')

theorem readModule_succ (env : Env) (fuel : Nat) (file : OsPath) (r : Reading) {code : Code}
    (hcode : env.slurp file = some code) :
    readModule env (fuel + 1) file r = (parseCode env [] file code).2.importStmts.foldl
      (readImport env (readModule env fuel) file) (r.open env file code) := by
  rw [readModule, hcode]
  rfl

theorem parseModule_reads (env : Env) (fuel : Nat) :
    Reads env (parseModule env fuel) (readModule env fuel) := by
  induction fuel with
  | zero => exact fun _ _ _ _ _ _ hr => by cases hr
  | succ fuel ih =>
    intro self ctx₀ ctx' r h₀ ht hr
    have hopen := underway_opened h₀
    rw [parseModule_succ] at hr
    split at hr
    next => cases hr
    next code hcode =>
      split at hr
      next s hparse =>
        have hctx := underway_errors hopen (errors_notCyclic h₀ hparse)
        have herrors : s.errors = (r.open env self code).pending.map .source := by
          rw [ht.pending] at hparse
          exact parseCode_done_errors hparse
        dsimp only at hr
        split at hr
        next e _ => cases e <;> cases hr
        split at hr
        next e _ => cases e <;> cases hr
        next tables _ =>
          have hstmts : ∀ stmt ∈ s.importStmts, ∀ q,
              env.importAbspath self stmt.modPathname = .ok q → Imports env self q :=
            fun stmt hstmt q hq => ⟨code, hcode, stmt, parseCode_importStmts hparse ▸ hstmt, hq⟩
          have htracks : Tracks (NibbleCtx.setTables { ctx₀.opened self with errors := s.errors }
              self tables) (r.open env self code) :=
            ⟨congrArg (List.cons self) ht.seen, herrors⟩
          split at hr
          next ctx himports =>
            have htracks' := importStmts_reads (parseModule_traverses env fuel) ih h₀ _ _ _ _ _
              hstmts (hctx.setTables h₀ tables) htracks himports
            rw [readModule_succ env fuel self r hcode, parseCode_importStmts hparse]
            split at hr
            next e _ => cases e <;> cases hr
            next =>
              cases hr
              exact ⟨htracks'.seen, htracks'.pending⟩
          next hfail => exact absurd hr (hfail ctx')
      next e s hne hparse =>
        cases hr
        exact (hne rfl).elim

end

/-! ## A parse that fails -/

/-- The main file and the files that paths lead to can be read. -/
def Readable (env : Env) (main : OsPath) : Prop :=
  env.slurp main ≠ none ∧
  ∀ file pathname path, env.importAbspath file pathname = .ok path → env.slurp path ≠ none

theorem checkInclude_depth {env : Env} {s : ParseState} {depth : Nat} {file path : OsPath}
    {pathname : String} (h : checkInclude env s depth file pathname = .accepted path) :
    depth ≤ includeLimit := by
  rw [checkInclude] at h
  split at h
  · cases h
  next hdepth => exact Nat.not_lt.mp hdepth

theorem fail_errors (s : ParseState) (e : Error) {t : ParseState} (h : s.fail e = (.failed, t)) :
    t.errors ≠ [] := by
  cases h
  exact List.append_ne_nil_of_right_ne_nil _ nofun

section

variable {env : Env} {main : OsPath} (hread : Readable env main)

include hread

theorem parseStmts_failed {parse : OsPath → Code → ParseState → Ending × ParseState}
    {depth : Nat} (hparse : depth ≤ includeLimit → ∀ path code s t,
      parse path code s = (.failed, t) → t.errors ≠ []) {file : OsPath} :
    ∀ (stmts : List ParsedStmt) (s t : ParseState),
      parseStmts env parse depth file stmts s = (.failed, t) → t.errors ≠ [] := by
  intro stmts
  induction stmts with
  | nil => exact fun _ _ h => by cases h
  | cons p rest ih =>
    intro s t h
    obtain ⟨errors, stmt, hreported⟩ := p
    cases stmt with
    | none =>
      cases h
      exact List.append_ne_nil_of_right_ne_nil _ fun hnil =>
        hreported rfl (List.map_eq_nil_iff.mp hnil)
    | some stmt =>
      simp only [parseStmts] at h
      split at h
      next hsome =>
        cases h
        exact hsome
      next =>
        split at h
        next s₁ _ => exact ih s₁ t h
        next =>
          cases stmt with
          | includeFile pathname =>
            simp only [parseStmt, includeStmt] at h
            split at h
            case h_6 => cases h
            case h_7 path hpath =>
              split at h
              next hnone => exact absurd hnone (hread.2 _ _ _ (checkInclude_accepted hpath))
              next code _ => exact hparse (checkInclude_depth hpath) path code _ t h
            all_goals exact fail_errors _ _ h
          | _ => cases h

theorem parseCodeRecursive_failed (left : Nat) :
    ∀ file code s t, parseCodeRecursive env left file code s = (.failed, t) → t.errors ≠ [] := by
  induction left with
  | zero =>
    intro file code s t h
    refine parseStmts_failed hread (fun hdepth => ?_) _ _ t h
    exact absurd hdepth (Nat.not_succ_le_self _)
  | succ left ih =>
    intro file code s t h
    exact parseStmts_failed hread (fun _ => ih) _ _ t h

omit hread in
theorem stop_failed {ctx ctx' : NibbleCtx} {e : Stop} (h : ctx.stop e = (.failed, ctx')) :
    ctx'.errors ≠ [] := by
  cases e with
  | assertion => cases h
  | error e =>
    cases h
    exact List.append_ne_nil_of_right_ne_nil _ nofun

theorem importStmts_failed {parse : OsPath → NibbleCtx → Option (Ending × NibbleCtx)}
    (hparse : ∀ path ctx ctx', env.slurp path ≠ none → parse path ctx = some (.failed, ctx') →
      ctx'.errors ≠ []) {self : OsPath} :
    ∀ (stmts : List StmtImport) (index : Nat) (ctx ctx' : NibbleCtx),
      importStmts env parse self index stmts ctx = some (.failed, ctx') → ctx'.errors ≠ [] := by
  intro stmts
  induction stmts with
  | nil => exact fun _ _ _ h => by cases h
  | cons stmt rest ih =>
    intro index ctx ctx' h
    rw [importStmts] at h
    split at h
    · exact stop_failed (Option.some.inj h)
    · exact stop_failed (Option.some.inj h)
    next q hq =>
      split at h
      next ctx₁ _ =>
        split at h
        · exact stop_failed (Option.some.inj h)
        · dsimp only at h
          split at h
          · exact stop_failed (Option.some.inj h)
          · exact ih _ _ ctx' h
      next =>
        rw [parseImportModule] at h
        split at h
        · cases h
        · exact hparse q _ ctx' (hread.2 _ _ _ hq) h

theorem parseModule_failed (fuel : Nat) :
    ∀ path ctx ctx', env.slurp path ≠ none →
      parseModule env fuel path ctx = some (.failed, ctx') → ctx'.errors ≠ [] := by
  induction fuel with
  | zero => exact fun _ _ _ _ h => by cases h
  | succ fuel ih =>
    intro path ctx ctx' hpath h
    simp only [parseModule] at h
    split at h
    next hnone => exact absurd hnone hpath
    next code hcode =>
      split at h
      next s _ =>
        split at h
        · exact stop_failed (Option.some.inj h)
        split at h
        · exact stop_failed (Option.some.inj h)
        split at h
        next =>
          split at h
          · exact stop_failed (Option.some.inj h)
          · cases h
        next => exact importStmts_failed hread ih _ _ _ ctx' h
      next e s _ hparse =>
        cases h
        exact parseCodeRecursive_failed hread _ path code _ s hparse

end

/-! ## Compilations -/

/-- If an error was recorded, code generation is not started; and if `nibble_compile` returns
`false` although every file could be read, an error was recorded. -/
def NoErrorLost (env : Env) (main : OsPath) (r : CompileEnd × List Error) : Prop :=
  (r.2 ≠ [] → r.1 ≠ .generates) ∧ (Readable env main → r.1 = .failed → r.2 ≠ [])

/-- The errors of the lexer that no statement follows, in the texts that are read. -/
def lostErrors (env : Env) (fuel : Nat) (main : OsPath) : List String :=
  (readModule env fuel main ⟨[], []⟩).pending

/-- The resolver, where it runs, records an error if it returns `false` (and there is none yet),
and none if code generation follows. -/
def ResolverReports (env : Env) (resolve : NibbleCtx → Resolution) (fuel : Nat) (main : OsPath) :
    Prop :=
  ∀ ctx sym, parseModule env fuel main (NibbleCtx.empty.setModule main .new) = some (.done, ctx) →
    (ctx.module main).tables.symTable.lookup mainProcIdent = some sym → sym.isProc = true →
    ((resolve ctx).ok = false → Readable env main → lostErrors env fuel main = [] →
      (resolve ctx).errors ≠ []) ∧
    ((resolve ctx).ok = true → checkMain (resolve ctx) = none → (resolve ctx).errors = [])

/-- `/m` defines `main` and then includes `/e`, whose text is an unterminated comment. -/
def unterminatedEnv : Env where
  files := [(⟨[47, 109], by decide⟩, ⟨[], [⟨[], some (.decl ⟨.proc, "main", false⟩), nofun⟩,
      ⟨[], some (.includeFile "./e"), nofun⟩]⟩),
    (⟨[47, 101], by decide⟩, ⟨["Missing closing '*/' for c-style comment"], []⟩)]
  importAbspath _ pathname :=
    if pathname = "./e" then .ok ⟨[47, 101], by decide⟩ else .error .invPath
  hash _ := 1
  builtins := ["int"]

/-- A resolver that accepts `proc main() => int`. -/
def acceptingResolver (_ : NibbleCtx) : Resolution := ⟨[], true, .int, []⟩

end Nibble.Front
