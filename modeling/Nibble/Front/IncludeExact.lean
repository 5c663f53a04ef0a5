import Nibble.Front.Include
import Mathlib.Data.List.Infix
import Mathlib.Logic.Relation

/-!
# Which include statements are rejected

The table keeps, for each hash, only the last included file with it, and the including file is
compared on the length of the included path alone. `IncludeStep.Clear` says when neither matters,
and it holds of exactly the include statements that are decided as they should be.
-/

namespace Nibble.Front

theorem cstrNcmpLoop_eq_zero_iff {a : UInt8} :
    ∀ (str₂ str₁ : List UInt8), 0 ∉ str₁ → a ≠ 0 → 0 ∉ str₂ →
      (cstrNcmpLoop str₁ (a :: str₂) str₂.length = 0 ↔ a :: str₂ <+: str₁) := by
  intro str₂
  induction str₂ generalizing a with
  | nil =>
    intro str₁ h₁ ha _
    cases str₁ with
    | nil =>
      simp only [cstrNcmpLoop, List.headD_nil, List.headD_cons, List.prefix_nil,
        List.cons_ne_nil, iff_false]
      intro h
      refine ha (UInt8.toNat_inj.mp ?_)
      simp only [UInt8.toNat_zero] at h ⊢
      omega
    | cons b str₁ =>
      simp only [cstrNcmpLoop, List.length_nil, List.headD_cons, List.cons_prefix_cons,
        List.nil_prefix, and_true, ← UInt8.toNat_inj]
      omega
  | cons c str₂ ih =>
    intro str₁ h₁ ha h₂
    cases str₁ with
    | nil =>
      simp only [cstrNcmpLoop, List.headD_nil, List.headD_cons, List.prefix_nil,
        List.cons_ne_nil, iff_false]
      intro h
      refine ha (UInt8.toNat_inj.mp ?_)
      simp only [UInt8.toNat_zero] at h ⊢
      omega
    | cons b str₁ =>
      rw [List.mem_cons, not_or] at h₁ h₂
      rw [List.length_cons, cstrNcmpLoop, List.cons_prefix_cons]
      split
      next h =>
        rw [ih str₁ h₁.2 (Ne.symm h₂.1) h₂.2]
        exact (and_iff_right h.1.symm).symm
      next h =>
        have hne : b ≠ a := fun hba => h ⟨hba, hba ▸ ha, ha⟩
        refine iff_of_false (fun h0 => hne (UInt8.toNat_inj.mp ?_)) fun hp => hne hp.1.symm
        omega

/-- On the length of the second path, `cstr_ncmp` compares with a prefix. -/
theorem cstrNcmp_eq_zero_iff (p q : OsPath) :
    cstrNcmp p.bytes q.bytes q.bytes.length = 0 ↔ q.bytes <+: p.bytes := by
  obtain ⟨qs, hq⟩ := q
  cases qs with
  | nil => exact iff_of_true rfl List.nil_prefix
  | cons a qs =>
    rw [List.mem_cons, not_or] at hq
    exact cstrNcmpLoop_eq_zero_iff qs p.bytes p.noNul (Ne.symm hq.1) hq.2

theorem cstrNcmp_eq_iff (p q : OsPath) :
    p.bytes.length = q.bytes.length ∧ cstrNcmp p.bytes q.bytes q.bytes.length = 0 ↔ p = q := by
  rw [cstrNcmp_eq_zero_iff]
  constructor
  · rintro ⟨hlen, hp⟩
    exact OsPath.ext (hp.eq_of_length hlen.symm).symm
  · rintro rfl
    exact ⟨rfl, List.prefix_refl _⟩

section

variable (env : Env)

/-- The last included file with a hash. -/
def lastWith (included : List OsPath) (key : BitVec 64) : Option OsPath :=
  included.find? fun p => env.hash p = key

/-- An include statement whose path resolves is rejected if the file is the including file, or
was included before, or the limit is exceeded, and accepted otherwise. -/
def IncludeStep.Right (m : IncludeStep) : Prop :=
  ∀ path, env.importAbspath m.file m.pathname = .ok path →
    m.verdict ≠ .nullKey ∧
    (m.verdict = .accepted path ↔
      ¬ (includeLimit < m.depth ∨ path = m.file ∨ path ∈ m.before))

/-- The included path is no proper prefix of the path of the including file, its hash is not the
null key, and the files included after it have other hashes. -/
def IncludeStep.Clear (m : IncludeStep) : Prop :=
  ∀ path, env.importAbspath m.file m.pathname = .ok path → m.depth ≤ includeLimit →
    (path.bytes <+: m.file.bytes → path = m.file ∨ path ∈ m.before) ∧
    (¬ path.bytes <+: m.file.bytes → env.hash path ≠ 0 ∧
      (path ∈ m.before → lastWith env m.before (env.hash path) = some path))

/-- The table has, for each hash, the last included file with it. -/
def ParseState.Cached (s : ParseState) : Prop :=
  ∀ key path, (∃ it ∈ s.seenIncludes key, it.path = path) ↔ lastWith env s.included key = some path

/-- The decision for an include statement, met in the state `s`. -/
def decided (s : ParseState) (depth : Nat) (file : OsPath) (pathname : String) : IncludeStep :=
  ⟨file, pathname, depth, s.included, checkInclude env s depth file pathname⟩

theorem lastWith_mem {included : List OsPath} {key : BitVec 64} {path : OsPath}
    (h : lastWith env included key = some path) : path ∈ included := List.mem_of_find?_eq_some h

variable {env}

/-- The verdict on a path that resolves, within the limit. -/
theorem checkInclude_eq {s : ParseState} (hs : s.Cached env) {depth : Nat} {file path : OsPath}
    {pathname : String} (hpath : env.importAbspath file pathname = .ok path)
    (hdepth : depth ≤ includeLimit) :
    (path.bytes <+: file.bytes ∧ checkInclude env s depth file pathname = .self) ∨
    (¬ path.bytes <+: file.bytes ∧ env.hash path = 0 ∧
      checkInclude env s depth file pathname = .nullKey) ∨
    (¬ path.bytes <+: file.bytes ∧ env.hash path ≠ 0 ∧
      lastWith env s.included (env.hash path) = some path ∧
      ∃ first, checkInclude env s depth file pathname = .seen first) ∨
    (¬ path.bytes <+: file.bytes ∧ env.hash path ≠ 0 ∧
      lastWith env s.included (env.hash path) ≠ some path ∧
      checkInclude env s depth file pathname = .accepted path) := by
  have hlimit : ¬ includeLimit < depth := Nat.not_lt.mpr hdepth
  simp only [checkInclude, if_neg hlimit, hpath, cstrNcmp_eq_zero_iff]
  by_cases hself : path.bytes <+: file.bytes
  · exact .inl ⟨hself, if_pos hself⟩
  rw [if_neg hself]
  by_cases hkey : env.hash path = 0
  · exact .inr (.inl ⟨hself, hkey, if_pos hkey⟩)
  rw [if_neg hkey]
  refine .inr (.inr ?_)
  rcases hfind : (s.seenIncludes (env.hash path)).find? _ with _ | it
  · refine .inr ⟨hself, hkey, fun hlast => ?_, rfl⟩
    obtain ⟨it, hit, hp⟩ := (hs _ _).mpr hlast
    have := List.find?_eq_none.mp hfind it hit
    rw [decide_eq_true_eq, ← cstrNcmp_eq_zero_iff, cstrNcmp_eq_iff] at this
    exact this hp
  · refine .inl ⟨hself, hkey, (hs _ _).mp ⟨it, List.mem_of_find?_eq_some hfind, ?_⟩, _, rfl⟩
    have := List.find?_some hfind
    rwa [decide_eq_true_eq, ← cstrNcmp_eq_zero_iff, cstrNcmp_eq_iff] at this

/-- One include statement is decided as it should be if and only if it is clear. -/
theorem decided_right_iff {s : ParseState} (hs : s.Cached env) (depth : Nat) (file : OsPath)
    (pathname : String) :
    (decided env s depth file pathname).Right env ↔
      (decided env s depth file pathname).Clear env := by
  refine forall_congr' fun path => forall_congr' fun hpath => ?_
  simp only [decided] at hpath ⊢
  by_cases hdepth : depth ≤ includeLimit
  · rw [imp_iff_right hdepth]
    have hlimit : ¬ includeLimit < depth := Nat.not_lt.mpr hdepth
    rcases checkInclude_eq hs hpath hdepth with
      ⟨hp, hv⟩ | ⟨hp, h0, hv⟩ | ⟨hp, h0, hlast, first, hv⟩ | ⟨hp, h0, hlast, hv⟩
    · -- Rejected as the including file.
      have hverdict : Verdict.self ≠ .accepted path := nofun
      rw [hv, iff_false_left hverdict, not_not, or_iff_right hlimit, and_iff_right nofun]
      exact ⟨fun h => ⟨fun _ => h, fun hn => absurd hp hn⟩, fun h => h.1 hp⟩
    · -- The assertion fails.
      rw [hv]
      exact ⟨fun h => absurd rfl h.1, fun h => absurd h0 (h.2 hp).1⟩
    · -- Rejected as included before, and it was.
      have hverdict : Verdict.seen first ≠ .accepted path := nofun
      rw [hv, iff_false_left hverdict, not_not, and_iff_right nofun]
      exact iff_of_true (.inr (.inr (lastWith_mem env hlast)))
        ⟨fun h => absurd h hp, fun _ => ⟨h0, fun _ => hlast⟩⟩
    · -- Accepted: right unless the file was included before.
      have hne : path ≠ file := fun h => hp (h ▸ List.prefix_refl _)
      rw [hv, iff_true_left rfl, or_iff_right hlimit, or_iff_right hne, and_iff_right nofun]
      exact ⟨fun h => ⟨fun h' => absurd h' hp, fun _ => ⟨h0, fun hmem => absurd hmem h⟩⟩,
        fun h hmem => hlast ((h.2 hp).2 hmem)⟩
  · have hlimit : includeLimit < depth := Nat.lt_of_not_le hdepth
    simp [checkInclude, hlimit, hdepth]

/-! ## The steps of a parse -/

namespace ParseState

def meet (env : Env) (s : ParseState) (depth : Nat) (file : OsPath) (pathname : String) :
    ParseState :=
  { s with met := s.met ++ [decided env s depth file pathname] }

/-- A file enters the table. -/
def add (env : Env) (s : ParseState) (file path : OsPath) : ParseState :=
  { s with
    seenIncludes := Function.update s.seenIncludes (env.hash path) [⟨file, path⟩]
    included := path :: s.included }

end ParseState

/-- The errors that are recorded while a file is parsed. -/
def Error.OfParse : Error → Prop
  | source _ | includeLimit | includePath _ | includeExt _ | includeSelf _ | includeSeen .. => True
  | _ => False

/-- What a parse does to its state. -/
inductive ParseStep (env : Env) : ParseState → ParseState → Prop where
  | record (s : ParseState) (errors : List Error) (h : ∀ e ∈ errors, e.OfParse) :
    ParseStep env s (s.record errors)
  | importMod (s : ParseState) (stmt : StmtImport) :
    ParseStep env s { s with importStmts := s.importStmts ++ [stmt] }
  | exportSyms (s : ParseState) (stmt : StmtExport) :
    ParseStep env s { s with exportStmts := s.exportStmts ++ [stmt] }
  | stmt (s : ParseState) (stmt : Stmt) : ParseStep env s { s with stmts := s.stmts ++ [stmt] }
  | meet (s : ParseState) (depth : Nat) (file : OsPath) (pathname : String) :
    ParseStep env s (s.meet env depth file pathname)
  | add (s : ParseState) (file path : OsPath) : ParseStep env s (s.add env file path)

abbrev ParseSteps (env : Env) := Relation.ReflTransGen (ParseStep env)

theorem ParseSteps.source (s : ParseState) (texts : List String) :
    ParseSteps env s (s.record (texts.map .source)) := by
  refine .single (.record s _ fun e he => ?_)
  obtain ⟨text, -, rfl⟩ := List.mem_map.mp he
  trivial

theorem ParseSteps.fail (s : ParseState) {e : Error} (he : e.OfParse) :
    ParseSteps env s (s.fail e).2 :=
  .single (.record s _ fun _ h => List.mem_singleton.mp h ▸ he)

section

variable {parse : OsPath → Code → ParseState → Ending × ParseState}
  (hparse : ∀ file code s, ParseSteps env s (parse file code s).2)

include hparse

theorem parseStmt_steps (depth : Nat) (file : OsPath) (s : ParseState) (stmt : Stmt) :
    ParseSteps env s (parseStmt env parse depth file s stmt).2 := by
  cases stmt with
  | decl d => exact .single (.stmt s _)
  | staticAssert => exact .single (.stmt s _)
  | importMod stmt => exact .single (.importMod s stmt)
  | exportSyms stmt => exact .single (.exportSyms s stmt)
  | includeFile pathname =>
    have hmeet : ParseSteps env s (s.meet env depth file pathname) := .single (.meet s ..)
    simp only [parseStmt, includeStmt]
    split
    case h_7 path hpath =>
      have hadd := hmeet.tail (.add _ file path)
      split
      next => exact hadd
      next code _ => exact hadd.trans (hparse path code _)
    case h_6 => exact hmeet
    all_goals exact hmeet.trans (ParseSteps.fail _ trivial)

theorem parseStmts_steps (depth : Nat) (file : OsPath) (stmts : List ParsedStmt) :
    ∀ s, ParseSteps env s (parseStmts env parse depth file stmts s).2 := by
  induction stmts with
  | nil => exact fun s => .refl
  | cons p rest ih =>
    intro s
    obtain ⟨errors, stmt, _⟩ := p
    have hrec : ParseSteps env s (s.record (errors.map .source)) := ParseSteps.source s errors
    cases stmt with
    | none => exact hrec
    | some stmt =>
      simp only [parseStmts]
      split
      next => exact hrec
      next =>
        have hstmt := hrec.trans (parseStmt_steps hparse depth file _ stmt)
        split
        next s' h =>
          rw [h] at hstmt
          exact hstmt.trans (ih s')
        next => exact hstmt

end

theorem parseCodeRecursive_steps (left : Nat) :
    ∀ file code s, ParseSteps env s (parseCodeRecursive env left file code s).2 := by
  induction left with
  | zero =>
    intro file code s
    refine .trans (ParseSteps.source s _) (parseStmts_steps ?_ ..)
    exact fun _ _ _ => .refl
  | succ left ih =>
    intro file code s
    exact .trans (ParseSteps.source s _) (parseStmts_steps ih ..)

/-- The table is as described, and the decisions are right just where the statements are
clear. -/
structure ParseState.Tracked (env : Env) (s : ParseState) : Prop where
  cached : s.Cached env
  right_iff : ∀ m ∈ s.met, m.Right env ↔ m.Clear env

theorem ParseState.Cached.add {s : ParseState} (hs : s.Cached env) (file path : OsPath) :
    (s.add env file path).Cached env := by
  intro key p
  simp only [ParseState.add, Function.update_apply, lastWith, List.find?_cons]
  by_cases hkey : key = env.hash path
  · subst hkey
    simp
  · have hne : ¬ env.hash path = key := Ne.symm hkey
    simp only [if_neg hkey, hne, decide_false]
    exact hs key p

theorem ParseStep.tracked {s s' : ParseState} (h : ParseStep env s s') (hs : s.Tracked env) :
    s'.Tracked env := by
  cases h with
  | record => exact ⟨hs.cached, hs.right_iff⟩
  | importMod => exact ⟨hs.cached, hs.right_iff⟩
  | exportSyms => exact ⟨hs.cached, hs.right_iff⟩
  | stmt => exact ⟨hs.cached, hs.right_iff⟩
  | meet depth file pathname =>
    refine ⟨hs.cached, fun m hm => ?_⟩
    rcases List.mem_append.mp hm with hm | hm
    · exact hs.right_iff m hm
    · rw [List.mem_singleton.mp hm]
      exact decided_right_iff hs.cached depth file pathname
  | add file path => exact ⟨hs.cached.add file path, hs.right_iff⟩

theorem ParseState.tracked_init (errors : List Error) : (ParseState.init errors).Tracked env where
  cached _ _ := iff_of_false (fun ⟨_, hit, _⟩ => List.not_mem_nil hit) nofun
  right_iff _ hm := absurd hm List.not_mem_nil

theorem ParseSteps.tracked {s s' : ParseState} (h : ParseSteps env s s') (hs : s.Tracked env) :
    s'.Tracked env := by
  induction h with
  | refl => exact hs
  | tail _ hstep ih => exact hstep.tracked ih

/-! ## Failed assertions -/

/-- A null key is no right decision. -/
theorem not_right_of_nullKey {s : ParseState} {depth : Nat} {file : OsPath} {pathname : String}
    (h : checkInclude env s depth file pathname = .nullKey) :
    ¬ (decided env s depth file pathname).Right env := by
  intro hright
  cases hpath : env.importAbspath file pathname with
  | error e =>
    rw [checkInclude, hpath] at h
    split at h
    · cases h
    · cases e <;> cases h
  | ok path => exact (hright path hpath).1 h

/-- An assertion that fails shows as a wrong decision. -/
def Blamed (env : Env) (r : Ending × ParseState) : Prop :=
  r.1 = .assertion → ∃ m ∈ r.2.met, ¬ m.Right env

section

variable {parse : OsPath → Code → ParseState → Ending × ParseState}
  (hparse : ∀ file code s, Blamed env (parse file code s))

include hparse

theorem parseStmt_blamed (depth : Nat) (file : OsPath) (s : ParseState) (stmt : Stmt) :
    Blamed env (parseStmt env parse depth file s stmt) := by
  cases stmt with
  | decl d => exact nofun
  | staticAssert => exact nofun
  | importMod stmt => exact nofun
  | exportSyms stmt => exact nofun
  | includeFile pathname =>
    simp only [parseStmt, includeStmt]
    split
    case h_6 hnull =>
      exact fun _ => ⟨decided env s depth file pathname, List.mem_append_right _ (.head _),
        not_right_of_nullKey hnull⟩
    case h_7 path hpath =>
      split
      next => exact nofun
      next code _ => exact hparse path code _
    all_goals exact nofun

theorem parseStmts_blamed (depth : Nat) (file : OsPath) (stmts : List ParsedStmt) :
    ∀ s, Blamed env (parseStmts env parse depth file stmts s) := by
  induction stmts with
  | nil => exact fun s => nofun
  | cons p rest ih =>
    intro s
    obtain ⟨errors, stmt, _⟩ := p
    cases stmt with
    | none => exact nofun
    | some stmt =>
      simp only [parseStmts]
      split
      next => exact nofun
      next =>
        have hstmt := parseStmt_blamed hparse depth file (s.record (errors.map .source)) stmt
        split
        next s' _ => exact ih s'
        next => exact hstmt

end

theorem parseCodeRecursive_blamed (left : Nat) :
    ∀ file code s, Blamed env (parseCodeRecursive env left file code s) := by
  induction left with
  | zero =>
    intro file code s
    have hnone (_ : OsPath) (_ : Code) (s : ParseState) : Blamed env (.failed, s) := nofun
    exact parseStmts_blamed hnone _ file code.stmts _
  | succ left ih => exact fun file code s => parseStmts_blamed ih _ file code.stmts _

/-- A file system with `/a.nib`, and `/a.nib.nib` that includes it. -/
def prefixEnv : Env where
  files := [(⟨[47, 97, 46, 110, 105, 98], by decide⟩, ⟨[], [⟨[], some .staticAssert, nofun⟩]⟩)]
  importAbspath _ pathname :=
    if pathname = "./a.nib" then .ok ⟨[47, 97, 46, 110, 105, 98], by decide⟩
    else .error .invPath
  hash _ := 1
  builtins := []

/-- `/a.nib.nib`. -/
def prefixIncluder : OsPath := ⟨[47, 97, 46, 110, 105, 98, 46, 110, 105, 98], by decide⟩

end

end Nibble.Front
