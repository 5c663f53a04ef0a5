import Nibble.IR.CondExact
import Nibble.IR.SwitchRules
import Nibble.Resolve.FlowExact

/-!
# The bodies of procedures

Emission succeeds for the statements that `lowers` describes, and the code does
what they do. For a body that the resolver accepts, `IR_build_proc` yields a
graph that gets to a `ret` just where the body returns or comes to its end, and
is never stuck.
-/

namespace Nibble.IR.Lowering

open Nibble.Ast Nibble.Lib Nibble.Lib.Structured Nibble.Resolve

variable {B B' C : ProcBuilder} {b : BBlockId} {env : Env} {σ : MState} {p q : IRProg}
  {inLoop bodyLowers falls : Bool} {body : StmtEmitter} {f : Env → Store → Store}

/-! ## Statements that code is emitted for -/

mutual

/-- There is a block behind the statement. -/
def stmtFalls : Stmt irParts → Bool
  | .noOp | .ret _ | .brk | .cont => false
  | .block stmts => blockFalls stmts
  | .ifStmt (.const imm) ifBody none => imm == 0 || stmtFalls ifBody
  | .ifStmt (.const imm) ifBody (some elseBody) =>
    if imm != 0 then stmtFalls ifBody else stmtFalls elseBody
  | .ifStmt (.expr _) ifBody (some elseBody) => stmtFalls ifBody || stmtFalls elseBody
  | .switchStmt head cases =>
    match head.value with
    | .const imm => (head.target imm).all fun i => (casesFall cases)[i]?.getD false
    | .expr _ => true
  | _ => true

def blockFalls : List (Stmt irParts) → Bool
  | [] => true
  | s :: stmts => stmtFalls s && blockFalls stmts

def casesFall : List (List (Stmt irParts)) → List Bool
  | [] => []
  | stmts :: cases => blockFalls stmts :: casesFall cases

end

/-- The condition of a loop, and the body unless it is left out. -/
def condLowers (cond : Option CfgCond) (bodyLowers : Bool) : Bool :=
  match cond with
  | none => bodyLowers
  | some (.const imm) => imm == 0 || bodyLowers
  | some (.expr e) => e.removesFirstOnly && bodyLowers

mutual

/-- What emission can do: there is no empty statement and no `if` of a constant that leaves nothing,
no `do` loop of the constant zero, nothing behind a statement that has no block behind it; only
first jumps of conditions are removed, and a `switch` has cases that are close to each other. -/
def stmtLowers (inLoop : Bool) : Stmt irParts → Bool
  | .noOp => false
  | .staticAssert _ | .simple _ | .ret _ => true
  | .brk | .cont => inLoop
  | .block stmts => blockLowers inLoop stmts
  | .ifStmt (.const imm) ifBody none => imm != 0 && stmtLowers inLoop ifBody
  | .ifStmt (.const imm) ifBody (some elseBody) =>
    if imm != 0 then stmtLowers inLoop ifBody else stmtLowers inLoop elseBody
  | .ifStmt (.expr e) ifBody none => e.removesFirstOnly && stmtLowers inLoop ifBody
  | .ifStmt (.expr e) ifBody (some elseBody) =>
    e.removesFirstOnly && stmtLowers inLoop ifBody && stmtLowers inLoop elseBody
  | .switchStmt head cases => head.fits cases.length &&
    match head.value with
    | .const imm => (head.target imm).all fun i => (casesLower inLoop cases)[i]?.getD false
    | .expr _ => head.close && (casesLower inLoop cases).all id
  | .whileStmt cond body => condLowers (some cond) (stmtLowers true body)
  | .doWhileStmt (.const imm) body => imm != 0 && stmtLowers true body
  | .doWhileStmt (.expr e) body => e.removesFirstOnly && stmtLowers true body
  | .forStmt _ cond body _ => condLowers cond (stmtLowers true body)

def blockLowers (inLoop : Bool) : List (Stmt irParts) → Bool
  | [] => true
  | s :: stmts => stmtLowers inLoop s && (stmtFalls s || stmts.isEmpty) && blockLowers inLoop stmts

def casesLower (inLoop : Bool) : List (List (Stmt irParts)) → List Bool
  | [] => []
  | stmts :: cases => blockLowers inLoop stmts :: casesLower inLoop cases

end

/-! ## Loops of any condition -/

theorem emitInit_ok (init : Option (SimpleStmt irParts)) :
    LoopOk (emitInit init) fun env _ => act ((irMeaning env).optSimple init) := by
  cases init with
  | none => exact loopOk_skip
  | some init => exact .of_stmt (emitSimple_ok init)

theorem emitNext_ok (next : Option (SimpleStmt irParts)) :
    NextOk (next.map emitSimple) fun env => (irMeaning env).optSimple next := by
  cases next with
  | none => exact fun _ => rfl
  | some next => exact emitSimple_ok next

/-- A loop whose condition is zero is left out. -/
theorem loopOk_never (p : IRProg) (f : Env → Store → Store) :
    LoopOk pure fun env n => rounds (whileRound (fun st => (st, false)) (p env n) (f env)) n := by
  intro b B F ha ho
  refine ⟨b, B, rfl, ho, .inl rfl, ⟨F, ha⟩, .refl b B, by simp, .nil,
    fun env C brk cont n σ _ _ _ => ?_⟩
  cases n with
  | zero => trivial
  | succ n => exact ⟨_, .refl, rfl, rfl, rfl⟩

theorem emitCondLoop_lowers {next : Option StmtEmitter} (cond : Option CfgCond)
    (h : condLowers cond bodyLowers = true) (hbody : bodyLowers = true → StmtOk true falls body p)
    (hnext : NextOk next f) : LoopOk (emitCondLoop cond body next) fun env n =>
      rounds (whileRound ((irMeaning env).optCond cond) (p env n) (f env)) n := by
  match cond with
  | none => exact emitInfLoop_ok (hbody h) hnext
  | some (.expr e) =>
    obtain ⟨hgood, h⟩ := Bool.and_eq_true_iff.mp h
    exact emitCondLoop_ok hgood (hbody h) hnext
  | some (.const imm) =>
    have hcond : ∀ env, (irMeaning env).optCond (some (.const imm)) = fun st => (st, imm != 0) :=
      fun _ => rfl
    simp only [hcond]
    unfold emitCondLoop
    by_cases himm : imm = 0
    · subst himm
      exact loopOk_never p f
    · have hne : (imm != 0) = true := bne_iff_ne.mpr himm
      simp only [hne, if_true]
      refine emitInfLoop_ok (hbody ?_) hnext
      rcases Bool.or_eq_true_iff.mp h with h | h
      · exact absurd (beq_iff_eq.mp h) himm
      · exact h

theorem emitDoWhile_const {imm : Word} (himm : imm ≠ 0) (hbody : StmtOk true falls body p) :
    LoopOk (emitStmtDoWhile (.const imm) body)
      fun env n => rounds (doWhileRound (fun st => (st, imm != 0)) (p env n)) n := by
  have hne : (imm != 0) = true := bne_iff_ne.mpr himm
  have heq : emitStmtDoWhile (.const imm) body = emitInfLoop body none := by
    funext b
    unfold emitStmtDoWhile
    simp only [hne, if_true]
  have hnext : NextOk none fun _ => id := fun _ => rfl
  rw [heq]
  refine (emitInfLoop_ok hbody hnext).congr fun env n st => ?_
  congr 1
  funext st
  unfold whileRound doWhileRound
  simp only [hne, if_true]
  rfl

/-! ## Statements -/

section Constants

variable {imm : Word} {emit emit' : StmtEmitter}

theorem emitIf_const (elseBody : Option StmtEmitter) (himm : imm ≠ 0) (h : StmtOk inLoop falls emit p) (q : IRProg) :
    StmtOk inLoop falls (emitStmtIf (.const imm) emit elseBody)
      fun env n => branch (fun st => (st, imm != 0)) (p env n) (q env n) := by
  have hne : (imm != 0) = true := bne_iff_ne.mpr himm
  refine (emitIfConst_ok (by rw [hne, if_pos rfl]) h).congr fun env n st => ?_
  unfold branch
  simp only [hne, if_true]

theorem emitElse_const (h : StmtOk inLoop falls emit' q) (p : IRProg) :
    StmtOk inLoop falls (emitStmtIf (.const 0) emit (some emit'))
      fun env n => branch (fun st => (st, (0 : Word) != 0)) (p env n) (q env n) :=
  (emitIfConst_ok rfl h).congr fun _ _ _ => rfl

end Constants

theorem execCases_eq (M : Meaning irParts Store Word) (n : Nat) (cases : List (List (Stmt irParts))) :
    M.execCases n cases = cases.map (M.execBlock n) := by
  induction cases with
  | nil => rfl
  | cons stmts cases ih =>
    unfold Meaning.execCases
    rw [ih, List.map_cons]

theorem emitCases_eq (cases : List (List (Stmt irParts))) :
    emitCases cases = cases.map emitStmtBlockBody := by
  induction cases with
  | nil => rfl
  | cons stmts cases ih =>
    unfold emitCases
    rw [ih, List.map_cons]

/-- A `switch` of which one case is known. -/
theorem switch_const {head : SwitchHead} {imm : Scalar} {ps : List (Prog Store Word)}
    (hval : head.value = .const imm) {target : Option Nat} (ht : head.target imm = target) :
    switch ((irMeaning env).select head) ps =
      ((target.bind (ps[·]?)).getD skip : Prog Store Word) := by
  funext st
  unfold switch irMeaning
  simp only [hval, ht]
  cases target.bind (ps[·]?) <;> rfl

/-- What the cases of a `switch` have to yield, as far as they can be emitted. -/
def CasesOk (inLoop : Bool) (cases : List (List (Stmt irParts))) : Prop :=
  ∀ (i : Nat) (stmts : List (Stmt irParts)), cases[i]? = some stmts →
    (casesLower inLoop cases)[i]? = some true → ∃ falls, (casesFall cases)[i]? = some falls ∧
      StmtOk inLoop falls (emitStmtBlockBody stmts) fun env n => (irMeaning env).execBlock n stmts

theorem length_casesLower (inLoop : Bool) (cases : List (List (Stmt irParts))) :
    (casesLower inLoop cases).length = cases.length := by
  induction cases with
  | nil => rfl
  | cons stmts cases ih =>
    unfold casesLower
    rw [List.length_cons, List.length_cons, ih]

theorem CasesOk.forall₂ {cases : List (List (Stmt irParts))} (h : CasesOk inLoop cases)
    (hall : (casesLower inLoop cases).all id = true) : List.Forall₂
      (fun emit p => ∃ falls, StmtOk inLoop falls emit p) (emitCases cases)
      (cases.map fun stmts env n => (irMeaning env).execBlock n stmts) := by
  rw [emitCases_eq, List.forall₂_map_left_iff, List.forall₂_map_right_iff, List.forall₂_same]
  intro stmts hmem
  obtain ⟨i, hi, rfl⟩ := List.getElem_of_mem hmem
  have hi' : i < (casesLower inLoop cases).length := by rwa [length_casesLower]
  obtain ⟨falls, -, hok⟩ := h i _ (List.getElem?_eq_getElem hi) (by
    rw [List.getElem?_eq_getElem hi']
    exact congrArg some (List.all_eq_true.mp hall _ (List.getElem_mem hi')))
  exact ⟨falls, hok⟩

theorem emitSwitch_ok {head : SwitchHead} {cases : List (List (Stmt irParts))}
    (h : CasesOk inLoop cases) (hlow : stmtLowers inLoop (.switchStmt head cases) = true) :
    StmtOk inLoop (stmtFalls (.switchStmt head cases)) (emitStmtSwitch head (emitCases cases))
      fun env n => switch ((irMeaning env).select head) ((irMeaning env).execCases n cases) := by
  have hlen : (emitCases cases).length = cases.length := by
    rw [emitCases_eq, List.length_map]
  unfold stmtLowers at hlow
  obtain ⟨hfits, hlow⟩ := Bool.and_eq_true_iff.mp hlow
  rw [← hlen] at hfits
  unfold stmtFalls
  simp only [execCases_eq]
  cases hval : head.value with
  | expr e =>
    rw [hval] at hlow
    obtain ⟨hclose, hall⟩ := Bool.and_eq_true_iff.mp hlow
    have hok := emitSwitchExpr_ok hval (h.forall₂ hall) hfits hclose
    simp only [List.map_map] at hok
    exact hok
  | const imm =>
    rw [hval] at hlow
    dsimp only at hlow ⊢
    cases ht : head.target imm with
    | none =>
      refine (emitSwitchConst_ok hval hfits (by rw [ht]) skip_ok).congr fun env n st => ?_
      rw [switch_const hval ht]
      rfl
    | some i =>
      rw [ht, Option.all_some] at hlow
      have hi := SwitchHead.lt_of_mem hfits (SwitchHead.target_mem ht)
      rw [hlen] at hi
      have hi' : i < (casesLower inLoop cases).length := by rwa [length_casesLower]
      rw [List.getElem?_eq_getElem hi', Option.getD_some] at hlow
      obtain ⟨falls, hfalls, hok⟩ := h i _ (List.getElem?_eq_getElem hi) (by
        rw [List.getElem?_eq_getElem hi', hlow])
      rw [Option.all_some, hfalls, Option.getD_some]
      refine (emitSwitchConst_ok hval hfits (by
        rw [ht, emitCases_eq]
        dsimp only
        rw [List.getElem?_map, List.getElem?_eq_getElem hi]
        rfl) hok).congr fun env n st => ?_
      rw [switch_const hval ht, Option.bind_some, List.getElem?_map, List.getElem?_eq_getElem hi]
      rfl

mutual

/-- A statement that emission can do is emitted, and its code does what it does. -/
theorem emitStmt_ok (inLoop : Bool) : ∀ s : Stmt irParts, stmtLowers inLoop s = true →
    StmtOk inLoop (stmtFalls s) (emitStmt s) fun env n => (irMeaning env).exec n s
  | .staticAssert _, _ => skip_ok
  | .simple s, _ => emitSimple_ok s
  | .ret e, _ => emitStmtReturn_ok e
  | .brk, h => by
    obtain rfl : inLoop = true := h
    exact emitBreak_ok
  | .cont, h => by
    obtain rfl : inLoop = true := h
    exact emitContinue_ok
  | .block stmts, h => emitStmtBlockBody_ok inLoop stmts h
  | .ifStmt (.const imm) ifBody none, h => by
    obtain ⟨himm, h⟩ := Bool.and_eq_true_iff.mp h
    have hne : imm ≠ 0 := bne_iff_ne.mp himm
    have hok := emitIf_const none hne (emitStmt_ok inLoop ifBody h) fun _ _ => skip
    unfold stmtFalls
    rwa [beq_eq_false_iff_ne.mpr hne, Bool.false_or]
  | .ifStmt (.const imm) ifBody (some elseBody), h => by
    unfold stmtLowers at h
    unfold stmtFalls
    by_cases himm : imm = 0
    · subst himm
      exact emitElse_const (emitStmt_ok inLoop elseBody h) _
    · rw [if_pos (bne_iff_ne.mpr himm)] at h ⊢
      exact emitIf_const _ himm (emitStmt_ok inLoop ifBody h) _
  | .ifStmt (.expr e) ifBody none, h => by
    obtain ⟨hgood, h⟩ := Bool.and_eq_true_iff.mp h
    exact emitIf_ok hgood (emitStmt_ok inLoop ifBody h)
  | .ifStmt (.expr e) ifBody (some elseBody), h => by
    obtain ⟨h, helse⟩ := Bool.and_eq_true_iff.mp h
    obtain ⟨hgood, hif⟩ := Bool.and_eq_true_iff.mp h
    exact emitIfElse_ok hgood (emitStmt_ok inLoop ifBody hif) (emitStmt_ok inLoop elseBody helse)
  | .switchStmt head cases, h => emitSwitch_ok (emitCases_ok inLoop cases) h
  | .whileStmt cond body, h =>
    keepUJmps_ok (emitCondLoop_lowers (some cond) h (emitStmt_ok true body) (emitNext_ok none))
  | .doWhileStmt (.const imm) body, h => by
    obtain ⟨himm, h⟩ := Bool.and_eq_true_iff.mp h
    exact keepUJmps_ok (emitDoWhile_const (bne_iff_ne.mp himm) (emitStmt_ok true body h))
  | .doWhileStmt (.expr e) body, h => by
    obtain ⟨hgood, h⟩ := Bool.and_eq_true_iff.mp h
    exact keepUJmps_ok (emitDoWhile_ok hgood (emitStmt_ok true body h))
  | .forStmt init cond body next, h => keepUJmps_ok (.seq (emitInit_ok init)
      (emitCondLoop_lowers cond h (emitStmt_ok true body) (emitNext_ok next)))

/-- The statements of a block. -/
theorem emitStmtBlockBody_ok (inLoop : Bool) : ∀ stmts : List (Stmt irParts),
    blockLowers inLoop stmts = true → StmtOk inLoop (blockFalls stmts) (emitStmtBlockBody stmts)
      fun env n => (irMeaning env).execBlock n stmts
  | [], _ => skip_ok
  | s :: stmts, h => by
    obtain ⟨h, hstmts⟩ := Bool.and_eq_true_iff.mp h
    obtain ⟨hs, hend⟩ := Bool.and_eq_true_iff.mp h
    have hok := emitStmt_ok inLoop s hs
    have hok' := emitStmtBlockBody_ok inLoop stmts hstmts
    unfold blockFalls
    cases hfalls : stmtFalls s with
    | true =>
      rw [hfalls] at hok
      exact blockBody_cons hok hok'
    | false =>
      rw [hfalls, Bool.false_or, List.isEmpty_iff] at hend
      subst hend
      rw [hfalls] at hok
      exact blockBody_last hok

theorem emitCases_ok (inLoop : Bool) : ∀ cases : List (List (Stmt irParts)), CasesOk inLoop cases
  | [], _, _, h, _ => nomatch h
  | stmts :: _, 0, _, h, hlow => by
    cases h
    exact ⟨_, rfl, emitStmtBlockBody_ok inLoop stmts (Option.some.inj hlow)⟩
  | _ :: cases, i + 1, stmts, h, hlow => emitCases_ok inLoop cases i stmts h hlow

end

/-! ## Procedures -/

/-- What a body does, with a `return` behind it. -/
def procMeaning (env : Env) (stmts : List (Stmt irParts)) (n : Nat) : Prog Store Word :=
  seq ((irMeaning env).execBlock n stmts) fun st => some (.ret 0, st)

/-- The graph gets to a `ret` just where its body does, with the same value and store, and where it
has not got to one it makes a step. -/
structure ProcRuns (B : ProcBuilder) (stmts : List (Stmt irParts)) : Prop where
  returns : ∀ env σ w st', (∃ c, Steps B env ⟨0, 0, σ⟩ c ∧ AtRet B env w c ∧ c.st.store = st') ↔
    ∃ n, procMeaning env stmts n σ.store = some (.ret w, st')
  runs : ∀ env σ c, Steps B env ⟨0, 0, σ⟩ c → (∃ d, step B env c = some d) ∨ ∃ w, AtRet B env w c

/-- Code whose end is not reached. -/
theorem lowered_returns {normal normal' : ProcBuilder → Config → Prop} {js ks : List InstrId}
    (h : Lowered b B B' js ks normal p) (hends : ∀ env n, Ends (p env n) (· ≠ .normal)) (q : IRProg) :
    Lowered b B B' js ks normal' fun env n => seq (p env n) (q env n) := by
  refine ⟨h.emits, h.waits, h.nodup, fun env C brk cont n σ hG hjs hks => ?_⟩
  refine (h.run env C brk cont n σ hG hjs hks).seq
    (fun st' d hp _ => absurd rfl (hends env n _ _ _ hp)) fun o st' d _ ho hd => ⟨d, .refl, ?_⟩
  cases o with
  | normal => exact absurd rfl ho
  | brk | cont | ret => exact hd

/-- The implicit `ret` behind a body. -/
theorem lowered_retVoid {b' : BBlockId} {normal : ProcBuilder → Config → Prop}
    (h : Lowered b B B' [] [] (fun _ => AtEnd B' (some b')) p) (ho : B'.IsOpen b')
    (hfresh : b' = b ∨ B.bblocks.length ≤ b') :
    Lowered b B (B'.push b' (.ret ⟨.void, .none⟩)) [] [] normal
      fun env n => seq (p env n) fun st => some (.ret 0, st) := by
  exact h.seq (lowered_ret (valSpec_void ho)) hfresh

theorem atRet_unique {c : Config} {w w' : Word} (h : AtRet C env w c) (h' : AtRet C env w' c) :
    w = w' := by
  obtain ⟨id, v, hat, hv⟩ := h
  obtain ⟨id', v', hat', hv'⟩ := h'
  rw [hat] at hat'
  cases hat'
  exact Option.some.inj (hv.symm.trans hv')

/-- No jump leads to a block that is not named. -/
theorem not_atJmp {u : BBlockId} {c : Config} (hu : ∀ i ∈ C.instrs, u ∉ i.goesTo) :
    ¬ AtJmp C u c := by
  rintro ⟨id, src, hat⟩
  exact hu _ (List.mem_of_getElem? (instrAt_inv hat).2) (by simp [Instr.goesTo])

/-- Code of a whole procedure. -/
theorem procRuns_of_lowered {stmts : List (Stmt irParts)} (hend : B.endPos 0 = 0)
    (h : Lowered 0 B B' [] [] (fun _ _ => False) fun env n => procMeaning env stmts n) :
    ProcRuns B' stmts := by
  let exit (env : Env) (o : Lib.Outcome Word) (st : Store) (c : Config) : Prop :=
    c.st.store = st ∧ ∃ w, o = .ret w ∧ AtRet B' env w c
  obtain ⟨u, -, -, hu⟩ := exists_unnamed B' 0
  have hrun : ∀ env n σ, Carries (step B' env) (exit env) n (procMeaning env stmts n σ.store)
      ⟨0, 0, σ⟩ := by
    intro env n σ
    have h := h.run env B' u u n σ (.refl B') nofun nofun
    rw [hend] at h
    refine h.bind fun o st d _ hd => ⟨d, .refl, hd.1, ?_⟩
    cases o with
    | ret w => exact ⟨w, rfl, hd.2⟩
    | normal => exact hd.2.elim
    | brk | cont => exact absurd hd.2 (not_atJmp hu)
  have hall := fun env (σ : MState) => Carries.complete
    (fun o st d (hd : exit env o st d) => hd.2.elim fun w hw => hw.2.step)
    (fun o st o' st' d (hd : exit env o st d) (hd' : exit env o' st' d) => by
      obtain ⟨hst, w, rfl, hw⟩ := hd
      obtain ⟨hst', w', rfl, hw'⟩ := hd'
      exact ⟨by rw [atRet_unique hw hw'], hst.symm.trans hst'⟩)
    (p := fun n => procMeaning env stmts n) (fun n => hrun env n σ)
  refine ⟨fun env σ w st' => ?_, fun env σ c hs => ?_⟩
  · rw [← (hall env σ).1 (.ret w) st']
    refine exists_congr fun c => and_congr_right fun _ => ⟨fun hc => ⟨hc.2, w, rfl, hc.1⟩, fun hc => ?_⟩
    obtain ⟨hst, w', hw', hc⟩ := hc
    cases hw'
    exact ⟨hc, hst⟩
  · exact ((hall env σ).2 c hs).imp_right fun ⟨_, _, _, w, _, hw⟩ => ⟨w, hw⟩

/-- `while (a && b) { if (c) break; } do { if (b) continue; } while (a); return;` -/
def twoLoops : List (Stmt irParts) :=
  [.whileStmt (.expr (.and (.var 0) (.var 1))) (.block [.ifStmt (.expr (.var 2)) .brk none]),
   .doWhileStmt (.expr (.var 0)) (.block [.ifStmt (.expr (.var 1)) .cont none]), .ret none]

/-- A procedure without a value whose parts are right. -/
def allRight : Checks irParts where
  retType := none
  cond _ := true
  expr _ := true
  exprAssign _ := true
  decl _ := .ok
  ret _ := true
  switchExpr _ _ := true
  switchCase _ _ := true
  switchCases _ := true
  hasDefault _ := false
  staticAssert _ := true

end Nibble.IR.Lowering
